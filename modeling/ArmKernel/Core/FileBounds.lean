import ArmKernel.Core.FileContents

/-! Where `fread` and `fwrite` look for blocks. The bound and the growth are
computed modulo 2^32, and a head may stand anywhere; the positions below are
counted without wrap-around. -/
namespace ArmKernel.Core

open Lib Lib.Bytes Fs SuperBlock

/-- The positions in the file at which a transfer of `n` bytes looks up a
block: the head and each block boundary before its last byte. -/
def positions (head : UInt32) (n : Nat) : List Nat :=
  head.toNat :: ((List.range (n - 1)).map fun i => head.toNat + i + 1).filter fun p => p % 512 == 0

section

variable {head : UInt32} {n : Nat}

theorem mem_positions {p : Nat} : p ∈ positions head n ↔
    p = head.toNat ∨ head.toNat < p ∧ p ≤ head.toNat + (n - 1) ∧ p % 512 = 0 := by
  simp only [positions, List.mem_cons, List.mem_filter, List.mem_map, List.mem_range, beq_iff_eq]
  constructor
  · rintro (rfl | ⟨⟨i, hi, rfl⟩, h512⟩)
    · exact .inl rfl
    · exact .inr ⟨by omega, by omega, h512⟩
  · rintro (rfl | ⟨hlt, hle, h512⟩)
    · exact .inl rfl
    · exact .inr ⟨⟨p - head.toNat - 1, by omega, by omega⟩, h512⟩

theorem positions_within (b : Nat) :
    (∀ p ∈ positions head n, p / 512 ≤ b) ↔ (head.toNat + (n - 1)) / 512 ≤ b := by
  constructor
  · intro h
    have hfirst := h head.toNat (mem_positions.mpr (.inl rfl))
    by_cases hsame : (head.toNat + (n - 1)) / 512 = head.toNat / 512
    · rw [hsame]
      exact hfirst
    · have hlast := h (512 * ((head.toNat + (n - 1)) / 512)) (mem_positions.mpr (.inr ⟨by omega, by omega, by omega⟩))
      omega
  · intro h p hp
    rcases mem_positions.mp hp with rfl | ⟨-, hle, -⟩
    · omega
    · omega

theorem offset_eq (i : Nat) : head + UInt32.ofNat i + 1 = UInt32.ofNat (head.toNat + i + 1) := by
  apply UInt32.toNat_inj.mp
  rw [UInt32.toNat_add, UInt32.toNat_add, UInt32.toNat_ofNat', UInt32.toNat_ofNat', show (1 : UInt32).toNat = 1 from rfl]
  omega

theorem boundary_mem {i : Nat} (hi : i < n) (h : i ≠ n - 1 ∧ (head + UInt32.ofNat i + 1).toNat % 512 = 0) :
    head.toNat + i + 1 ∈ positions head n := by
  have hmod := h.2
  rw [offset_eq, UInt32.toNat_ofNat'] at hmod
  exact mem_positions.mpr (.inr ⟨by omega, by omega, by omega⟩)

theorem head_eq : head = UInt32.ofNat head.toNat := (UInt32.ofNat_toNat).symm

theorem freadLoop_positions {v v' : Vol} {inode : INode}
    (h : ∀ p ∈ positions head n, ∀ buf, (getDataBlock v' buf inode (UInt32.ofNat p)).2 =
      (getDataBlock v buf inode (UInt32.ofNat p)).2) {m i : Nat} (hmi : m + i = n) (buf : Block) :
    freadLoop v' inode head n m i buf = freadLoop v inode head n m i buf := by
  induction m generalizing i buf with
  | zero => rfl
  | succ m ih =>
    unfold freadLoop
    split
    · next hb =>
      have hmem := boundary_mem (by omega) hb
      rw [offset_eq, h _ hmem, ih (by omega)]
    · rw [ih (by omega)]

structure DataOnly (v₁ : Vol) (ic : ICommon) (N : Nat) (v : Vol) : Prop where
  fs : v.fs = v₁.fs
  num : v.num = v₁.num
  disk : ∀ x, (∀ j < N, x ≠ placeAddr v₁.disk ic (.data j)) → v.disk x = v₁.disk x

section

variable {v₁ v : Vol} {inode : INode} {N : Nat} {l : List UInt32}

theorem DataOnly.write (h : DataOnly v₁ inode.iIc N v) {j : Nat} (hj : j < N) (buf : Block) :
    DataOnly v₁ inode.iIc N (diskWr v (placeAddr v₁.disk inode.iIc (.data j)) buf 512) where
  fs := by rw [diskWr_fs, h.fs]
  num := by rw [diskWr_num, h.num]
  disk := fun x hx => by rw [diskWr_disk_ne _ _ _ (hx j hj), h.disk x hx]

theorem DataOnly.addr (hw : WellMapped v₁.disk inode.iIc N l) (h : DataOnly v₁ inode.iIc N v) {p : Place}
    (hp : Place.In N p) : placeAddr v.disk inode.iIc p = placeAddr v₁.disk inode.iIc p := by
  have hkeep : ∀ q, Place.In N q → (∀ j, q ≠ .data j) →
      v.disk (placeAddr v₁.disk inode.iIc q) = v₁.disk (placeAddr v₁.disk inode.iIc q) :=
    fun q hq hne => h.disk _ fun j hj he => hne j (hw.inj q (.data j) hq hj he)
  have hdouble : 139 < N → v.disk (inode.iIc.ib 1) = v₁.disk (inode.iIc.ib 1) := fun hn =>
    hkeep .double hn fun j => by simp
  cases p with
  | data i =>
    have hi : i < N := hp
    simp only [placeAddr]
    split
    · rfl
    · split
      · rw [show v.disk (inode.iIc.ib 0) = v₁.disk (inode.iIc.ib 0) from
          hkeep .single (show 11 < N by omega) fun j => by simp]
      · have hin : 139 + 128 * ((i - 139) / 128) < N := by omega
        have hnode := hkeep (.node ((i - 139) / 128)) hin fun j => by simp
        simp only [placeAddr] at hnode
        rw [hdouble (by omega), hnode]
  | single => rfl
  | double => rfl
  | node m =>
    have hm : 139 + 128 * m < N := hp
    simp only [placeAddr]
    rw [hdouble (by omega)]

theorem DataOnly.reads (hw : WellMapped v₁.disk inode.iIc N l) (hf : Formatted v₁) (h : DataOnly v₁ inode.iIc N v)
    {byte : UInt32} (hb : byte.toNat / 512 < N) :
    getDataBlockAddr v inode byte = placeAddr v₁.disk inode.iIc (.data (byte.toNat / 512)) := by
  have hf' : Formatted v := hf.of_header h.num fun _ _ => by rw [h.fs]
  have hw' : WellMapped v.disk inode.iIc N l := by
    refine ⟨fun p hp => ?_, fun p hp => ?_, fun p q hp hq he => ?_⟩
    · rw [h.addr hw hp]
      exact hw.area p hp
    · rw [h.addr hw hp]
      exact hw.used p hp
    · rw [h.addr hw hp, h.addr hw hq] at he
      exact hw.inj p q hp hq he
  rw [hw'.reads hf' hb, h.addr hw (show Place.In N (.data (byte.toNat / 512)) from hb)]

theorem toNat_position (hw : WellMapped v₁.disk inode.iIc N l) {p : Nat} (hp : p / 512 < N) :
    (UInt32.ofNat p).toNat = p := by
  have hle := hw.le
  rw [UInt32.toNat_ofNat', Nat.mod_eq_of_lt (by omega)]

theorem answered_position (hw : WellMapped v₁.disk inode.iIc N l) (hf : Formatted v₁) {p : Nat} (hp : p / 512 < N) :
    answered (getDataBlockAddr v₁ inode (UInt32.ofNat p)) = true := by
  have hb : (UInt32.ofNat p).toNat / 512 < N := by
    rw [toNat_position hw hp]
    exact hp
  rw [hw.reads hf hb]
  have hlt := (hw.area (.data _) hb).2
  exact decide_eq_true (by omega)

theorem fwriteLoop_positions (hw : WellMapped v₁.disk inode.iIc N l) (hf : Formatted v₁) (data : Nat → UInt8)
    (hN : ∀ p ∈ positions head n, p / 512 < N) {x : UInt32}
    (hx : ∀ p ∈ positions head n, getDataBlockAddr v₁ inode (UInt32.ofNat p) ≠ x) {m i : Nat} (hmi : m + i = n)
    (hv : DataOnly v₁ inode.iIc N v) (hsame : v.disk x = v₁.disk x) {j : Nat} (hj : j < N)
    (haddr : placeAddr v₁.disk inode.iIc (.data j) ≠ x) (buf : Block) :
    (fwriteLoop inode head data n m i v (placeAddr v₁.disk inode.iIc (.data j)) buf).1.disk x = v₁.disk x ∧
      (fwriteLoop inode head data n m i v (placeAddr v₁.disk inode.iIc (.data j)) buf).2.1 ≠ x := by
  induction m generalizing i v j buf with
  | zero => exact ⟨hsame, haddr⟩
  | succ m ih =>
    unfold fwriteLoop
    dsimp only
    split
    · next hb =>
      -- the block is stored, and the next position is one of the file's
      have hmem := boundary_mem (by omega) hb
      have hlt := hN _ hmem
      have hnext : (UInt32.ofNat (head.toNat + i + 1)).toNat / 512 < N := by rwa [toNat_position hw hlt]
      have hne := hx _ hmem
      rw [hw.reads hf hnext] at hne
      set buf' := setByte buf ((head + UInt32.ofNat i).toNat % 512) (data i) with hbuf
      have hv' := hv.write hj buf'
      have hsame' : (diskWr v (placeAddr v₁.disk inode.iIc (.data j)) buf' 512).disk x = v₁.disk x := by
        rw [diskWr_disk_ne _ _ _ haddr.symm, hsame]
      rw [offset_eq]
      simp only [getDataBlock, hv'.reads hw hf hnext]
      exact ih (by omega) hv' hsame' hnext hne _
    · exact ih (by omega) hv hsame hj haddr _

theorem fwriteBytes_positions (hw : WellMapped v₁.disk inode.iIc N l) (hf : Formatted v₁) (data : Nat → UInt8)
    {count : UInt32} (hcount : intCount count = n) (hN : ∀ p ∈ positions head n, p / 512 < N) {x : UInt32}
    (hx : ∀ p ∈ positions head n, getDataBlockAddr v₁ inode (UInt32.ofNat p) ≠ x) :
    (fwriteBytes v₁ inode head data count).disk x = v₁.disk x := by
  have hmem : head.toNat ∈ positions head n := mem_positions.mpr (.inl rfl)
  have hlt := hN _ hmem
  have hfirst := hx _ hmem
  rw [← head_eq, hw.reads hf hlt] at hfirst
  have hloop := fwriteLoop_positions hw hf data hN hx (show n + 0 = n by omega) ⟨rfl, rfl, fun _ _ => rfl⟩ rfl
    hlt hfirst (diskRd v₁ (placeAddr v₁.disk inode.iIc (.data (head.toNat / 512))) v₁.stkBlk)
  unfold fwriteBytes
  simp only [getDataBlock, hw.reads hf hlt, hcount]
  exact (diskWr_disk_ne _ _ _ hloop.2.symm).trans hloop.1

end

end

/-- A read that succeeds stays inside the file and depends on the blocks at its
positions alone, which are on the disk, so that it returns; one that does not
succeed changes nothing. -/
structure ReadInside (k : Kernel) (fd : Int) (o s : Fin 128) (n : UInt32) (r : Int × List UInt8 × Kernel) : Prop where
  inside : r.1 = 0 → (k.of o).oHead.toNat + n.toNat ≤ (k.ai s).iIc.icSize.toNat ∧
    ∀ p ∈ positions (k.of o).oHead n.toNat, p / 512 ≤ (k.ai s).iIc.icSize.toNat / 512
  returns : r.1 = 0 → ∀ p ∈ positions (k.of o).oHead n.toNat,
    answered (getDataBlockAddr k.vol (k.ai s) (UInt32.ofNat p)) = true
  blocks : ∀ v, v.stkBlk = k.vol.stkBlk → (∀ p ∈ positions (k.of o).oHead n.toNat, ∀ buf,
    (getDataBlock v buf (k.ai s) (UInt32.ofNat p)).2 = (getDataBlock k.vol buf (k.ai s) (UInt32.ofNat p)).2) →
      (fread { k with vol := v } fd n).2.1 = r.2.1
  refused : r.1 ≠ 0 → r.1 = -1 ∧ r.2.2 = k

/-- A write stays inside the file as it is then, and once the file has grown
writes to the blocks at its positions alone; or it changes nothing. -/
structure WriteInside (k : Kernel) (o s : Fin 128) (n : UInt32) (r : Int × Kernel) : Prop where
  inside : r.1 = 0 → ∀ p ∈ positions (k.of o).oHead n.toNat, p / 512 ≤ (r.2.ai s).iIc.icSize.toNat / 512
  returns : r.1 = 0 → ∀ p ∈ positions (k.of o).oHead n.toNat,
    answered (getDataBlockAddr (growFor k.vol (k.ai s) (k.of o).oHead n).2.2 (r.2.ai s) (UInt32.ofNat p)) = true
  blocks : r.1 = 0 → ∀ x, (∀ p ∈ positions (k.of o).oHead n.toNat,
    getDataBlockAddr (growFor k.vol (k.ai s) (k.of o).oHead n).2.2 (r.2.ai s) (UInt32.ofNat p) ≠ x) →
      r.2.vol.disk x = (growFor k.vol (k.ai s) (k.of o).oHead n).2.2.disk x
  refused : r.1 ≠ 0 → r.1 = -1 ∧ r.2 = k

/-- The transfer does not wrap, and ends where the file has its blocks or, within
the direct and single indirect ranges, where they can be had. -/
def CanWrite (l : List UInt32) (size head n : Nat) : Prop :=
  head + n < 2^32 ∧ ((head + n) / 512 ≤ size / 512 ∨
    head + n < 139 * 512 ∧ ((head + (n - 1)) / 512 ≤ size / 512 ∨ blocksToGrow size (head + n) ≤ l.length))

def GrowsPast (size head n : Nat) : Prop :=
  head + n < 2^32 ∧ size / 512 < (head + n) / 512 ∧ 139 * 512 ≤ head + n

section

variable {v : Vol} {inode : INode} {head n : UInt32}

theorem growFor_size : (growFor v inode head n).2.1.iIc.icSize.toNat =
    if inode.iIc.icSize.toNat < (head + n).toNat ∧
      (allocateLoop ((head + n).toNat / 512 - inode.iIc.icSize.toNat / 512) (inode.iIc.icSize.toNat / 512 + 1) v
        inode).1 = true
    then (head + n).toNat else inode.iIc.icSize.toNat := by
  unfold growFor
  by_cases hlt : inode.iIc.icSize < head + n
  · have hsum : inode.iIc.icSize + (head + n - inode.iIc.icSize) = head + n := by
      rw [UInt32.add_comm, UInt32.sub_add_cancel]
    have hkept := (allocateLoop_remapped ((head + n).toNat / 512 - inode.iIc.icSize.toNat / 512)
      (inode.iIc.icSize.toNat / 512 + 1) v inode).2
    unfold allocateDataBlocks
    rw [if_pos hlt, hsum]
    dsimp only
    split
    · next he =>
      rw [he] at hkept ⊢
      rw [if_neg (by simp)]
      exact congrArg UInt32.toNat hkept
    · next he =>
      rw [he] at hkept ⊢
      rw [if_pos ⟨UInt32.lt_iff_toNat_lt.mp hlt, rfl⟩]
      dsimp only at hkept ⊢
      rw [hkept, hsum]
  · rw [if_neg hlt, if_neg fun h => hlt (UInt32.lt_iff_toNat_lt.mpr h.1)]

theorem wrapped_unanswered (hn : n.toNat < 2^31) (hwrap : 2^32 ≤ head.toNat + n.toNat) :
    answered (getDataBlockAddr v inode head) = false := by
  unfold getDataBlockAddr
  dsimp only
  rw [if_neg (by omega), if_neg (by omega), if_neg (by omega), if_neg (by omega)]
  decide

theorem fread_positions {k : Kernel} {fd : Int} {i : Fin 16} {o s : Fin 128} (hfd : fdEntry k fd = some (i, o))
    (hs : inptr k o = some s) (hn : n.toNat < 2^31) {v : Vol} (hstk : v.stkBlk = k.vol.stkBlk)
    (h : ∀ p ∈ positions (k.of o).oHead n.toNat, ∀ buf, (getDataBlock v buf (k.ai s) (UInt32.ofNat p)).2 =
      (getDataBlock k.vol buf (k.ai s) (UInt32.ofNat p)).2) :
    (fread { k with vol := v } fd n).2.1 = (fread k fd n).2.1 := by
  have hs' : (k.of o).oInptr = some s := hs
  have hfd' : fdEntry { k with vol := v } fd = some (i, o) := hfd
  have hcount : intCount n = n.toNat := if_pos hn
  have hfirst := h (k.of o).oHead.toNat (mem_positions.mpr (.inl rfl)) k.vol.stkBlk
  rw [← head_eq] at hfirst
  simp only [fread, hfd, hfd', hs', hcount, hstk]
  split
  · rfl
  · rw [hfirst]
    exact freadLoop_positions h (by omega) _

end

section

variable {k : Kernel} {l : List UInt32} {s : Fin 128} {head n : UInt32}

theorem Separate.allocateLoop_iff (hsep : Separate k l) (hreg : (k.ai s).iIc.icMode = Mode.ifreg.code) {size : Nat}
    (hsize : size < 139 * 512) (hgrow : (k.ai s).iIc.icSize.toNat / 512 < size / 512) :
    (allocateLoop (size / 512 - (k.ai s).iIc.icSize.toNat / 512) ((k.ai s).iIc.icSize.toNat / 512 + 1) k.vol
      (k.ai s)).1 = true ↔ blocksToGrow (k.ai s).iIc.icSize.toNat size ≤ l.length := by
  have hact : Active k s := by
    rw [Active, hreg]
    decide
  have hcount := blockCount_regular hreg
  have h139 : blockCount (k.ai s).iIc ≤ 139 := by omega
  have hw := hsep.mapped _ _ (.inl ⟨s, hact, rfl, rfl⟩)
  have hm := hw.maps (k.ai s).iNumber h139
  rw [hcount] at hm h139 hw
  rcases allocateLoop_grew (size / 512 - (k.ai s).iIc.icSize.toNat / 512) (hsep.number s hact)
    (hw.accounted h139 hsep.formatted hsep.free) hm (by omega) with ⟨hl, hret, -⟩ | ⟨_, _, _, _, he, hl, -⟩
  · rw [hret, blocksToGrow]
    exact ⟨fun h => absurd h (by decide), fun h => by omega⟩
  · rw [he, blocksToGrow]
    exact ⟨fun _ => by omega, fun _ => rfl⟩

theorem Separate.growFor_mapped (hsep : Separate k l) (hreg : (k.ai s).iIc.icMode = Mode.ifreg.code)
    (h : CanWrite l (k.ai s).iIc.icSize.toNat head.toNat n.toNat) : ∃ N l',
      WellMapped (growFor k.vol (k.ai s) head n).2.2.disk (growFor k.vol (k.ai s) head n).2.1.iIc N l' ∧
      Formatted (growFor k.vol (k.ai s) head n).2.2 ∧ (head.toNat + (n.toNat - 1)) / 512 < N ∧
      N ≤ (growFor k.vol (k.ai s) head n).2.1.iIc.icSize.toNat / 512 + 1 := by
  have hact : Active k s := by
    rw [Active, hreg]
    decide
  have hino := hsep.number s hact
  have hw := hsep.mapped _ _ (.inl ⟨s, hact, rfl, rfl⟩)
  rw [blockCount_regular hreg] at hw
  have hle := hw.le
  obtain ⟨hsum, hcase⟩ := h
  have hadd : (head + n).toNat = head.toNat + n.toNat := by rw [UInt32.toNat_add, Nat.mod_eq_of_lt hsum]
  by_cases hlt : (k.ai s).iIc.icSize < head + n
  · have hlt' := UInt32.lt_iff_toNat_lt.mp hlt
    have hdiff : (k.ai s).iIc.icSize + (head + n - (k.ai s).iIc.icSize) = head + n := by
      rw [UInt32.add_comm, UInt32.sub_add_cancel]
    by_cases hsame : (head.toNat + n.toNat) / 512 = (k.ai s).iIc.icSize.toNat / 512
    · -- the block of the last byte is the one with the end of the file
      have hloop : allocateLoop ((head + n).toNat / 512 - (k.ai s).iIc.icSize.toNat / 512)
          ((k.ai s).iIc.icSize.toNat / 512 + 1) k.vol (k.ai s) = (true, k.ai s, k.vol) := by
        rw [hadd, hsame, Nat.sub_self]
        rfl
      rw [growFor, if_pos hlt, allocateDataBlocks]
      dsimp only
      rw [hdiff, hloop]
      refine ⟨_, l, ⟨hw.area, hw.used, hw.inj⟩, hsep.formatted, by omega, ?_⟩
      dsimp only
      rw [hdiff, hadd]
      omega
    · obtain ⟨h139, hblocks⟩ := hcase.resolve_left (by omega)
      have hac : Accounted (fileOwners k.vol.disk (k.ai s).iNumber (k.ai s).iIc ((k.ai s).iIc.icSize.toNat / 512 + 1))
          k.vol l := hw.accounted (by omega) hsep.formatted hsep.free
      have hm := hw.maps (k.ai s).iNumber (by omega)
      by_cases hroom : blocksToGrow (k.ai s).iIc.icSize.toNat (head.toNat + n.toNat) ≤ l.length
      · rcases growFor_grew hino hac hm (show max _ (head + n).toNat < _ by omega) with
          ⟨hfew, -⟩ | ⟨own', l', inode', v', size, he, hsize, -, hg⟩
        · rw [hadd, Nat.max_eq_right (by omega)] at hfew
          omega
        · rw [he]
          rw [hadd] at hsize
          have hmaps := hg.maps.resize inode'.iIc.icMode size
          exact ⟨_, l', hmaps.wellMapped hg.acct, hg.acct.formatted, by omega, Nat.le_refl _⟩
      · -- the one block after the end cannot be had, and is not needed
        have hlast := hblocks.resolve_right hroom
        have hone : (head + n).toNat / 512 - (k.ai s).iIc.icSize.toNat / 512 = 1 := by omega
        rw [blocksToGrow, ← hadd, hone] at hroom
        obtain ⟨v', he, hshort⟩ := allocate_short (k.ai s) hac
          (toNat_ofNat_mul (i := (k.ai s).iIc.icSize.toNat / 512 + 1) (by omega))
          (by simpa [blocksForRange] using hroom)
        have hloop : allocateLoop ((head + n).toNat / 512 - (k.ai s).iIc.icSize.toNat / 512)
            ((k.ai s).iIc.icSize.toNat / 512 + 1) k.vol (k.ai s) = (false, k.ai s, v') := by
          rw [hone]
          unfold allocateLoop
          rw [he]
          simp
        rw [growFor, if_pos hlt, allocateDataBlocks]
        dsimp only
        rw [hdiff, hloop]
        exact ⟨_, l, hw.frame (fun p hp => hshort.disk _ (hw.area p hp).ne_one) fun _ h => h, hshort.formatted,
          by omega, Nat.le_refl _⟩
  · -- no growth
    have hin := Nat.le_of_not_lt (fun h => hlt (UInt32.lt_iff_toNat_lt.mpr h))
    rw [growFor, if_neg hlt]
    exact ⟨_, l, hw, hsep.formatted, by omega, Nat.le_refl _⟩

end

theorem Separate.regular_le {k : Kernel} {l : List UInt32} {s : Fin 128} (hsep : Separate k l)
    (hreg : (k.ai s).iIc.icMode = Mode.ifreg.code) : (k.ai s).iIc.icSize.toNat / 512 + 1 ≤ 1982 := by
  have hlive : Active k s := by
    rw [Active, hreg]
    decide
  have hle := (hsep.mapped _ _ (.inl ⟨s, hlive, rfl, rfl⟩)).le
  rwa [blockCount_regular hreg] at hle

theorem fread_inside_iff {k : Kernel} {l : List UInt32} {fd : Int} {i : Fin 16} {o s : Fin 128} {n : UInt32}
    (hsep : Separate k l) (hfd : fdEntry k fd = some (i, o)) (hs : inptr k o = some s)
    (hreg : (k.ai s).iIc.icMode = Mode.ifreg.code) (hn : n.toNat < 2^31) :
    ReadInside k fd o s n (fread k fd n) ↔ ¬(2^32 ≤ (k.of o).oHead.toNat + n.toNat ∧
      (k.of o).oHead.toNat + n.toNat - 2^32 ≤ (k.ai s).iIc.icSize.toNat) := by
  have hact : Active k s := by
    rw [Active, hreg]
    decide
  have hw := hsep.mapped _ _ (.inl ⟨s, hact, rfl, rfl⟩)
  rw [blockCount_regular hreg] at hw
  -- the file is no larger than the disk
  have hle := hw.le
  have hhead := (k.of o).oHead.toNat_lt
  have hlt : (k.ai s).iIc.icSize < (k.of o).oHead + n ↔
      (k.ai s).iIc.icSize.toNat < ((k.of o).oHead.toNat + n.toNat) % 2^32 := by
    rw [UInt32.lt_iff_toNat_lt, UInt32.toNat_add]
  have hs' : (k.of o).oInptr = some s := hs
  have hread : ((k.ai s).iIc.icSize < (k.of o).oHead + n ∧ fread k fd n = (-1, [], k)) ∨
      (¬(k.ai s).iIc.icSize < (k.of o).oHead + n ∧ (fread k fd n).1 = 0) := by
    simp only [fread, hfd, hs']
    split
    · next h => exact .inl ⟨h, rfl⟩
    · next h => exact .inr ⟨h, rfl⟩
  have hblocks : ∀ v, v.stkBlk = k.vol.stkBlk → (∀ p ∈ positions (k.of o).oHead n.toNat, ∀ buf,
      (getDataBlock v buf (k.ai s) (UInt32.ofNat p)).2 = (getDataBlock k.vol buf (k.ai s) (UInt32.ofNat p)).2) →
      (fread { k with vol := v } fd n).2.1 = (fread k fd n).2.1 := fun v hstk h => fread_positions hfd hs hn hstk h
  rcases hread with ⟨hout, he⟩ | ⟨hin, he⟩
  · rw [he]
    have hfail : (-1 : Int) ≠ 0 := by decide
    refine ⟨fun _ hwrap => ?_, fun _ => ⟨fun hzero => absurd hzero hfail, fun hzero => absurd hzero hfail, ?_,
      fun _ => ⟨rfl, rfl⟩⟩⟩
    · rw [hlt] at hout
      omega
    · rw [← he]
      exact hblocks
  · rw [hlt] at hin
    constructor
    · intro h hwrap
      have := (h.inside he).1
      omega
    · intro hwrap
      have hwithin : ∀ p ∈ positions (k.of o).oHead n.toNat, p / 512 ≤ (k.ai s).iIc.icSize.toNat / 512 :=
        (positions_within _).mpr (by omega)
      exact ⟨fun _ => ⟨by omega, hwithin⟩,
        fun _ p hp => answered_position hw hsep.formatted (Nat.lt_succ_of_le (hwithin p hp)), hblocks,
        fun hne => absurd he hne⟩

/-- **File access stays inside the file if and only if** the end of the transfer
does not wrap around and, for a write, the blocks it needs are there or can be
had. (A head that does wrap is looked up at address -1, and the call does not
return.) A growth into the double indirect range is left open. -/
theorem file_access_inside_iff {k : Kernel} {l : List UInt32} {fd : Int} {i : Fin 16} {o s : Fin 128}
    (hsep : Separate k l) (hfd : fdEntry k fd = some (i, o)) (hs : inptr k o = some s)
    (hreg : (k.ai s).iIc.icMode = Mode.ifreg.code) (data : Nat → UInt8) {n : UInt32} (hn : n.toNat < 2^31) :
    (ReadInside k fd o s n (fread k fd n) ↔ ¬(2^32 ≤ (k.of o).oHead.toNat + n.toNat ∧
      (k.of o).oHead.toNat + n.toNat - 2^32 ≤ (k.ai s).iIc.icSize.toNat)) ∧
    (CanWrite l (k.ai s).iIc.icSize.toNat (k.of o).oHead.toNat n.toNat →
      WriteInside k o s n (fwrite k fd data n)) ∧
    (WriteInside k o s n (fwrite k fd data n) →
      CanWrite l (k.ai s).iIc.icSize.toNat (k.of o).oHead.toNat n.toNat ∨
        GrowsPast (k.ai s).iIc.icSize.toNat (k.of o).oHead.toNat n.toNat) ∧
    (2^32 ≤ (k.of o).oHead.toNat + n.toNat →
      ∀ v inode, answered (getDataBlockAddr v inode (k.of o).oHead) = false) := by
  have hr : (fwrite k fd data n).1 = 0 := by rw [fwrite_eq data n hfd hs]
  have hinode : (fwrite k fd data n).2.ai s = (growFor k.vol (k.ai s) (k.of o).oHead n).2.1 := by
    rw [fwrite_eq data n hfd hs]
    simp only [Function.update_self]
  refine ⟨fread_inside_iff hsep hfd hs hreg hn, fun hcan => ?_, fun h => ?_, fun hwrap _ _ =>
    wrapped_unanswered hn hwrap⟩
  · obtain ⟨N, l', hw, hf, hlast, hsize⟩ := hsep.growFor_mapped hreg hcan
    have hwithin : ∀ p ∈ positions (k.of o).oHead n.toNat, p / 512 < N := fun p hp =>
      Nat.lt_of_le_of_lt ((positions_within _).mpr (Nat.le_refl _) p hp) hlast
    refine ⟨fun _ p hp => ?_, fun _ p hp => ?_, fun _ x hx => ?_, fun hne => absurd hr hne⟩
    · rw [hinode]
      have := hwithin p hp
      omega
    · rw [hinode]
      exact answered_position hw hf (hwithin p hp)
    · rw [hinode] at hx
      rw [fwrite_eq data n hfd hs]
      exact fwriteBytes_positions hw hf data (if_pos hn) hwithin hx
  · have hlast := (positions_within _).mp (h.inside hr)
    rw [hinode, growFor_size, UInt32.toNat_add] at hlast
    have hle := hsep.regular_le hreg
    have hhead := (k.of o).oHead.toNat_lt
    by_cases hwrap : (k.of o).oHead.toNat + n.toNat < 2^32
    · rw [Nat.mod_eq_of_lt hwrap] at hlast
      by_cases hsame : ((k.of o).oHead.toNat + n.toNat) / 512 ≤ (k.ai s).iIc.icSize.toNat / 512
      · exact .inl ⟨hwrap, .inl hsame⟩
      by_cases h139 : (k.of o).oHead.toNat + n.toNat < 139 * 512
      · refine .inl ⟨hwrap, .inr ⟨h139, ?_⟩⟩
        by_cases hroom : blocksToGrow (k.ai s).iIc.icSize.toNat ((k.of o).oHead.toNat + n.toNat) ≤ l.length
        · exact .inr hroom
        · rw [if_neg fun hb => hroom ((hsep.allocateLoop_iff hreg h139 (by omega)).mp hb.2)] at hlast
          exact .inl hlast
      · exact .inr ⟨hwrap, by omega, by omega⟩
    · -- after the wrap the file is as short as before, or shorter than `n`
      split at hlast
      · omega
      · omega

/-- Six hundred bytes at the end of a file of a hundred, with no block free: the
second block they need is not the file's. -/
theorem fwrite_overruns : ∃ l, Separate (oneFileKernel (freeRange fullVol 0)) l ∧
    fdEntry (oneFileKernel (freeRange fullVol 0)) 0 = some (0, 0) ∧
    inptr (oneFileKernel (freeRange fullVol 0)) 0 = some 0 ∧
    ((oneFileKernel (freeRange fullVol 0)).ai 0).iIc.icMode = Mode.ifreg.code ∧
    ¬WriteInside (oneFileKernel (freeRange fullVol 0)) 0 0 600
      (fwrite (oneFileKernel (freeRange fullVol 0)) 0 (fun _ => 7) 600) := by
  have hsep := oneFile_separate (by omega) (blank_freeRange (n := 0) (by omega))
  refine ⟨rangeStack 0, hsep, rfl, rfl, rfl, fun h => ?_⟩
  have hlast := h.inside rfl 512 (mem_positions.mpr (.inr ⟨by decide, by decide, by decide⟩))
  -- the file has not grown
  have hno := (hsep.allocateLoop_iff (s := 0) rfl (show 700 < 139 * 512 by decide) (by decide)).not.mpr (by decide)
  rw [fwrite_eq (fun _ => 7) 600 (show fdEntry (oneFileKernel (freeRange fullVol 0)) 0 = some (0, 0) from rfl) rfl] at hlast
  simp only [Function.update_self] at hlast
  rw [growFor_size, if_neg fun hb => hno hb.2] at hlast
  exact absurd hlast (by decide)

/-- With three blocks free, they stay inside the file that has grown. -/
theorem file_access_inside_one : WriteInside (oneFileKernel (freeRange fullVol 3)) 0 0 600
    (fwrite (oneFileKernel (freeRange fullVol 3)) 0 (fun _ => 7) 600) := by
  have h := file_access_inside_iff (oneFile_separate (by omega) (blank_freeRange (n := 3) (by omega)))
    (show fdEntry (oneFileKernel (freeRange fullVol 3)) 0 = some (0, 0) from rfl) rfl rfl (fun _ => 7)
    (show (600 : UInt32).toNat < 2^31 by decide)
  exact h.2.1 ⟨by decide, .inr ⟨by decide, .inr (by decide)⟩⟩

end ArmKernel.Core
