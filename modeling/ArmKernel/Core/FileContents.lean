import ArmKernel.Core.Tables
import ArmKernel.Fs.Contents

/-! Open files as byte arrays. `fwrite` edits one block buffer at a time and
stores it when the next byte lies over the block boundary, so at byte `i` the
file is what it was with the first `i` bytes replaced, the current block being
in the buffer and the others on disk. -/
namespace ArmKernel.Core

open Lib Lib.Bytes Lib.Run Fs SuperBlock

theorem toNat_add_ofNat {x : UInt32} {i : Nat} (h : x.toNat + i < 2^32) :
    (x + UInt32.ofNat i).toNat = x.toNat + i := by
  rw [UInt32.toNat_add, UInt32.toNat_ofNat', Nat.mod_eq_of_lt (show i < 2^32 by omega),
    Nat.mod_eq_of_lt h]

theorem toNat_add_ofNat_succ {x : UInt32} {i : Nat} (h : x.toNat + i + 1 < 2^32) :
    (x + UInt32.ofNat i + 1).toNat = x.toNat + i + 1 := by
  rw [UInt32.toNat_add, toNat_add_ofNat (by omega), UInt32.toNat_one, Nat.mod_eq_of_lt h]

/-! The loop of `fwrite`. -/

section

variable {own : Owners} {v₀ : Vol} {l : List UInt32} {inode : INode} {N : Nat} {head : UInt32}
  {data : Nat → UInt8} {n : Nat}

def writtenByte (v₀ : Vol) (inode : INode) (head : UInt32) (data : Nat → UInt8) (i p : Nat) :
    UInt8 :=
  if head.toNat ≤ p ∧ p < head.toNat + i then data (p - head.toNat)
  else byte (v₀.disk (mapAddr v₀.disk inode.iIc (p / 512))) (p % 512)

def bufferBlock (head : UInt32) (n i : Nat) : Nat := (head.toNat + min i (n - 1)) / 512

/-- Outside the file's first `N` blocks nothing was written. -/
structure Beside (v₀ : Vol) (inode : INode) (N : Nat) (v : Vol) : Prop where
  fs : v.fs = v₀.fs
  num : v.num = v₀.num
  disk : ∀ x, (∀ j < N, x ≠ mapAddr v₀.disk inode.iIc j) → v.disk x = v₀.disk x

structure Writing (v₀ : Vol) (inode : INode) (N : Nat) (head : UInt32) (data : Nat → UInt8)
    (n i : Nat) (v : Vol) (addr : UInt32) (buf : Block) : Prop where
  beside : Beside v₀ inode N v
  addr : addr = mapAddr v₀.disk inode.iIc (bufferBlock head n i)
  buf : ∀ q < 512, byte buf q = writtenByte v₀ inode head data i (512 * bufferBlock head n i + q)
  rest : ∀ j < N, j ≠ bufferBlock head n i → ∀ q < 512,
    byte (v.disk (mapAddr v₀.disk inode.iIc j)) q = writtenByte v₀ inode head data i (512 * j + q)

theorem Beside.reads {v : Vol} (byte : UInt32) (hb : Beside v₀ inode N v) (ha : Accounted own v₀ l)
    (hm : Maps own v₀.disk inode.iNumber inode.iIc N) (hi : byte.toNat / 512 < N) :
    getDataBlockAddr v inode byte = mapAddr v₀.disk inode.iIc (byte.toNat / 512) := by
  have hs := hm.small
  have hf : Formatted v := ha.formatted.of_header hb.num fun _ _ => by rw [hb.fs]
  rw [getDataBlockAddr_eq hf (by omega) fun h11 => (ha.owned _ _ (hm.index (by omega))).1]
  refine mapAddr_congr fun h11 => hb.disk _ fun j hj he => ?_
  have hx := hm.index (show 11 < N by omega)
  rw [he, hm.data j hj] at hx
  simp at hx

theorem Beside.lt_num {v : Vol} (hb : Beside v₀ inode N v) (ha : Accounted own v₀ l)
    (hm : Maps own v₀.disk inode.iNumber inode.iIc N) {j : Nat} (hj : j < N) :
    (mapAddr v₀.disk inode.iIc j).toNat < v.num := by
  rw [hb.num]
  exact (hm.addr_dataBlock ha hj).lt_num ha.formatted

theorem Beside.put {v : Vol} (hb : Beside v₀ inode N v) {j : Nat} (hj : j < N) (x : Block) :
    Beside v₀ inode N (v.put (mapAddr v₀.disk inode.iIc j) x) where
  fs := hb.fs
  num := hb.num
  disk := fun y hy => by rw [put_disk_ne v x (hy j hj), hb.disk y hy]

theorem mapAddr_ne (hm : Maps own v₀.disk inode.iNumber inode.iIc N) {i j : Nat} (hi : i < N)
    (hj : j < N) (h : i ≠ j) : mapAddr v₀.disk inode.iIc i ≠ mapAddr v₀.disk inode.iIc j := by
  intro he
  have hx := hm.data i hi
  rw [he, hm.data j hj] at hx
  simp at hx
  exact h hx.symm

theorem writtenByte_succ {i p : Nat} (h : p ≠ head.toNat + i) :
    writtenByte v₀ inode head data (i+1) p = writtenByte v₀ inode head data i p := by
  unfold writtenByte
  by_cases hp : head.toNat ≤ p ∧ p < head.toNat + i
  · rw [if_pos hp, if_pos (by omega)]
  · rw [if_neg hp, if_neg (by omega)]

theorem Writing.setByte {i : Nat} {v : Vol} {addr : UInt32} {buf : Block}
    (h : Writing v₀ inode N head data n i v addr buf) (hi : i < n) {q : Nat} (hq : q < 512) :
    byte (setByte buf ((head.toNat + i) % 512) (data i)) q =
      writtenByte v₀ inode head data (i+1) (512 * ((head.toNat + i) / 512) + q) := by
  have hb : bufferBlock head n i = (head.toNat + i) / 512 := by
    unfold bufferBlock
    rw [Nat.min_eq_left (by omega)]
  have hbuf := h.buf q hq
  rw [hb] at hbuf
  by_cases hqi : q = (head.toNat + i) % 512
  · subst hqi
    rw [byte_setByte_self _ _ hq, Nat.div_add_mod, writtenByte, if_pos (by omega)]
    congr 1
    omega
  · rw [byte_setByte_ne _ _ hqi, hbuf, writtenByte_succ (by omega)]

theorem fwriteLoop_writing (ha : Accounted own v₀ l)
    (hm : Maps own v₀.disk inode.iNumber inode.iIc N) (hN : head.toNat + n ≤ 512 * N) {m i : Nat}
    {v : Vol} {addr : UInt32} {buf : Block} (hmi : m + i = n)
    (h : Writing v₀ inode N head data n i v addr buf) :
    Writing v₀ inode N head data n n (fwriteLoop inode head data n m i v addr buf).1
      (fwriteLoop inode head data n m i v addr buf).2.1
      (fwriteLoop inode head data n m i v addr buf).2.2 := by
  have hs := hm.small
  induction m generalizing i v addr buf with
  | zero =>
    rw [show i = n by omega] at h
    exact h
  | succ m ih =>
    have hi : i < n := by omega
    have hb : bufferBlock head n i = (head.toNat + i) / 512 := by
      unfold bufferBlock
      rw [Nat.min_eq_left (by omega)]
    have hset := fun q hq => h.setByte (q := q) hi hq
    unfold fwriteLoop
    simp only [toNat_add_ofNat (show head.toNat + i < 2^32 by omega)]
    by_cases hcross : i ≠ n - 1 ∧ (head + UInt32.ofNat i + 1).toNat % 512 = 0
    · -- the block is stored and the next one read
      rw [if_pos hcross]
      rw [toNat_add_ofNat_succ (by omega)] at hcross
      have hb' : bufferBlock head n (i+1) = (head.toNat + i) / 512 + 1 := by
        unfold bufferBlock
        rw [Nat.min_eq_left (by omega)]
        omega
      have hlt : (head.toNat + i) / 512 + 1 < N := by omega
      have haddr : addr = mapAddr v₀.disk inode.iIc ((head.toNat + i) / 512) := by rw [h.addr, hb]
      rw [haddr, diskWr_put _ _ (h.beside.lt_num ha hm (by omega))]
      have hbeside := h.beside.put (j := (head.toNat + i) / 512) (by omega)
        (setByte buf ((head.toNat + i) % 512) (data i))
      have hnext : (head + UInt32.ofNat i + 1).toNat / 512 = (head.toNat + i) / 512 + 1 := by
        rw [toNat_add_ofNat_succ (by omega)]
        omega
      have hread := hbeside.reads (head + UInt32.ofNat i + 1) ha hm (by omega)
      rw [hnext] at hread
      simp only [getDataBlock, hread]
      refine ih (by omega) ⟨hbeside, by rw [hb'], fun q hq => ?_, fun j hj hne q hq => ?_⟩
      · rw [diskRd_lt _ _ (hbeside.lt_num ha hm hlt), put_disk_ne _ _
          (mapAddr_ne hm hlt (by omega) (by omega)), hb', writtenByte_succ (by omega),
          ← h.rest _ hlt (by omega) q hq]
      · rw [hb'] at hne
        by_cases hj' : j = (head.toNat + i) / 512
        · subst hj'
          rw [put_disk_self, hset q hq]
        · rw [put_disk_ne _ _ (mapAddr_ne hm hj (by omega) hj'), h.rest j hj (by omega) q hq,
            writtenByte_succ (by omega)]
    · rw [if_neg hcross]
      have hb' : bufferBlock head n (i+1) = (head.toNat + i) / 512 := by
        unfold bufferBlock
        by_cases hlast : i = n - 1
        · rw [Nat.min_eq_right (by omega), hlast]
        · rw [toNat_add_ofNat_succ (by omega)] at hcross
          rw [Nat.min_eq_left (by omega)]
          omega
      refine ih (by omega) ⟨h.beside, by rw [h.addr, hb, hb'], fun q hq => ?_, fun j hj hne q hq => ?_⟩
      · rw [hb', hset q hq]
      · rw [hb'] at hne
        rw [h.rest j hj (by omega) q hq, writtenByte_succ (by omega)]

theorem fwriteBytes_spec (head : UInt32) (data : Nat → UInt8) {count : UInt32} (ha : Accounted own v₀ l)
    (hm : Maps own v₀.disk inode.iNumber inode.iIc N) (hN : head.toNat + count.toNat ≤ 512 * N)
    (hpos : 0 < count.toNat) :
    Beside v₀ inode N (fwriteBytes v₀ inode head data count) ∧
    ∀ p < 512 * N, byte ((fwriteBytes v₀ inode head data count).disk
      (mapAddr v₀.disk inode.iIc (p / 512))) (p % 512) =
        writtenByte v₀ inode head data count.toNat p := by
  have hs := hm.small
  have hcount : intCount count = count.toNat := by
    unfold intCount
    rw [if_pos (by omega)]
  have hb0 : Beside v₀ inode N v₀ := ⟨rfl, rfl, fun _ _ => rfl⟩
  have hread := hb0.reads head ha hm (by omega)
  have hstart : Writing v₀ inode N head data count.toNat 0 v₀
      (mapAddr v₀.disk inode.iIc (head.toNat / 512))
      (v₀.disk (mapAddr v₀.disk inode.iIc (head.toNat / 512))) := by
    refine ⟨hb0, by simp [bufferBlock], fun q hq => ?_, fun j hj _ q hq => ?_⟩
    · simp only [bufferBlock, Nat.zero_min, Nat.add_zero]
      rw [writtenByte, if_neg (by omega), show (512 * (head.toNat / 512) + q) / 512 =
        head.toNat / 512 by omega, show (512 * (head.toNat / 512) + q) % 512 = q by omega]
    · rw [writtenByte, if_neg (by omega), show (512 * j + q) / 512 = j by omega,
        show (512 * j + q) % 512 = q by omega]
  have hend := fwriteLoop_writing ha hm hN (m := count.toNat) (i := 0) (by omega) hstart
  unfold fwriteBytes
  simp only [getDataBlock, hread, hcount]
  rw [diskRd_lt _ _ (hb0.lt_num ha hm (by omega))]
  set r := fwriteLoop inode head data count.toNat count.toNat 0 v₀
    (mapAddr v₀.disk inode.iIc (head.toNat / 512))
    (v₀.disk (mapAddr v₀.disk inode.iIc (head.toNat / 512)))
  have hlt : bufferBlock head count.toNat count.toNat < N := by
    unfold bufferBlock
    omega
  rw [hend.addr, diskWr_put _ _ (hend.beside.lt_num ha hm hlt)]
  refine ⟨hend.beside.put hlt _, fun p hp => ?_⟩
  by_cases hj : p / 512 = bufferBlock head count.toNat count.toNat
  · rw [hj, put_disk_self, hend.buf _ (by omega), ← hj, Nat.div_add_mod]
  · rw [put_disk_ne _ _ (mapAddr_ne hm (by omega) hlt hj), hend.rest _ (by omega) hj _ (by omega),
      Nat.div_add_mod]

end

/-! The loop of `fread`. -/

theorem freadLoop_eq {v : Vol} {inode : INode} {N : Nat} {l : List UInt32} {head : UInt32} {n m i : Nat}
    {buf : Block} (hw : WellMapped v.disk inode.iIc N l) (hf : Formatted v)
    (hN : head.toNat + n ≤ 512 * N) (hmi : m + i = n)
    (hbuf : ∀ q < 512, i < n → byte buf q =
      fileByte v.disk inode.iIc (512 * ((head.toNat + i) / 512) + q)) :
    freadLoop v inode head n m i buf =
      (List.range m).map fun j => fileByte v.disk inode.iIc (head.toNat + i + j) := by
  have hle := hw.le
  induction m generalizing i buf with
  | zero => rfl
  | succ m ih =>
    unfold freadLoop
    rw [List.range_succ_eq_map, List.map_cons, List.map_map]
    congr 1
    · rw [toNat_add_ofNat (by omega), hbuf _ (by omega) (by omega), Nat.div_add_mod, Nat.add_zero]
    · have hfun : ((fun j => fileByte v.disk inode.iIc (head.toNat + i + j)) ∘ Nat.succ) =
          fun j => fileByte v.disk inode.iIc (head.toNat + (i + 1) + j) := by
        funext j
        simp only [Function.comp]
        congr 1
        omega
      rw [hfun]
      split
      · next hcross =>
        rw [toNat_add_ofNat_succ (by omega)] at hcross
        refine ih (by omega) fun q hq hlt => ?_
        have hb : (head + UInt32.ofNat i + 1).toNat / 512 = (head.toNat + (i + 1)) / 512 := by
          rw [toNat_add_ofNat_succ (by omega)]
          rfl
        have hdata := hw.area (.data ((head.toNat + (i + 1)) / 512))
          (show (head.toNat + (i + 1)) / 512 < N by omega)
        simp only [getDataBlock]
        rw [hw.reads hf (by omega), hb, diskRd_lt _ _ (hdata.lt_num hf), fileByte,
          show (512 * ((head.toNat + (i + 1)) / 512) + q) / 512 = (head.toNat + (i + 1)) / 512 by omega,
          show (512 * ((head.toNat + (i + 1)) / 512) + q) % 512 = q by omega]
      · next hcross =>
        refine ih (by omega) fun q hq hlt => ?_
        rw [toNat_add_ofNat_succ (by omega)] at hcross
        rw [hbuf q hq (by omega)]
        congr 2
        omega

theorem slice_contents (d : Image) (ic : ICommon) {h n : Nat} (hn : h + n ≤ ic.icSize.toNat) :
    (List.range n).map (fun j => fileByte d ic (h + j)) = ((contents d ic).drop h).take n := by
  apply List.ext_getElem
  · simp [contents]
    omega
  · intro i hi hi'
    simp [contents]

theorem fread_eq {v : Vol} {inode : INode} {l : List UInt32} {head count : UInt32}
    (hw : WellMapped v.disk inode.iIc (inode.iIc.icSize.toNat / 512 + 1) l) (hf : Formatted v)
    (hn : head.toNat + count.toNat ≤ inode.iIc.icSize.toNat) :
    freadLoop v inode head (intCount count) (intCount count) 0
      (getDataBlock v v.stkBlk inode head).2 =
        ((contents v.disk inode.iIc).drop head.toNat).take count.toNat := by
  have hle := hw.le
  have hcount : intCount count = count.toNat := by
    unfold intCount
    rw [if_pos (by omega)]
  rw [hcount, freadLoop_eq hw hf (by omega) (by omega) fun q hq _ => ?_, ← slice_contents _ _ hn]
  · rfl
  · have hdata := hw.area (.data (head.toNat / 512))
      (show head.toNat / 512 < inode.iIc.icSize.toNat / 512 + 1 by omega)
    simp only [getDataBlock, Nat.add_zero]
    rw [hw.reads hf (by omega), diskRd_lt _ _ (hdata.lt_num hf), fileByte,
      show (512 * (head.toNat / 512) + q) / 512 = head.toNat / 512 by omega,
      show (512 * (head.toNat / 512) + q) % 512 = q by omega]

/-! `fwrite` as a whole. -/

def growFor (v : Vol) (inode : INode) (head n : UInt32) : UInt32 × INode × Vol :=
  if inode.iIc.icSize < head + n then
    allocateDataBlocks v inode (head + n - inode.iIc.icSize)
  else (0, inode, v)

theorem fwrite_eq {k : Kernel} {fd : Int} {i : Fin 16} {o s : Fin 128} (data : Nat → UInt8)
    (n : UInt32) (h : fdEntry k fd = some (i, o)) (hs : inptr k o = some s) :
    fwrite k fd data n = (0, { k with
      vol := fwriteBytes (growFor k.vol (k.ai s) (k.of o).oHead n).2.2
        (growFor k.vol (k.ai s) (k.of o).oHead n).2.1 (k.of o).oHead data n
      ai := Function.update k.ai s (growFor k.vol (k.ai s) (k.of o).oHead n).2.1
      of := Function.update k.of o { k.of o with oHead := (k.of o).oHead + n } }) := by
  simp only [inptr] at hs
  simp only [fwrite, h, hs]
  rfl

theorem growFor_grew {own : Owners} {v : Vol} {l : List UInt32} {inode : INode} {head n : UInt32}
    (hino : inode.iNumber.toNat < 512) (ha : Accounted own v l)
    (hm : Maps own v.disk inode.iNumber inode.iIc (inode.iIc.icSize.toNat / 512 + 1))
    (hsize : max inode.iIc.icSize.toNat (head + n).toNat < 139 * 512) :
    (l.length < blocksToGrow inode.iIc.icSize.toNat
        (max inode.iIc.icSize.toNat (head + n).toNat) ∧
      Failed (growFor v inode head n).2.2) ∨
    ∃ own' l' inode' v' size, (growFor v inode head n).2 =
      ({ inode' with iIc := { inode'.iIc with icSize := size } }, v') ∧
      size.toNat = max inode.iIc.icSize.toNat (head + n).toNat ∧
      l.length = l'.length +
        blocksToGrow inode.iIc.icSize.toNat (max inode.iIc.icSize.toNat (head + n).toNat) ∧
      Grew own own' v v' l l' inode inode' (inode.iIc.icSize.toNat / 512 + 1)
        (size.toNat / 512 + 1) := by
  unfold growFor
  by_cases hlt : inode.iIc.icSize < head + n
  · rw [if_pos hlt]
    rw [UInt32.lt_iff_toNat_lt] at hlt
    have hdiff : (head + n - inode.iIc.icSize).toNat = (head + n).toNat - inode.iIc.icSize.toNat :=
      UInt32.toNat_sub_of_le _ _ (UInt32.le_iff_toNat_le.mpr (by omega))
    have hmax : inode.iIc.icSize.toNat + (head + n - inode.iIc.icSize).toNat =
        max inode.iIc.icSize.toNat (head + n).toNat := by omega
    have hnew : (inode.iIc.icSize + (head + n - inode.iIc.icSize)).toNat =
        max inode.iIc.icSize.toNat (head + n).toNat := by
      rw [UInt32.toNat_add, hmax, Nat.mod_eq_of_lt (by omega)]
    rcases allocateDataBlocks_grew (head + n - inode.iIc.icSize) hino ha hm (by omega) with
      ⟨hlen, hfail⟩ | ⟨own', l', inode', v', he, hlen, hg⟩
    · rw [hmax] at hlen
      exact .inl ⟨hlen, hfail⟩
    · rw [hmax] at hg hlen
      refine .inr ⟨own', l', inode', v', _, by rw [he], hnew, hlen, ?_⟩
      rwa [hnew]
  · rw [if_neg hlt]
    rw [UInt32.lt_iff_toNat_lt] at hlt
    have hmax : inode.iIc.icSize.toNat = max inode.iIc.icSize.toNat (head + n).toNat := by omega
    refine .inr ⟨own, l, inode, v, inode.iIc.icSize, rfl, hmax, ?_, .refl ha hm⟩
    rw [← hmax, blocksToGrow, Nat.sub_self]
    rfl

/-- A file was written to: what its bytes are now and what else may have
changed. -/
structure Rewritten (own own' : Owners) (v w : Vol) (l l' : List UInt32) (inode inode' : INode)
    (head : UInt32) (data : Nat → UInt8) (n : Nat) : Prop where
  acct : Accounted own' w l'
  maps : Maps own' w.disk inode.iNumber inode'.iIc (inode'.iIc.icSize.toNat / 512 + 1)
  fresh : ∀ x, own x = none → own' x ≠ none → x ∈ l
  sub : ∀ x ∈ l', x ∈ l
  same : SameFile inode inode'
  size : inode'.iIc.icSize.toNat = max inode.iIc.icSize.toNat (head.toNat + n)
  frame : ∀ x, x ≠ 1 → x ≠ inodeBlock inode.iNumber → own' x = none → w.disk x = v.disk x
  inodes : ∀ j, j.toNat < 512 → j ≠ inode.iNumber → inodeAt w.disk j = inodeAt v.disk j
  written : ∀ i < n, fileByte w.disk inode'.iIc (head.toNat + i) = data i
  kept : ∀ p < inode.iIc.icSize.toNat, ¬(head.toNat ≤ p ∧ p < head.toNat + n) →
    fileByte w.disk inode'.iIc p = fileByte v.disk inode.iIc p

theorem rewritten {own : Owners} {v : Vol} {l : List UInt32} {inode : INode} (head n : UInt32)
    (data : Nat → UInt8) (hino : inode.iNumber.toNat < 512) (ha : Accounted own v l)
    (hm : Maps own v.disk inode.iNumber inode.iIc (inode.iIc.icSize.toNat / 512 + 1))
    (hpos : 0 < n.toNat) (hsize : max inode.iIc.icSize.toNat (head.toNat + n.toNat) < 139 * 512)
    (hfree : blocksToGrow inode.iIc.icSize.toNat
      (max inode.iIc.icSize.toNat (head.toNat + n.toNat)) ≤ l.length) :
    ∃ own' l', Rewritten own own' v
      (fwriteBytes (growFor v inode head n).2.2 (growFor v inode head n).2.1 head data n) l l'
      inode (growFor v inode head n).2.1 head data n.toNat := by
  have hsum : (head + n).toNat = head.toNat + n.toNat := by
    rw [UInt32.toNat_add, Nat.mod_eq_of_lt (by omega)]
  rw [← hsum] at hsize hfree
  rcases growFor_grew hino ha hm hsize with ⟨hlen, -⟩ | ⟨own', l', inode₁, v₁, size, he, hnew, -, hg⟩
  · omega
  refine ⟨own', l', ?_⟩
  rw [hsum] at hnew
  rw [he]
  set inode' : INode := { inode₁ with iIc := { inode₁.iIc with icSize := size } } with hinode'
  set N := size.toNat / 512 + 1 with hN
  have hsz : inode'.iIc.icSize.toNat = size.toNat := rfl
  have hm' : Maps own' v₁.disk inode'.iNumber inode'.iIc N := hg.maps.resize inode₁.iIc.icMode size
  obtain ⟨hbeside, hbytes⟩ := fwriteBytes_spec head data hg.acct hm'
    (show head.toNat + n.toNat ≤ 512 * N by omega) hpos
  dsimp only
  set w := fwriteBytes v₁ inode' head data n with hw
  -- blocks that are not data blocks of the file are as growth left them
  have hother : ∀ x, (∀ j, own' x ≠ some (inode.iNumber, .data j)) → w.disk x = v₁.disk x :=
    fun x hx => hbeside.disk x fun j hj hxj => by
      have := hm'.data j hj
      rw [← hxj, show inode'.iNumber = inode.iNumber from hg.number] at this
      exact hx j this
  have hinode : ∀ j, j.toNat < 512 → inodeAt w.disk j = inodeAt v₁.disk j := fun j hj => by
    unfold inodeAt
    rw [hother _ fun i hi => (hg.acct.owned _ _ hi).1.ne_inodeBlock hj rfl]
  have hmapped : ∀ j < N, mapAddr w.disk inode'.iIc j = mapAddr v₁.disk inode'.iIc j := fun j hj =>
    mapAddr_congr fun h11 => hother _ fun i hi => by
      rw [hm'.index (by omega)] at hi
      simp at hi
  have hbyte : ∀ p < 512 * N, fileByte w.disk inode'.iIc p =
      writtenByte v₁ inode' head data n.toNat p := fun p hp => by
    have hs := hm'.small
    rw [← hbytes p hp, fileByte, placeAddr_data _ _ (by omega), hmapped _ (by omega)]
  refine ⟨⟨?_, ?_, hg.acct.owned⟩, ?_, fun x h0 h1 => (hg.fresh x h0 h1).1, fun x hx => hg.sub hx,
    ⟨hg.number, hg.links, hg.mode⟩, hnew, fun x h1 hb h0 => ?_, fun j hj hne => ?_, fun i hi => ?_,
    fun p hp hout => ?_⟩
  · exact hg.acct.formatted.of_header hbeside.num fun _ _ => by rw [hbeside.fs]
  · rw [hbeside.fs]
    exact hg.acct.free.frame fun a hal => hother a fun j hj => (hg.acct.owned _ _ hj).2 hal
  · rw [← show inode'.iNumber = inode.iNumber from hg.number]
    refine hm'.frame (fun _ _ h => h) fun h11 => hother _ fun i hi => ?_
    rw [hm'.index h11] at hi
    simp at hi
  · rw [hother x fun j => by simp [h0], hg.frame x h1 hb (by simp [h0])]
  · rw [hinode j hj, hg.inodes j hj hne]
  · rw [hbyte _ (by omega), writtenByte, if_pos (by omega), Nat.add_sub_cancel_left]
  · have hblk : p / 512 < inode.iIc.icSize.toNat / 512 + 1 := by omega
    rw [hbyte _ (by omega), writtenByte, if_neg hout, fileByte, placeAddr_data _ _ (by omega)]
    have hkept : mapAddr v₁.disk inode'.iIc (p / 512) = mapAddr v.disk inode.iIc (p / 512) :=
      hg.kept _ hblk
    have hown := hm'.data (p / 512) (by omega)
    rw [hkept] at hown ⊢
    have hdata := hm.addr_dataBlock ha hblk
    rw [hg.frame _ hdata.ne_one (hdata.ne_inodeBlock hino) (by rw [hown]; simp)]

/-! All files together. -/

/-- The inode that describes file `ino`: the active copy or, when there is
none, the one on disk. -/
def Current (k : Kernel) (ino : UInt32) (ic : ICommon) : Prop :=
  (∃ s, Active k s ∧ (k.ai s).iNumber = ino ∧ (k.ai s).iIc = ic) ∨
    ((∀ s, Active k s → (k.ai s).iNumber ≠ ino) ∧ ino.toNat < 512 ∧
      ic.icMode ≠ Mode.ifzero.code ∧ inodeAt k.vol.disk ino = ic)

/-- No block is referenced twice or both referenced and on the free list `l`. -/
structure Separate (k : Kernel) (l : List UInt32) : Prop where
  formatted : Formatted k.vol
  free : FreeList k.vol.disk k.vol.fs l
  number : ∀ s, Active k s → (k.ai s).iNumber.toNat < 512
  unique : ∀ s t, Active k s → Active k t → (k.ai s).iNumber = (k.ai t).iNumber → s = t
  mapped : ∀ ino ic, Current k ino ic → WellMapped k.vol.disk ic (blockCount ic) l
  apart : ∀ ino ic ino' ic', Current k ino ic → Current k ino' ic' → ino ≠ ino' → ∀ p q,
    Place.In (blockCount ic) p → Place.In (blockCount ic') q →
      placeAddr k.vol.disk ic p ≠ placeAddr k.vol.disk ic' q

section

variable {k : Kernel} {l l' : List UInt32} {s : Fin 128} {own' : Owners} {w : Vol} {inode' : INode}
  {head : UInt32} {data : Nat → UInt8} {n : Nat}

def setFile (k : Kernel) (s : Fin 128) (w : Vol) (inode : INode) : Kernel :=
  { k with vol := w, ai := Function.update k.ai s inode }

theorem active_setFile (h : SameFile (k.ai s) inode') (t : Fin 128) :
    Active (setFile k s w inode') t ↔ Active k t := by
  by_cases ht : t = s
  · subst ht
    simp [Active, setFile, h.2.2]
  · simp [Active, setFile, ht]

theorem number_setFile (h : SameFile (k.ai s) inode') (t : Fin 128) :
    ((setFile k s w inode').ai t).iNumber = (k.ai t).iNumber := by
  by_cases ht : t = s
  · subst ht
    simp [setFile, h.1]
  · simp [setFile, ht]

theorem fileOwners_apart (hsep : Separate k l) (hs : Active k s)
    (h139 : blockCount (k.ai s).iIc ≤ 139) {ino : UInt32} {ic : ICommon} (hc : Current k ino ic)
    (hne : ino ≠ (k.ai s).iNumber) {p : Place} (hp : Place.In (blockCount ic) p) :
    fileOwners k.vol.disk (k.ai s).iNumber (k.ai s).iIc (blockCount (k.ai s).iIc)
      (placeAddr k.vol.disk ic p) = none := by
  by_contra hsome
  obtain ⟨o, ho⟩ := Option.ne_none_iff_exists'.mp hsome
  obtain ⟨-, q, hq, he⟩ := fileOwners_some h139 ho
  exact hsep.apart _ _ _ _ hc (.inl ⟨s, hs, rfl, rfl⟩) hne p q hp hq he.symm

theorem Separate.untouched (hsep : Separate k l) (hs : Active k s)
    (h139 : blockCount (k.ai s).iIc ≤ 139)
    (hr : Rewritten (fileOwners k.vol.disk (k.ai s).iNumber (k.ai s).iIc (blockCount (k.ai s).iIc))
      own' k.vol w l l' (k.ai s) inode' head data n)
    {ino : UInt32} {ic : ICommon} (hc : Current k ino ic) (hne : ino ≠ (k.ai s).iNumber) {p : Place}
    (hp : Place.In (blockCount ic) p) :
    own' (placeAddr k.vol.disk ic p) = none ∧
      w.disk (placeAddr k.vol.disk ic p) = k.vol.disk (placeAddr k.vol.disk ic p) := by
  have hw := hsep.mapped _ _ hc
  have hnone : own' (placeAddr k.vol.disk ic p) = none := by
    by_contra hsome
    exact hw.used p hp (hr.fresh _ (fileOwners_apart hsep hs h139 hc hne hp) hsome)
  have hd := hw.area p hp
  exact ⟨hnone, hr.frame _ hd.ne_one (hd.ne_inodeBlock (hsep.number s hs)) hnone⟩

theorem current_setFile (hsame : SameFile (k.ai s) inode')
    (hinodes : ∀ j, j.toNat < 512 → j ≠ (k.ai s).iNumber → inodeAt w.disk j = inodeAt k.vol.disk j)
    {ino : UInt32} {ic : ICommon} (hne : ino ≠ (k.ai s).iNumber) :
    Current (setFile k s w inode') ino ic ↔ Current k ino ic := by
  have hslot : ∀ t, (k.ai t).iNumber = ino → (setFile k s w inode').ai t = k.ai t := fun t ht => by
    have hts : t ≠ s := by
      rintro rfl
      exact hne ht.symm
    simp [setFile, hts]
  refine or_congr (exists_congr fun t => ?_) ?_
  · rw [active_setFile hsame, number_setFile hsame]
    refine and_congr_right fun _ => and_congr_right fun ht => ?_
    rw [hslot t ht]
  · simp only [active_setFile hsame, number_setFile hsame]
    refine and_congr_right fun _ => and_congr_right fun hlt => ?_
    rw [show (setFile k s w inode').vol = w from rfl, hinodes ino hlt hne]

theorem current_self (hsame : SameFile (k.ai s) inode') (hs : Active k s)
    (huniq : ∀ t, Active k t → (k.ai t).iNumber = (k.ai s).iNumber → t = s) {ic : ICommon}
    (hc : Current (setFile k s w inode') (k.ai s).iNumber ic) : ic = inode'.iIc := by
  rcases hc with ⟨t, ht, hn, rfl⟩ | ⟨hno, -⟩
  · rw [active_setFile hsame] at ht
    rw [number_setFile hsame] at hn
    rw [huniq t ht hn]
    simp [setFile]
  · exact absurd (number_setFile hsame s) (hno s ((active_setFile hsame s).mpr hs))

theorem Separate.setFile (hsep : Separate k l) (hs : Active k s)
    (h139 : blockCount (k.ai s).iIc ≤ 139) (hreg : (k.ai s).iIc.icMode = Mode.ifreg.code)
    (hr : Rewritten (fileOwners k.vol.disk (k.ai s).iNumber (k.ai s).iIc (blockCount (k.ai s).iIc))
      own' k.vol w l l' (k.ai s) inode' head data n) : Separate (setFile k s w inode') l' := by
  have hsame := hr.same
  have huniq : ∀ t, Active k t → (k.ai t).iNumber = (k.ai s).iNumber → t = s := fun t ht =>
    hsep.unique t s ht hs
  have hcount := blockCount_regular (hsame.2.2.trans hreg)
  -- a file is the rewritten one or one of the others
  have hcase : ∀ ino ic, Current (Core.setFile k s w inode') ino ic →
      (ino = (k.ai s).iNumber ∧ ic = inode'.iIc) ∨ (ino ≠ (k.ai s).iNumber ∧ Current k ino ic) :=
    fun ino ic hc => by
      by_cases hne : ino = (k.ai s).iNumber
      · subst hne
        exact .inl ⟨rfl, current_self hsame hs huniq hc⟩
      · exact .inr ⟨hne, (current_setFile hsame hr.inodes hne).mp hc⟩
  have hother : ∀ ino ic, ino ≠ (k.ai s).iNumber → Current k ino ic → ∀ p,
      Place.In (blockCount ic) p → placeAddr w.disk ic p = placeAddr k.vol.disk ic p :=
    fun ino ic hne hc p hp =>
      placeAddr_congr (fun q hq => (hsep.untouched hs h139 hr hc hne hq).2) hp
  have hown : ∀ p, Place.In (blockCount inode'.iIc) p →
      own' (placeAddr w.disk inode'.iIc p) ≠ none := fun p hp => by
    rw [hcount] at hp
    obtain ⟨r, hr⟩ := hr.maps.owns hp
    simp [hr]
  refine ⟨hr.acct.formatted, hr.acct.free, fun t ht => ?_, fun t u ht hu hn => ?_, fun ino ic hc => ?_,
    fun ino ic ino' ic' hc hc' hne p q hp hq => ?_⟩
  · rw [number_setFile hsame]
    exact hsep.number t ((active_setFile hsame t).mp ht)
  · rw [number_setFile hsame, number_setFile hsame] at hn
    exact hsep.unique t u ((active_setFile hsame t).mp ht) ((active_setFile hsame u).mp hu) hn
  · rcases hcase ino ic hc with ⟨rfl, rfl⟩ | ⟨hne, hc⟩
    · rw [hcount]
      exact hr.maps.wellMapped hr.acct
    · exact (hsep.mapped ino ic hc).frame
        (fun p hp => (hsep.untouched hs h139 hr hc hne hp).2) hr.sub
  · change placeAddr w.disk ic p ≠ placeAddr w.disk ic' q
    rcases hcase ino ic hc with ⟨rfl, rfl⟩ | ⟨h1, hc⟩
    · rcases hcase ino' ic' hc' with ⟨rfl, rfl⟩ | ⟨h2, hc'⟩
      · exact absurd rfl hne
      · intro he
        have := hown p hp
        rw [he, hother _ _ h2 hc' q hq] at this
        exact this (hsep.untouched hs h139 hr hc' h2 hq).1
    · rcases hcase ino' ic' hc' with ⟨rfl, rfl⟩ | ⟨h2, hc'⟩
      · intro he
        have := hown q hq
        rw [← he, hother _ _ h1 hc p hp] at this
        exact this (hsep.untouched hs h139 hr hc h1 hp).1
      · rw [hother _ _ h1 hc p hp, hother _ _ h2 hc' q hq]
        exact hsep.apart _ _ _ _ hc hc' hne p q hp hq

end

/-- Writing `x` at position `h` over the bytes `b` gives `b'`. -/
structure Overwritten (b : List UInt8) (h : Nat) (x b' : List UInt8) : Prop where
  length : b'.length = max b.length (h + x.length)
  written : ∀ i < x.length, b'[h+i]? = x[i]?
  kept : ∀ p < b.length, ¬(h ≤ p ∧ p < h + x.length) → b'[p]? = b[p]?

theorem length_contents (d : Image) (ic : ICommon) : (contents d ic).length = ic.icSize.toNat := by
  simp [contents]

theorem getElem?_contents (d : Image) {ic : ICommon} {p : Nat} (hp : p < ic.icSize.toNat) :
    (contents d ic)[p]? = some (fileByte d ic p) := by
  simp [contents, hp]

theorem Rewritten.overwritten {own own' : Owners} {v w : Vol} {l l' : List UInt32}
    {inode inode' : INode} {head : UInt32} {x : List UInt8}
    (h : Rewritten own own' v w l l' inode inode' head (fun j => x.getD j 0) x.length) :
    Overwritten (contents v.disk inode.iIc) head.toNat x (contents w.disk inode'.iIc) := by
  have hsize := h.size
  refine ⟨?_, fun i hi => ?_, fun p hp hout => ?_⟩
  · rw [length_contents, length_contents, hsize]
  · rw [getElem?_contents _ (by omega), h.written i hi]
    simp [hi]
  · rw [length_contents] at hp
    rw [getElem?_contents _ (by omega), getElem?_contents _ hp, h.kept p hp hout]

section

variable {k : Kernel} {l : List UInt32} {fd : Int} {i : Fin 16} {o s : Fin 128}

theorem fwrite_spec (hsep : Separate k l) (hfd : fdEntry k fd = some (i, o))
    (hs : inptr k o = some s) (hreg : (k.ai s).iIc.icMode = Mode.ifreg.code) {x : List UInt8}
    (hpos : 0 < x.length)
    (hsize : max (k.ai s).iIc.icSize.toNat ((k.of o).oHead.toNat + x.length) < 139 * 512)
    (hfree : blocksToGrow (k.ai s).iIc.icSize.toNat
      (max (k.ai s).iIc.icSize.toNat ((k.of o).oHead.toNat + x.length)) ≤ l.length) :
    ∃ own' l' w inode', fwrite k fd (fun j => x.getD j 0) (UInt32.ofNat x.length) =
        (0, { setFile k s w inode' with
          of := Function.update k.of o { k.of o with oHead := (k.of o).oHead + UInt32.ofNat x.length } }) ∧
      blockCount (k.ai s).iIc ≤ 139 ∧
      Rewritten (fileOwners k.vol.disk (k.ai s).iNumber (k.ai s).iIc (blockCount (k.ai s).iIc)) own'
        k.vol w l l' (k.ai s) inode' (k.of o).oHead (fun j => x.getD j 0) x.length := by
  have hact : Active k s := by
    rw [Active, hreg]
    decide
  have hcount := blockCount_regular hreg
  have h139 : blockCount (k.ai s).iIc ≤ 139 := by omega
  have hw := hsep.mapped _ _ (.inl ⟨s, hact, rfl, rfl⟩)
  have hn : (UInt32.ofNat x.length).toNat = x.length := by
    rw [UInt32.toNat_ofNat', Nat.mod_eq_of_lt (by omega)]
  have hm : Maps (fileOwners k.vol.disk (k.ai s).iNumber (k.ai s).iIc (blockCount (k.ai s).iIc))
      k.vol.disk (k.ai s).iNumber (k.ai s).iIc ((k.ai s).iIc.icSize.toNat / 512 + 1) := by
    have := hw.maps (k.ai s).iNumber h139
    rwa [hcount] at this ⊢
  obtain ⟨own', l', hr⟩ := rewritten (k.of o).oHead (UInt32.ofNat x.length)
    (fun j => x.getD j 0) (hsep.number s hact) (hw.accounted h139 hsep.formatted hsep.free) hm
    (by omega) (by rw [hn]; exact hsize) (by rw [hn]; exact hfree)
  rw [hn] at hr
  exact ⟨own', l', _, _, fwrite_eq _ _ hfd hs, h139, hr⟩

theorem close_last (hsep : Separate k l) (hfd : fdEntry k fd = some (i, o))
    (hs : inptr k o = some s) (hact : Active k s) (hlast : (k.ai s).iLinks = 1) :
    ∃ k', close k fd = (0, k') ∧ Formatted k'.vol ∧ ¬Active k' s ∧
      (∀ t, Active k' t → (k'.ai t).iNumber ≠ (k.ai s).iNumber) ∧
      inodeAt k'.vol.disk (k.ai s).iNumber = (k.ai s).iIc ∧
      ∀ x, x ≠ inodeBlock (k.ai s).iNumber → k'.vol.disk x = k.vol.disk x := by
  have hino := hsep.number s hact
  have hlinks : (k.ai s).iLinks - 1 = 0 := by rw [hlast]; rfl
  have hvol := vol_unlinkFile_last hlast i o
  refine ⟨_, close_eq hfd hs, ?_, not_active_unlinkFile hlinks i o, fun t ht => ?_, ?_, fun x hx => ?_⟩
  · rw [hvol]
    exact hsep.formatted.of_header (writeInode_num ..) fun _ _ => by rw [writeInode_fs]
  · rcases active_unlinkFile_cases ht with ⟨-, hne, -⟩ | ⟨hts, hai, ht⟩
    · exact absurd hlinks hne
    · rw [hai]
      exact fun hn => hts (hsep.unique t s ht hact hn)
  · rw [hvol]
    exact inodeAt_writeInode_self hsep.formatted hino
  · rw [hvol]
    exact writeInode_disk_ne hsep.formatted hino hx

end

/-- **Open regular files are byte arrays.** In a state where no block has two
uses, `fwrite` replaces bytes and touches no other file, `fread` returns bytes
of the file or refuses, and the contents survive the last close. -/
theorem open_file_is_bytes (k : Kernel) (l : List UInt32) (fd : Int) (i : Fin 16) (o s : Fin 128)
    (hsep : Separate k l) (hfd : fdEntry k fd = some (i, o)) (hs : (k.of o).oInptr = some s)
    (hreg : (k.ai s).iIc.icMode = Mode.ifreg.code) :
    (∀ x : List UInt8, 0 < x.length →
      max (k.ai s).iIc.icSize.toNat ((k.of o).oHead.toNat + x.length) < (11 + 128) * 512 →
      blocksToGrow (k.ai s).iIc.icSize.toNat
        (max (k.ai s).iIc.icSize.toNat ((k.of o).oHead.toNat + x.length)) ≤ l.length →
      ∃ k', fwrite k fd (fun j => x.getD j 0) (UInt32.ofNat x.length) = (0, k') ∧
        Overwritten (contents k.vol.disk (k.ai s).iIc) (k.of o).oHead.toNat x
          (contents k'.vol.disk (k'.ai s).iIc) ∧
        (k'.ai s).iNumber = (k.ai s).iNumber ∧ (k'.of o).oInptr = some s ∧
        (k'.of o).oHead.toNat = (k.of o).oHead.toNat + x.length ∧
        (∀ o', o' ≠ o → k'.of o' = k.of o') ∧ k'.pcb = k.pcb ∧
        (∀ ino ic, ino ≠ (k.ai s).iNumber → (Current k' ino ic ↔ Current k ino ic) ∧
          (Current k ino ic → contents k'.vol.disk ic = contents k.vol.disk ic)) ∧
        ∃ l', Separate k' l') ∧
    (∀ n : UInt32, (k.of o).oHead.toNat + n.toNat ≤ (k.ai s).iIc.icSize.toNat →
      fread k fd n = (0,
        ((contents k.vol.disk (k.ai s).iIc).drop (k.of o).oHead.toNat).take n.toNat,
        { k with of := Function.update k.of o { k.of o with oHead := (k.of o).oHead + n } })) ∧
    (∀ n : UInt32, (k.ai s).iIc.icSize < (k.of o).oHead + n → fread k fd n = (-1, [], k)) ∧
    ((k.ai s).iLinks = 1 → ∃ k' t k'', close k fd = (0, k') ∧
      getAIT k' (k.ai s).iNumber = (some t, k'') ∧ (k''.ai t).iNumber = (k.ai s).iNumber ∧
      contents k''.vol.disk (k''.ai t).iIc = contents k.vol.disk (k.ai s).iIc) := by
  have hact : Active k s := by
    rw [Active, hreg]
    decide
  have hw := hsep.mapped _ _ (.inl ⟨s, hact, rfl, rfl⟩)
  refine ⟨fun x hpos hsize hfree => ?_, fun n hn => ?_, fun n hn => ?_, fun hlast => ?_⟩
  · obtain ⟨own', l', w, inode', he, h139, hr⟩ := fwrite_spec hsep hfd hs hreg hpos hsize hfree
    refine ⟨_, he, ?_, ?_, ?_, ?_, fun o' ho' => ?_, rfl, fun ino ic hne => ⟨?_, fun hc => ?_⟩, l', ?_⟩
    · simpa [setFile] using hr.overwritten
    · simpa [setFile] using hr.same.1
    · simpa using hs
    · have hsum := toNat_add_ofNat (x := (k.of o).oHead) (i := x.length) (by omega)
      simpa using hsum
    · simp [ho']
    · exact current_setFile hr.same hr.inodes hne
    · exact contents_congr fun p hp => (hsep.untouched hact h139 hr hc hne hp).2
    · obtain ⟨h1, h2, h3, h4, h5, h6⟩ := hsep.setFile hact h139 hreg hr
      exact ⟨h1, h2, h3, h4, h5, h6⟩
  · have hsum : ((k.of o).oHead + n).toNat = (k.of o).oHead.toNat + n.toNat := by
      have := (k.ai s).iIc.icSize.toNat_lt
      rw [UInt32.toNat_add, Nat.mod_eq_of_lt (by omega)]
    have hlt : ¬(k.ai s).iIc.icSize < (k.of o).oHead + n := by
      rw [UInt32.lt_iff_toNat_lt, hsum]
      omega
    rw [blockCount_regular hreg] at hw
    simp only [fread, hfd, hs, hlt, if_false, fread_eq hw hsep.formatted hn]
  · simp only [fread, hfd, hs, hn, if_true]
  · have hino := hsep.number s hact
    obtain ⟨k', he, hf, hidle, hnew, hdisk, hframe⟩ := close_last hsep hfd hs hact hlast
    obtain ⟨t, hget⟩ : ∃ t, getAIT k' (k.ai s).iNumber = (some t, { k' with
        ai := Function.update k'.ai t (readInode k'.vol (k'.ai t) (k.ai s).iNumber) }) := by
      rcases getAIT_cases k' (k.ai s).iNumber with ⟨-, hall⟩ | ⟨t, -, hn, ht⟩ | ⟨t, hget, -⟩
      · exact absurd (hall s) hidle
      · exact absurd hn (hnew t ht)
      · exact ⟨t, hget⟩
    refine ⟨k', t, _, he, hget, ?_, ?_⟩
    · simp [readInode_number]
    · simp only [Function.update_self, readInode_eq hf hino, hdisk]
      refine contents_congr fun p hp => hframe _ ?_
      exact (hw.area p hp).ne_inodeBlock hino

/-! One open file of one block on a disk with a few free blocks. -/

def oneBlockFile : INode := ⟨1, 0, ⟨Mode.ifreg.code, 100, Vector.replicate 11 70, Vector.replicate 3 0⟩⟩

def oneFileKernel (v : Vol) : Kernel :=
  let k := powerOn v ⟨0, 0, fun _ => 0⟩
  { k with
    ai := Function.update k.ai 0 { oneBlockFile with iLinks := 1 }
    of := Function.update k.of 0 ⟨some 0, 100⟩
    pcb := Function.update k.pcb 0 { Pcb.zero with fd := Function.update Pcb.zero.fd 0 (some 0) } }

theorem oneFile_active (v : Vol) (t : Fin 128) : Active (oneFileKernel v) t ↔ t = 0 := by
  by_cases ht : t = 0
  · subst ht
    simp [Active, oneFileKernel, oneBlockFile]
    decide
  · simp [Active, oneFileKernel, ht, powerOn, INode.zero]
    decide

theorem oneFile_current {n : Nat} (hn : n ≤ 4) {v : Vol} (hb : Blank n v) {ino : UInt32}
    {ic : ICommon} (hc : Current (oneFileKernel v) ino ic) : ino = 1 ∧ ic = oneBlockFile.iIc := by
  rcases hc with ⟨t, ht, hnum, hic⟩ | ⟨-, hlt, hmode, hic⟩
  · rw [oneFile_active] at ht
    subst ht
    exact ⟨hnum.symm, hic.symm⟩
  · refine absurd ?_ hmode
    have hblk := hb.blank (inodeBlock ino) (inodeBlock_ne_one hlt) fun j hj h63 => by omega
    rw [← hic, inodeAt, show (oneFileKernel v).vol.disk = v.disk from rfl, hblk]
    exact word_zeroBlock _

theorem oneFile_separate {n : Nat} (hn : n ≤ 4) {v : Vol} (hb : Blank n v) :
    Separate (oneFileKernel v) (rangeStack n) := by
  have hplace : ∀ p, Place.In 1 p → p = .data 0 := fun p hp => by
    cases p with
    | data i => rw [show i = 0 from Nat.lt_one_iff.mp hp]
    | single => exact absurd (show 11 < 1 from hp) (by omega)
    | double => exact absurd (show 139 < 1 from hp) (by omega)
    | node m => exact absurd (show 139 + 128*m < 1 from hp) (by omega)
  have hw : WellMapped v.disk oneBlockFile.iIc 1 (rangeStack n) := by
    refine ⟨fun p hp => ?_, fun p hp => ?_, fun p q hp hq _ => ?_⟩
    · rw [hplace p hp]
      change DataBlock 70
      decide
    · rw [hplace p hp, mem_rangeStack (by omega)]
      have h70 : (placeAddr v.disk oneBlockFile.iIc (.data 0)).toNat = 70 := rfl
      omega
    · rw [hplace p hp, hplace q hq]
  refine ⟨hb.holds.formatted, hb.holds.free, fun t ht => ?_, fun t u ht hu _ => ?_,
    fun ino ic hc => ?_, fun ino ic ino' ic' hc hc' hne => ?_⟩
  · rw [oneFile_active] at ht
    subst ht
    exact (by decide : oneBlockFile.iNumber.toNat < 512)
  · rw [oneFile_active] at ht hu
    rw [ht, hu]
  · obtain ⟨rfl, rfl⟩ := oneFile_current hn hb hc
    exact hw
  · exact absurd ((oneFile_current hn hb hc).1.trans (oneFile_current hn hb hc').1.symm) hne

/-- Six hundred bytes at the end of it take one more block. -/
theorem open_file_grows : ∃ k', fwrite (oneFileKernel (freeRange fullVol 3)) 0
      (fun j => (List.replicate 600 7).getD j 0) (UInt32.ofNat (List.replicate 600 (7 : UInt8)).length) =
        (0, k') ∧ (contents k'.vol.disk (k'.ai 0).iIc).length = 700 ∧ (k'.of 0).oHead.toNat = 700 := by
  have h := open_file_is_bytes (oneFileKernel (freeRange fullVol 3)) (rangeStack 3) 0 0 0 0
    (oneFile_separate (by omega) (blank_freeRange (by omega))) rfl rfl rfl
  obtain ⟨k', he, hover, -, -, hhead, -⟩ := h.1 (List.replicate 600 7)
    (by rw [List.length_replicate]; omega)
    (by rw [List.length_replicate]; decide) (by rw [List.length_replicate]; decide)
  have hlen := hover.length
  rw [length_contents _ ((oneFileKernel _).ai 0).iIc, List.length_replicate] at hlen
  rw [List.length_replicate] at hhead
  exact ⟨k', he, hlen, hhead⟩

end ArmKernel.Core
