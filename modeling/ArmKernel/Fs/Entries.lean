import ArmKernel.Fs.History
import Mathlib.Data.List.Find

/-! Directories as tables of entries, and what a lookup can return. -/
namespace ArmKernel.Fs

open Lib Lib.Bytes SuperBlock

def dirEntry (d : Image) (ic : ICommon) (j : Nat) : DirEnt :=
  getDir (d (mapAddr d ic (j / 16))) (j % 16)

def entryCount (ic : ICommon) : Nat := ic.icSize.toNat / 32

theorem div_lt_blockCount_of_entry {ic : ICommon} {j : Nat} (hdir : ic.icMode = Mode.ifdir.code)
    (hj : j < entryCount ic) : j / 16 < blockCount ic := by
  unfold entryCount at hj
  rw [blockCount_dir hdir]
  omega

/-! The scan. -/

/-- The number of entries a scan of `n` looks at: the last block counts as
empty when it is full. -/
def scanLimit (n : Nat) : Nat := 16 * ((n - 1) / 16) + n % 16

theorem scanLimit_le (n : Nat) : scanLimit n ≤ n := by
  unfold scanLimit
  omega

theorem scanLimit_eq {n : Nat} (h : n % 16 ≠ 0) : scanLimit n = n := by
  unfold scanLimit
  omega

theorem scanLimit_full {n : Nat} (h : n % 16 = 0) : scanLimit n = n - 16 := by
  unfold scanLimit
  omega

theorem flatMap_chunks (b : Nat) :
    (List.range b).flatMap (fun i => (List.range 16).map fun j => 16 * i + j) = List.range (16 * b) := by
  induction b with
  | zero => rfl
  | succ b ih =>
    have hr : List.range (b+1) = List.range b ++ [b] := List.range_succ
    rw [hr, List.flatMap_append, ih, List.flatMap_singleton, Nat.mul_succ, List.range_add]

theorem flatMap_scanPlan (n : Nat) :
    (scanPlan n).flatMap (fun b => (List.range b.2).map fun j => 16 * b.1 + j) = List.range (scanLimit n) := by
  unfold scanPlan scanLimit
  split
  · dsimp only
    rw [Nat.add_sub_cancel, List.flatMap_append, List.flatMap_map, flatMap_chunks, List.flatMap_singleton,
      List.range_add]
  · next h =>
    obtain rfl : n = 0 := by omega
    rfl

theorem bound_scanPlan {n : Nat} {b : Nat × Nat} (h : b ∈ scanPlan n) : b.2 ≤ 16 ∧ 16 * b.1 < n := by
  unfold scanPlan at h
  split at h
  · simp only [Nat.add_sub_cancel, List.mem_append, List.mem_map, List.mem_range, List.mem_singleton] at h
    obtain ⟨i, hi, rfl⟩ | rfl := h
    · dsimp only
      omega
    · dsimp only
      omega
  · cases h

/-- Where block `i` of a file is, by the reader of the block map. -/
def blockAddr (v : Vol) (inode : INode) (i : Nat) : UInt32 :=
  getDataBlockAddr v inode (UInt32.ofNat (512 * i))

theorem scanDir_blocks {v : Vol} {inode : INode} (p : Block → Nat → Bool) (plan : List (Nat × Nat)) (x : Block)
    (hplan : ∀ b ∈ plan, b.2 ≤ 16 ∧ (blockAddr v inode b.1).toNat < v.num) :
    scanDir v inode p plan x =
      ((plan.flatMap fun b => (List.range b.2).map fun j => 16 * b.1 + j).find? fun e =>
        p (v.disk (blockAddr v inode (e / 16))) (e % 16)).map fun e =>
          (blockAddr v inode (e / 16), v.disk (blockAddr v inode (e / 16)), e % 16) := by
  induction plan generalizing x with
  | nil => rfl
  | cons b rest ih =>
    obtain ⟨i, n⟩ := b
    obtain ⟨h16, hi⟩ := hplan _ List.mem_cons_self
    have hrest := fun y => ih y fun b hb => hplan b (List.mem_cons_of_mem _ hb)
    rw [List.flatMap_cons, List.find?_append]
    simp only [scanDir, getDataBlock]
    rw [show getDataBlockAddr v inode (UInt32.ofNat (512*i)) = blockAddr v inode i from rfl]
    rw [diskRd_lt _ _ hi]
    -- the same block and place for every entry of this one
    have hplace : ∀ j < n, (16 * i + j) / 16 = i ∧ (16 * i + j) % 16 = j := by
      intro j hj
      dsimp only at h16
      omega
    have hfind : ((List.range n).map fun j => 16 * i + j).find? (fun e =>
        p (v.disk (blockAddr v inode (e / 16))) (e % 16)) =
          ((List.range n).find? (p (v.disk (blockAddr v inode i)))).map fun j => 16 * i + j := by
      rw [List.find?_map]
      congr 1
      refine List.find?_congr fun j hj => ?_
      obtain ⟨h1, h2⟩ := hplace j (List.mem_range.mp hj)
      simp only [Function.comp_apply, h1, h2]
    rw [hfind]
    cases hj : (List.range n).find? (p (v.disk (blockAddr v inode i))) with
    | none => simpa using hrest _
    | some j =>
      obtain ⟨h1, h2⟩ := hplace j (List.mem_range.mp (List.mem_of_find?_eq_some hj))
      simp [h1, h2]

section

variable {own : Owners} {v : Vol} {l : List UInt32} {inode : INode} {ino : UInt32}

def entryBlock (d : Image) (ic : ICommon) (e : Nat) : Block := d (mapAddr d ic (e / 16))

theorem Maps.blockAddr {n : Nat} (ha : Accounted own v l) (hm : Maps own v.disk ino inode.iIc n) {i : Nat}
    (hi : i < n) : blockAddr v inode i = mapAddr v.disk inode.iIc i := by
  have hsmall := hm.small
  have hb : (UInt32.ofNat (512 * i)).toNat / 512 = i := by
    rw [UInt32.toNat_ofNat', Nat.mod_eq_of_lt (by omega)]
    omega
  unfold Fs.blockAddr
  rw [hm.reads ha (by rw [hb]; exact hi), hb]

theorem scanDir_plan (ha : Accounted own v l) (hm : Maps own v.disk ino inode.iIc (blockCount inode.iIc))
    (hdir : inode.iIc.icMode = Mode.ifdir.code) (p : Block → Nat → Bool) (x : Block) :
    scanDir v inode p (scanPlan (inode.iIc.icSize.toNat / 32)) x =
      ((List.range (scanLimit (entryCount inode.iIc))).find? fun e =>
        p (entryBlock v.disk inode.iIc e) (e % 16)).map fun e =>
          (mapAddr v.disk inode.iIc (e / 16), entryBlock v.disk inode.iIc e, e % 16) := by
  have hblock : ∀ e < entryCount inode.iIc, blockAddr v inode (e / 16) = mapAddr v.disk inode.iIc (e / 16) :=
    fun e he => hm.blockAddr ha (div_lt_blockCount_of_entry hdir he)
  have hlt : ∀ e ∈ List.range (scanLimit (entryCount inode.iIc)), e < entryCount inode.iIc := fun e he =>
    lt_of_lt_of_le (List.mem_range.mp he) (scanLimit_le _)
  rw [scanDir_blocks p _ x fun b hb => ?_, flatMap_scanPlan]
  · have hfind : (List.range (scanLimit (entryCount inode.iIc))).find? (fun e =>
        p (v.disk (blockAddr v inode (e / 16))) (e % 16)) =
          (List.range (scanLimit (entryCount inode.iIc))).find? fun e =>
            p (entryBlock v.disk inode.iIc e) (e % 16) := by
      refine List.find?_congr fun e he => ?_
      rw [hblock e (hlt e he)]
      rfl
    change Option.map _ (List.find? _ (List.range (scanLimit (entryCount inode.iIc)))) = _
    rw [hfind]
    cases hhit : (List.range (scanLimit (entryCount inode.iIc))).find? (fun e =>
        p (entryBlock v.disk inode.iIc e) (e % 16)) with
    | none => rfl
    | some e =>
      rw [Option.map_some, Option.map_some, hblock e (hlt e (List.mem_of_find?_eq_some hhit))]
      rfl
  · obtain ⟨h16, hb16⟩ := bound_scanPlan hb
    have hi : b.1 < blockCount inode.iIc := by
      have := div_lt_blockCount_of_entry hdir hb16
      omega
    rw [hm.blockAddr ha hi]
    exact ⟨h16, (hm.addr_dataBlock ha hi).lt_num ha.formatted⟩

theorem scanDir_entry {p : Block → Nat → Bool} {x dir : Block} {addr : UInt32} {j : Nat}
    (ha : Accounted own v l) (hm : Maps own v.disk ino inode.iIc (blockCount inode.iIc))
    (hdir : inode.iIc.icMode = Mode.ifdir.code)
    (h : scanDir v inode p (scanPlan (inode.iIc.icSize.toNat / 32)) x = some (addr, dir, j)) :
    ∃ e < entryCount inode.iIc, addr = mapAddr v.disk inode.iIc (e / 16) ∧ dir = v.disk addr ∧
      j = e % 16 ∧ p dir j = true := by
  rw [scanDir_plan ha hm hdir, Option.map_eq_some_iff] at h
  obtain ⟨e, hfind, he⟩ := h
  obtain ⟨rfl, rfl, rfl⟩ := he
  have hlt := List.mem_range.mp (List.mem_of_find?_eq_some hfind)
  have hhit := List.find?_some hfind
  exact ⟨e, lt_of_lt_of_le hlt (scanLimit_le _), rfl, rfl, rfl, hhit⟩

theorem nameToIno_find (ha : Accounted own v l) (hm : Maps own v.disk ino inode.iIc (blockCount inode.iIc))
    (hdir : inode.iIc.icMode = Mode.ifdir.code) (name : CStr) :
    nameToIno v name inode =
      (((List.range (scanLimit (entryCount inode.iIc))).find? fun e =>
        nameMatch name (entryBlock v.disk inode.iIc e) (e % 16)).map fun e =>
          (dirEntry v.disk inode.iIc e).dIno).getD noAddr := by
  unfold nameToIno
  rw [scanDir_plan ha hm hdir]
  cases List.find? _ (List.range (scanLimit (entryCount inode.iIc))) <;> rfl

end

theorem nameToIno_entry {own : Owners} {v : Vol} {l : List UInt32} {ino : UInt32}
    (ha : Accounted own v l) (inode : INode) (hm : Maps own v.disk ino inode.iIc (blockCount inode.iIc))
    (hdir : inode.iIc.icMode = Mode.ifdir.code) (name : CStr) :
    nameToIno v name inode = noAddr ∨ ∃ e < entryCount inode.iIc,
      nameMatch name (v.disk (mapAddr v.disk inode.iIc (e / 16))) (e % 16) = true ∧
      nameToIno v name inode = (dirEntry v.disk inode.iIc e).dIno := by
  unfold nameToIno
  split
  · next addr dir j h =>
    obtain ⟨e, he, rfl, rfl, rfl, hp⟩ := scanDir_entry ha hm hdir h
    exact .inr ⟨e, he, hp, rfl⟩
  · exact .inl rfl

/-! Names. -/

theorem strncmpEq_head {a b : Nat → UInt8} {i n : Nat} (h : strncmpEq a b i (n+1) = true) :
    a i = b i := by
  unfold strncmpEq at h
  split at h
  · cases h
  · next hne => simpa using hne

def DirEnt.initial (e : DirEnt) : UInt8 := e.dName[0]

theorem initial_getDir (b : Block) (j : Nat) : (getDir b j).initial = byte b (32*j+6) := by
  simp [DirEnt.initial, getDir]

theorem nameMatch_initial {c : UInt8} {name : CStr} {b : Block} {j : Nat}
    (h : nameMatch (c :: name) b j = true) : (getDir b j).initial = c := by
  have hlen : ∃ n, (if strlen (c :: name) ≤ (getDir b j).dNamlen.toNat then (getDir b j).dNamlen.toNat
      else strlen (c :: name)) = n + 1 := by
    refine ⟨(if strlen (c :: name) ≤ (getDir b j).dNamlen.toNat then (getDir b j).dNamlen.toNat
      else strlen (c :: name)) - 1, ?_⟩
    have hpos : 0 < strlen (c :: name) := by simp [strlen]
    split <;> omega
  obtain ⟨n, hn⟩ := hlen
  unfold nameMatch at h
  dsimp only at h
  rw [hn] at h
  have := strncmpEq_head h
  rw [initial_getDir]
  simpa using this.symm

theorem nameMatch_nil {b : Block} {j : Nat} (h : nameMatch [] b j = true)
    (hn : (getDir b j).dNamlen ≠ 0) : (getDir b j).initial = 0 := by
  have hpos : (getDir b j).dNamlen.toNat ≠ 0 := fun h0 => hn (UInt16.toNat_inj.mp h0)
  obtain ⟨n, hlen⟩ : ∃ n, (getDir b j).dNamlen.toNat = n + 1 := Nat.exists_eq_succ_of_ne_zero hpos
  unfold nameMatch at h
  dsimp only at h
  rw [if_pos (show strlen [] ≤ _ from Nat.zero_le _), hlen] at h
  have := strncmpEq_head h
  rw [initial_getDir]
  simpa using this.symm

end ArmKernel.Fs
