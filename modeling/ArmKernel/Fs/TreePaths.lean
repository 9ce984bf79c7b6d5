import ArmKernel.Fs.Paths
import ArmKernel.Fs.Reclaim
import ArmKernel.Fs.Rooted
import Mathlib.Data.List.Find

/-! Paths in the tree of directories, apart from where it is stored. The walks of
the kernel find in a volume what the tree has. -/
namespace ArmKernel.Fs

open Lib Lib.Bytes SuperBlock

def DirEnt.answers (e : DirEnt) (name : CStr) : Bool :=
  strncmpEq (fun k => name.getD k 0) (fun k => e.dName.toList.getD k 0) 0 (max (strlen name) e.dNamlen.toNat)

namespace Shape

/-- The number in the first entry that answers to the name. A last block that is
full is not looked at. -/
def lookup (S : Shape) (D : UInt32) (name : CStr) : UInt32 :=
  (((List.range (scanLimit (S.count D))).find? fun e => (S.entry D e).answers name).map fun e =>
    (S.entry D e).dIno).getD noAddr

def walk (S : Shape) : UInt32 → List CStr → UInt32
  | i, [] => i
  | i, name :: rest => if i = noAddr then noAddr else walk S (S.lookup i name) rest

/-- Every component but the last that is found is a directory. -/
def Along (S : Shape) : UInt32 → List CStr → Prop
  | _, [] => True
  | i, name :: rest => i ≠ noAddr → S.Dir i ∧ Along S (S.lookup i name) rest

end Shape

section

variable {S S' : Shape} {i D : UInt32} {name : CStr} {names : List CStr}

theorem Shape.Same.lookup (h : S.Same S') (hD : S.Dir D) (name : CStr) : S'.lookup D name = S.lookup D name := by
  have hentry : ∀ e ∈ List.range (scanLimit (S.count D)), S'.entry D e = S.entry D e := fun e he =>
    h.entry D e hD (lt_of_lt_of_le (List.mem_range.mp he) (scanLimit_le _))
  unfold Shape.lookup
  rw [h.count D hD]
  have hfind : (List.range (scanLimit (S.count D))).find? (fun e => (S'.entry D e).answers name) =
      (List.range (scanLimit (S.count D))).find? fun e => (S.entry D e).answers name :=
    List.find?_congr fun e he => by rw [hentry e he]
  rw [hfind]
  cases hfound : (List.range (scanLimit (S.count D))).find? fun e => (S.entry D e).answers name with
  | none => rfl
  | some e => simp [hentry e (List.mem_of_find?_eq_some hfound)]

theorem Shape.Same.walk (h : S.Same S') (ha : S.Along i names) : S'.walk i names = S.walk i names := by
  induction names generalizing i with
  | nil => rfl
  | cons name rest ih =>
    rw [Shape.walk, Shape.walk]
    split
    · rfl
    · next hi =>
      obtain ⟨hD, hrest⟩ := ha hi
      rw [h.lookup hD]
      exact ih hrest

theorem Shape.Same.along (h : S.Same S') (ha : S.Along i names) : S'.Along i names := by
  induction names generalizing i with
  | nil => trivial
  | cons name rest ih =>
    intro hi
    obtain ⟨hD, hrest⟩ := ha hi
    rw [h.lookup hD]
    exact ⟨h.dir.mpr hD, ih hrest⟩

end

/-! Up from a directory. -/

/-- The byte behind the name of a `.`, which nothing writes. -/
def DirEnt.second (e : DirEnt) : UInt8 := e.dName[1]

section

variable {S : Shape} {D i : UInt32} {e : DirEnt}

theorem DirEnt.getD_initial (e : DirEnt) : e.dName.toList.getD 0 0 = e.initial := by
  simp [DirEnt.initial]

theorem DirEnt.getD_second (e : DirEnt) : e.dName.toList.getD 1 0 = e.second := by
  simp [DirEnt.second]

theorem DirEnt.initial_of_answers {c : UInt8} {rest : CStr} (h : e.answers (c :: rest) = true) : e.initial = c := by
  have hfirst := (strncmpEq_iff _ _ _ _).mp h 0 (by simp [strlen]) fun j hj => absurd hj (by omega)
  rw [Nat.add_zero, e.getD_initial] at hfirst
  exact hfirst.symm

theorem DirEnt.answers_dots_iff (hlen : e.dNamlen.toNat ≤ 2) :
    e.answers [dot, dot] = true ↔ e.initial = dot ∧ e.second = dot := by
  have hmax : max (strlen [dot, dot]) e.dNamlen.toNat = 2 := max_eq_left hlen
  rw [DirEnt.answers, hmax, strncmpEq_iff]
  constructor
  · intro h
    have h0 := h 0 (by omega) fun j hj => absurd hj (by omega)
    have h1 := h 1 (by omega) fun j hj => by
      obtain rfl : j = 0 := by omega
      decide
    rw [Nat.add_zero, e.getD_initial] at h0
    rw [Nat.zero_add, e.getD_second] at h1
    exact ⟨h0.symm, h1.symm⟩
  · rintro ⟨h0, h1⟩ k hk -
    obtain rfl | rfl : k = 0 ∨ k = 1 := by omega
    · rw [Nat.add_zero, e.getD_initial, h0]
      rfl
    · rw [Nat.zero_add, e.getD_second, h1]
      rfl

/-- `..` is not found when the first block is the last one and full, nor in the
root; and it is the directory itself when the byte behind the name of `.` is a
dot too. -/
theorem Tree.lookup_dots (h : Tree S) (hD : S.Dir D) : S.lookup D [dot, dot] =
    if S.count D = 16 then noAddr
    else if (S.entry D 0).second = dot then D
    else if D = rootDir then noAddr
    else (S.entry D 1).dIno := by
  have hself : (S.entry D 0).Is D [dot] := by
    by_cases hroot : D = rootDir
    · rw [hroot]
      exact h.rootDot.2
    · exact (h.dots D hD hroot).2.1
  have hdot : (S.entry D 0).answers [dot, dot] = true ↔ (S.entry D 0).second = dot := by
    rw [DirEnt.answers_dots_iff (by rw [hself.namlen]; decide), hself.initial]
    exact and_iff_right rfl
  have hcount : 1 ≤ S.count D := by
    by_cases hroot : D = rootDir
    · rw [hroot]
      exact h.rootDot.1
    · exact le_trans (by omega) (h.dots D hD hroot).1
  unfold Shape.lookup
  split
  · next h16 =>
    rw [h16]
    rfl
  · next h16 =>
    have hpos : 0 < scanLimit (S.count D) := by
      unfold scanLimit
      omega
    split
    · next hsecond =>
      have hfind : (List.range (scanLimit (S.count D))).find? (fun e => (S.entry D e).answers [dot, dot]) = some 0 :=
        List.find?_range_eq_some.mpr ⟨hdot.mpr hsecond, List.mem_range.mpr hpos, fun j hj => absurd hj (by omega)⟩
      rw [hfind]
      exact hself.ino
    · next hsecond =>
      have hzero : (S.entry D 0).answers [dot, dot] = false := by
        rw [Bool.eq_false_iff, Ne, hdot]
        exact hsecond
      split
      · next hroot =>
        rw [List.find?_eq_none.mpr]
        · rfl
        · intro e he hmatch
          have hlt := lt_of_lt_of_le (List.mem_range.mp he) (scanLimit_le _)
          obtain rfl := (h.plain D e hD hlt (DirEnt.initial_of_answers hmatch)).2 hroot
          rw [hzero] at hmatch
          cases hmatch
      · next hroot =>
        obtain ⟨h2, -, p, j, hup, -, -⟩ := h.dots D hD hroot
        have hone : (S.entry D 1).answers [dot, dot] = true := by
          refine (DirEnt.answers_dots_iff (by rw [hup.namlen]; decide)).mpr ⟨hup.initial, ?_⟩
          have hsecond := hup.name 1 (by simp)
          simpa [DirEnt.second] using hsecond
        have hlimit : 1 < scanLimit (S.count D) := by
          unfold scanLimit
          omega
        have hfind : (List.range (scanLimit (S.count D))).find? (fun e => (S.entry D e).answers [dot, dot]) = some 1 := by
          refine List.find?_range_eq_some.mpr ⟨hone, List.mem_range.mpr hlimit, fun j hj => ?_⟩
          obtain rfl : j = 0 := by omega
          rw [hzero]
          rfl
        rw [hfind]
        rfl

theorem Rooted.not_self (h : Rooted S) {j : Nat} (hp : S.Proper D j) : (S.entry D j).dIno ≠ D := by
  have hreach := h.reach D hp.dir.live
  induction hreach generalizing j with
  | root => exact (h.tree.names _ _ hp).2
  | @entry D' j' hD' hp' ih =>
    intro hself
    obtain ⟨hDD, -⟩ := h.tree.once _ _ _ _ hp hp' hself
    exact ih hp' hDD

end

/-! The walks of the kernel. -/

theorem nameMatch_answers {name : CStr} (hlen : name.length ≤ 25) (b : Block) (j : Nat) :
    nameMatch name b j = (getDir b j).answers name := by
  have hbyte : ∀ k < 26, byte b (32*j + 6 + k) = (getDir b j).dName.toList.getD k 0 := by
    intro k hk
    simp [getDir, hk]
  rw [Bool.eq_iff_iff]
  unfold nameMatch DirEnt.answers
  dsimp only
  rw [← max_def]
  simp only [strncmpEq_iff, Nat.zero_add]
  refine forall_congr' fun k => forall_congr' fun _ => forall_congr' fun hnz => ?_
  -- the comparison ends at the end of the name
  have hk : k ≤ name.length := by
    by_contra hlt
    exact hnz name.length (by omega) (List.getD_eq_default _ _ (le_refl _))
  rw [hbyte k (by omega)]

section

variable {own : Owners} {v : Vol} {l : List UInt32} {i D : UInt32} {names : List CStr}

theorem Navigable.lookup_shape (h : Navigable own v l) (hD : (shape v.disk).Dir D) {name : CStr}
    (hlen : name.length ≤ 25) (inode : INode) :
    nameToIno v name (readInode v inode D) = (shape v.disk).lookup D name := by
  obtain ⟨hlt, hmode⟩ := mode_of_dir hD
  rw [readInode_eq h.good.acct.formatted hlt, nameToIno_find h.good.acct (h.maps hD.live) hmode]
  have hmatch : (fun e => nameMatch name (entryBlock v.disk (inodeAt v.disk D) e) (e % 16)) =
      fun e => ((shape v.disk).entry D e).answers name := by
    funext e
    exact nameMatch_answers hlen _ _
  dsimp only
  rw [hmatch]
  rfl

theorem Navigable.walk_shape (h : Navigable own v l) (hlen : ∀ t ∈ names, t.length ≤ 25)
    (hi : i = noAddr ∨ (shape v.disk).Live i) :
    (dirsAlong v i names ↔ (shape v.disk).Along i names) ∧
      (dirsAlong v i names → walkPath v i names = (shape v.disk).walk i names) := by
  induction names generalizing i with
  | nil => exact ⟨Iff.rfl, fun _ => rfl⟩
  | cons name rest ih =>
    by_cases hno : i = noAddr
    · refine ⟨iff_of_true (fun hi' => absurd hno hi') fun hi' => absurd hno hi', fun _ => ?_⟩
      rw [walkPath, if_pos hno, Shape.walk, if_pos hno]
    · have hlive := hi.resolve_left hno
      have hread : (readInode v ⟨0, 0, v.stkIc⟩ i).iIc.icMode = Mode.ifdir.code ↔ (shape v.disk).Dir i := by
        refine ⟨h.dir_of_read hlive, fun hD => ?_⟩
        rw [readInode_eq h.good.acct.formatted (lt_of_live hlive)]
        exact (mode_of_dir hD).2
      by_cases hD : (shape v.disk).Dir i
      · have hnext := h.lookup_shape hD (hlen name List.mem_cons_self) ⟨0, 0, v.stkIc⟩
        obtain ⟨hiff, hwalk⟩ := ih (fun t ht => hlen t (List.mem_cons_of_mem _ ht)) (h.lookup hD name ⟨0, 0, v.stkIc⟩)
        rw [hnext] at hiff hwalk
        constructor
        · rw [dirsAlong, Shape.Along, hnext, hread, hiff]
        · intro ha
          rw [walkPath, if_neg hno, Shape.walk, if_neg hno, hnext]
          have hrest := (ha hno).2
          rw [hnext] at hrest
          exact hwalk hrest
      · exact ⟨iff_of_false (fun ha => hD (hread.mp (ha hno).1)) fun ha => hD (ha hno).1,
          fun ha => absurd (hread.mp (ha hno).1) hD⟩

end

end ArmKernel.Fs
