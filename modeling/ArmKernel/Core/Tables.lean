import ArmKernel.Core.Reset
import ArmKernel.Core.Signals
import ArmKernel.Fs.Allocator
import ArmKernel.Lib.Refs
import ArmKernel.Lib.Run

/-! The three tables behind a descriptor. An `fd` entry points to an open file,
an open file points to an active inode, and an active inode counts the open
files that point to it; the calls that use descriptors keep this so. -/
namespace ArmKernel.Core

open Lib Lib.Bytes Lib.Run Fs SuperBlock

/-! Growth touches neither the number, the mode nor the link count. -/

def SameFile (x y : INode) : Prop :=
  y.iNumber = x.iNumber ∧ y.iLinks = x.iLinks ∧ y.iIc.icMode = x.iIc.icMode

theorem SameFile.refl (x : INode) : SameFile x x := ⟨rfl, rfl, rfl⟩

theorem SameFile.trans {x y z : INode} (h : SameFile x y) (h' : SameFile y z) : SameFile x z :=
  ⟨h'.1.trans h.1, h'.2.1.trans h.2.1, h'.2.2.trans h.2.2⟩

def Remapped (x y : INode) : Prop := SameFile x y ∧ y.iIc.icSize = x.iIc.icSize

theorem Remapped.refl (x : INode) : Remapped x x := ⟨.refl x, rfl⟩

theorem Remapped.trans {x y z : INode} (h : Remapped x y) (h' : Remapped y z) : Remapped x z :=
  ⟨h.1.trans h'.1, h'.2.trans h.2⟩

theorem rootAddr_remapped {v v' : Vol} {inode inode' : INode} {range : Nat} {fresh : Bool}
    {taddr : UInt32} (h : rootAddr v inode range fresh = (taddr, inode', v')) :
    Remapped inode inode' := by
  unfold rootAddr at h
  split at h
  · dsimp only at h
    split at h <;> cases h <;> exact ⟨⟨rfl, rfl, rfl⟩, rfl⟩
  · cases h
    exact .refl inode

theorem storeSingle_remapped (v : Vol) (inode : INode) (blk : Nat) (addr : UInt32) :
    Remapped inode (storeSingle v inode blk addr).2.1 := by
  unfold storeSingle
  split
  next hr =>
  split <;> exact rootAddr_remapped hr

theorem storeDouble_remapped (v : Vol) (inode : INode) (blk : Nat) (addr : UInt32) :
    Remapped inode (storeDouble v inode blk addr).2.1 := by
  unfold storeDouble
  split
  next hr =>
  split
  · exact rootAddr_remapped hr
  · dsimp only
    split <;> exact rootAddr_remapped hr

theorem storeTriple_remapped (v : Vol) (inode : INode) (blk : Nat) (addr : UInt32) :
    Remapped inode (storeTriple v inode blk addr).2.1 := by
  unfold storeTriple
  split
  next hr =>
  split
  · exact rootAddr_remapped hr
  · dsimp only
    split
    · exact rootAddr_remapped hr
    · split <;> exact rootAddr_remapped hr

theorem allocateDataBlockAddr_remapped (v : Vol) (inode : INode) (byte : UInt32) :
    Remapped inode (allocateDataBlockAddr v inode byte).2.1 := by
  unfold allocateDataBlockAddr
  dsimp only
  split
  · exact .refl inode
  · split
    · exact ⟨⟨rfl, rfl, rfl⟩, rfl⟩
    · split
      · exact storeSingle_remapped ..
      · split
        · exact storeDouble_remapped ..
        · split
          · exact storeTriple_remapped ..
          · exact .refl inode

theorem allocateLoop_remapped (count i : Nat) (v : Vol) (inode : INode) :
    Remapped inode (allocateLoop count i v inode).2.1 := by
  induction count generalizing i v inode with
  | zero => exact .refl inode
  | succ count ih =>
    have hone := allocateDataBlockAddr_remapped v inode (UInt32.ofNat (i * 512))
    unfold allocateLoop
    dsimp only
    split
    · exact hone
    · exact hone.trans (ih _ _ _)

theorem allocateDataBlocks_sameFile (v : Vol) (inode : INode) (bytes : UInt32) :
    SameFile inode (allocateDataBlocks v inode bytes).2.1 := by
  have hloop := (allocateLoop_remapped
    ((inode.iIc.icSize + bytes).toNat / 512 - inode.iIc.icSize.toNat / 512)
    (inode.iIc.icSize.toNat / 512 + 1) v inode).1
  unfold allocateDataBlocks
  dsimp only
  split
  · next he => rwa [he] at hloop
  · next he =>
    rw [he] at hloop
    exact hloop

/-! The invariant. -/

def Active (k : Kernel) (s : Fin 128) : Prop := (k.ai s).iIc.icMode ≠ Mode.ifzero.code

instance (k : Kernel) (s : Fin 128) : Decidable (Active k s) := inferInstanceAs (Decidable (_ ≠ _))

def inptr (k : Kernel) (o : Fin 128) : Option (Fin 128) := (k.of o).oInptr

structure Tables (k : Kernel) : Prop where
  links : ∀ s, (k.ai s).iLinks.toNat = refs (inptr k) s
  active : ∀ o s, inptr k o = some s → Active k s
  unique : ∀ s t, Active k s → Active k t → (k.ai s).iNumber = (k.ai t).iNumber → s = t
  opened : ∀ p i o, (k.pcb p).fd i = some o → inptr k o ≠ none
  single : ∀ p i q j o, (k.pcb p).fd i = some o → (k.pcb q).fd j = some o → p = q ∧ i = j
  idle : ∀ o, inptr k o = none → (k.of o).oHead = 0

/-- The counts, and the way from descriptors to open files. -/
structure Counted (k : Kernel) : Prop where
  links : ∀ s, (k.ai s).iLinks.toNat = refs (inptr k) s
  opened : ∀ p i o, (k.pcb p).fd i = some o → inptr k o ≠ none
  single : ∀ p i q j o, (k.pcb p).fd i = some o → (k.pcb q).fd j = some o → p = q ∧ i = j

theorem Tables.counted {k : Kernel} (h : Tables k) : Counted k := ⟨h.links, h.opened, h.single⟩

theorem Counted.of_same {k k' : Kernel} (h : Counted k) (hai : ∀ s, (k'.ai s).iLinks = (k.ai s).iLinks)
    (hof : ∀ o, inptr k' o = inptr k o)
    (hfd : ∀ p i o, (k'.pcb p).fd i = some o → (k.pcb p).fd i = some o) : Counted k' := by
  have hinptr : inptr k' = inptr k := funext hof
  refine ⟨fun s => ?_, fun p i o ho => ?_, fun p i q j o hp hq => ?_⟩
  · rw [hai, hinptr]
    exact h.links s
  · rw [hinptr]
    exact h.opened p i o (hfd p i o ho)
  · exact h.single p i q j o (hfd p i o hp) (hfd q j o hq)

theorem Tables.of_same {k k' : Kernel} (h : Tables k) (hai : ∀ s, SameFile (k.ai s) (k'.ai s))
    (hof : ∀ o, inptr k' o = inptr k o)
    (hidle : ∀ o, inptr k o = none → (k'.of o).oHead = (k.of o).oHead)
    (hfd : ∀ p i o, (k'.pcb p).fd i = some o → (k.pcb p).fd i = some o) : Tables k' := by
  have hinptr : inptr k' = inptr k := funext hof
  have hact : ∀ s, Active k' s ↔ Active k s := fun s => by rw [Active, (hai s).2.2, Active]
  have hcounted := h.counted.of_same (fun s => (hai s).2.1) hof hfd
  refine ⟨hcounted.links, fun o s hs => ?_, fun s t hs ht hn => ?_, hcounted.opened, hcounted.single,
    fun o ho => ?_⟩
  · rw [hinptr] at hs
    exact (hact s).mpr (h.active o s hs)
  · rw [(hai s).1, (hai t).1] at hn
    exact h.unique s t ((hact s).mp hs) ((hact t).mp ht) hn
  · rw [hinptr] at ho
    rw [hidle o ho]
    exact h.idle o ho

theorem Tables.setVol {k : Kernel} (h : Tables k) (v : Vol) : Tables { k with vol := v } :=
  h.of_same (fun _ => .refl _) (fun _ => rfl) (fun _ _ => rfl) fun _ _ _ ho => ho

theorem Tables.enter {k : Kernel} (h : Tables k) (p : Fin 8) : Tables { k with current := p } :=
  h.of_same (fun _ => .refl _) (fun _ => rfl) (fun _ _ => rfl) fun _ _ _ ho => ho

theorem Tables.setVolume {k : Kernel} (h : Tables k) (v : Vol) (cwd : UInt32) :
    Tables { k with vol := v, cwd := cwd } :=
  h.of_same (fun _ => .refl _) (fun _ => rfl) (fun _ _ => rfl) fun _ _ _ ho => ho

theorem Tables.setRunning {k : Kernel} (h : Tables k) (p : Fin 8) (ctx : Ctx) (n : Nat) :
    Tables { k with current := p, ctx := ctx, rqSize := n } :=
  h.of_same (fun _ => .refl _) (fun _ => rfl) (fun _ _ => rfl) fun _ _ _ ho => ho

theorem Tables.setHead {k : Kernel} (h : Tables k) {o s : Fin 128} (hs : inptr k o = some s)
    (head : UInt32) : Tables { k with of := Function.update k.of o ⟨some s, head⟩ } := by
  refine h.of_same (fun _ => .refl _) (fun o' => ?_) (fun o' hn => ?_) fun _ _ _ hfd => hfd
  · by_cases he : o' = o
    · subst he
      simp [inptr] at hs ⊢
      exact hs.symm
    · simp [inptr, he]
  · have he : o' ≠ o := by
      rintro rfl
      simp [hs] at hn
    simp [he]

/-! Claiming an active inode. -/

theorem find_finRange_some {n : Nat} {p : Fin n → Bool} {i : Fin n}
    (h : (List.finRange n).find? p = some i) : p i = true := List.find?_some h

theorem find_finRange_none {n : Nat} {p : Fin n → Bool} (h : (List.finRange n).find? p = none)
    (i : Fin n) : ¬p i = true := by
  rw [List.find?_eq_none] at h
  exact h i (List.mem_finRange i)

/-- The result of `getAIT`: nothing when all slots are in use, an active slot of that number, or an idle
slot the inode was read into. -/
theorem getAIT_cases (k : Kernel) (ino : UInt32) :
    (getAIT k ino = (none, k) ∧ ∀ s, Active k s) ∨
    (∃ s, getAIT k ino = (some s, k) ∧ (k.ai s).iNumber = ino ∧ Active k s) ∨
    ∃ s, getAIT k ino = (some s, { k with
        ai := Function.update k.ai s (readInode k.vol (k.ai s) ino) }) ∧ ¬Active k s ∧
      ∀ t, Active k t → (k.ai t).iNumber ≠ ino := by
  unfold getAIT
  split
  · next s hs =>
    have := find_finRange_some hs
    simp only [Bool.and_eq_true, beq_iff_eq, bne_iff_ne] at this
    exact .inr (.inl ⟨s, rfl, this⟩)
  · next hnone =>
    split
    · next s hs =>
      have := find_finRange_some hs
      refine .inr (.inr ⟨s, rfl, ?_, fun t ht hn => ?_⟩)
      · simpa [Active] using this
      · refine find_finRange_none hnone t ?_
        simp only [Bool.and_eq_true, beq_iff_eq, bne_iff_ne]
        exact ⟨hn, ht⟩
    · next hall =>
      refine .inl ⟨rfl, fun s hs => find_finRange_none hall s ?_⟩
      simpa using hs

theorem readInode_links (v : Vol) (inode : INode) (ino : UInt32) :
    (readInode v inode ino).iLinks = inode.iLinks := rfl

theorem readInode_number (v : Vol) (inode : INode) (ino : UInt32) :
    (readInode v inode ino).iNumber = ino := rfl

theorem Counted.load {k : Kernel} (h : Counted k) (s : Fin 128) (ino : UInt32) :
    Counted { k with ai := Function.update k.ai s (readInode k.vol (k.ai s) ino) } := by
  refine h.of_same (fun t => ?_) (fun _ => rfl) fun _ _ _ hfd => hfd
  by_cases hts : t = s
  · subst hts
    simp [readInode_links]
  · simp [hts]

theorem Tables.load {k : Kernel} (h : Tables k) {s : Fin 128} {ino : UInt32} (hs : ¬Active k s)
    (hnew : ∀ t, Active k t → (k.ai t).iNumber ≠ ino) :
    Tables { k with ai := Function.update k.ai s (readInode k.vol (k.ai s) ino) } := by
  have hactive : ∀ t, t ≠ s → (Active { k with
      ai := Function.update k.ai s (readInode k.vol (k.ai s) ino) } t ↔ Active k t) := by
    intro t ht
    simp [Active, ht]
  refine ⟨(h.counted.load s ino).links, fun o t ht => ?_, fun t u ht hu hn => ?_, h.opened, h.single, h.idle⟩
  · have hne : t ≠ s := fun he => hs (he ▸ h.active o t ht)
    exact (hactive t hne).mpr (h.active o t ht)
  · by_cases hts : t = s <;> by_cases hus : u = s
    · rw [hts, hus]
    · subst hts
      simp only [Function.update_self, readInode_number, Function.update_of_ne hus] at hn
      exact absurd hn.symm (hnew u ((hactive u hus).mp hu))
    · subst hus
      simp only [Function.update_self, readInode_number, Function.update_of_ne hts] at hn
      exact absurd hn (hnew t ((hactive t hts).mp ht))
    · simp only [Function.update_of_ne hts, Function.update_of_ne hus] at hn
      exact h.unique t u ((hactive t hts).mp ht) ((hactive u hus).mp hu) hn

theorem Tables.getAIT {k : Kernel} (h : Tables k) (ino : UInt32)
    (hmode : (readInode k.vol ⟨0, 0, k.vol.stkIc⟩ ino).iIc.icMode ≠ Mode.ifzero.code) :
    Tables (getAIT k ino).2 ∧ ∀ s, (getAIT k ino).1 = some s →
      Active (getAIT k ino).2 s ∧ ((getAIT k ino).2.ai s).iNumber = ino := by
  rcases getAIT_cases k ino with ⟨he, -⟩ | ⟨s, he, hn, ha⟩ | ⟨s, he, hidle, hnew⟩
  · rw [he]
    exact ⟨h, fun s hs => by simp at hs⟩
  · rw [he]
    refine ⟨h, fun t ht => ?_⟩
    cases ht
    exact ⟨ha, hn⟩
  · rw [he]
    refine ⟨h.load hidle hnew, fun t ht => ?_⟩
    cases ht
    refine ⟨?_, by simp [readInode_number]⟩
    simp only [Active, Function.update_self]
    exact hmode

/-! Linking and unlinking an open file. -/

theorem self_fd_update {k : Kernel} {i : Fin 16} {x : Option (Fin 128)} {p : Fin 8} {j : Fin 16} :
    ((k.setPcb k.current { k.self with fd := Function.update k.self.fd i x }).pcb p).fd j =
      if p = k.current ∧ j = i then x else (k.pcb p).fd j := by
  by_cases hp : p = k.current
  · subst hp
    by_cases hj : j = i
    · subst hj
      simp [Kernel.setPcb]
    · simp [Kernel.setPcb, hj, Kernel.self]
  · simp [Kernel.setPcb, hp]

theorem inptr_linkFile (k : Kernel) (i : Fin 16) (o s : Fin 128) :
    inptr (linkFile k i o s) = Function.update (inptr k) o (some s) := by
  funext o'
  by_cases h : o' = o
  · subst h
    simp [inptr, linkFile, Kernel.setPcb]
  · simp [inptr, linkFile, Kernel.setPcb, h]

theorem active_linkFile (k : Kernel) (i : Fin 16) (o s t : Fin 128) :
    (Active (linkFile k i o s) t ↔ Active k t) ∧
      ((linkFile k i o s).ai t).iNumber = (k.ai t).iNumber := by
  by_cases h : t = s
  · subst h
    simp [Active, linkFile, Kernel.setPcb]
  · simp [Active, linkFile, Kernel.setPcb, h]

theorem Counted.linkFile {k : Kernel} (h : Counted k) {i : Fin 16} {o : Fin 128} (ho : inptr k o = none)
    (s : Fin 128) : Counted (linkFile k i o s) := by
  have hin := inptr_linkFile k i o s
  have hfd : ∀ p j, ((Core.linkFile k i o s).pcb p).fd j =
      if p = k.current ∧ j = i then some o else (k.pcb p).fd j := fun p j => self_fd_update
  -- nobody's descriptor pointed to the entry just claimed
  have hfree : ∀ p j, (k.pcb p).fd j ≠ some o := fun p j hj => h.opened p j o hj ho
  refine ⟨fun t => ?_, fun p j o' hj => ?_, fun p j q l o' hp hq => ?_⟩
  · rw [hin]
    by_cases hts : t = s
    · subst hts
      rw [refs_point (by simp [ho]), ← h.links t]
      have hle : refs (inptr k) t ≤ 128 := by simpa using refs_le (f := inptr k) (s := t)
      have := h.links t
      simp only [Core.linkFile, Kernel.setPcb, Function.update_self, UInt32.toNat_add]
      simp
      omega
    · rw [refs_update_ne (by simp [ho]) (fun he => hts (Option.some.inj he).symm), ← h.links t]
      simp [Core.linkFile, Kernel.setPcb, hts]
  · rw [hfd] at hj
    rw [hin]
    split at hj
    · cases hj
      simp
    · have hoo : o' ≠ o := fun he => hfree p j (he ▸ hj)
      rw [Function.update_of_ne hoo]
      exact h.opened p j o' hj
  · rw [hfd] at hp hq
    split at hp <;> split at hq
    · next h1 h2 => exact ⟨h1.1.trans h2.1.symm, h1.2.trans h2.2.symm⟩
    · cases hp
      exact absurd hq (hfree q l)
    · cases hq
      exact absurd hp (hfree p j)
    · exact h.single p j q l o' hp hq

theorem Tables.linkFile {k : Kernel} (h : Tables k) {i : Fin 16} {o s : Fin 128}
    (ho : inptr k o = none) (hs : Active k s) : Tables (linkFile k i o s) := by
  have hin := inptr_linkFile k i o s
  have hact := active_linkFile k i o s
  have hcounted : Counted (Core.linkFile k i o s) := h.counted.linkFile ho s
  refine ⟨hcounted.links, fun o' t ht => ?_, fun t u ht hu hn => ?_, hcounted.opened, hcounted.single,
    fun o' hn => ?_⟩
  · rw [hin] at ht
    rw [(hact t).1]
    by_cases hoo : o' = o
    · subst hoo
      rw [Function.update_self] at ht
      exact Option.some.inj ht ▸ hs
    · rw [Function.update_of_ne hoo] at ht
      exact h.active o' t ht
  · rw [(hact t).2, (hact u).2] at hn
    exact h.unique t u ((hact t).1.mp ht) ((hact u).1.mp hu) hn
  · rw [hin] at hn
    have hoo : o' ≠ o := by
      rintro rfl
      simp at hn
    rw [Function.update_of_ne hoo] at hn
    simpa [Core.linkFile, Kernel.setPcb, hoo] using h.idle o' hn

/-- A call of `open` fails, having at most loaded an active inode, or links a
free descriptor, a free open file and an active inode. -/
theorem openFile_cases (k : Kernel) (path : CStr) (oflag : OFlag) {ino : UInt32} {v : Vol}
    {r : Option (Fin 128) × Kernel} (hv : resolve k.vol path oflag = (ino, v))
    (hr : getAIT { k with vol := v } ino = r) :
    (getFD k = none ∧ openFile k path oflag = (-1, k)) ∨
    (∃ i, getFD k = some i ∧ isNeg ino = true ∧
      openFile k path oflag = (-1, { k with vol := v })) ∨
    (∃ i, getFD k = some i ∧ isNeg ino = false ∧ openFile k path oflag = (-1, r.2)) ∨
    ∃ i s o, getFD k = some i ∧ isNeg ino = false ∧ r.1 = some s ∧
      getOFT r.2 = some o ∧ openFile k path oflag = ((i.val : Int), linkFile r.2 i o s) := by
  unfold openFile
  rw [hv]
  cases hfd : getFD k with
  | none => exact .inl ⟨rfl, rfl⟩
  | some i =>
    refine .inr ?_
    simp only [hr]
    cases hneg : isNeg ino with
    | true => exact .inl ⟨i, rfl, rfl, rfl⟩
    | false =>
      obtain ⟨_ | s, k'⟩ := r
      · exact .inr (.inl ⟨i, rfl, rfl, rfl⟩)
      · cases ho : getOFT k' with
        | none => exact .inr (.inl ⟨i, rfl, rfl, by simp [ho]⟩)
        | some o => exact .inr (.inr ⟨i, s, o, rfl, rfl, rfl, rfl, by simp [ho]⟩)

theorem getAIT_vol (k : Kernel) (ino : UInt32) :
    (getAIT k ino).2.vol = k.vol ∧ (getAIT k ino).2.cwd = k.cwd := by
  rcases getAIT_cases k ino with ⟨he, -⟩ | ⟨s, he, -⟩ | ⟨s, he, -⟩ <;> rw [he] <;> exact ⟨rfl, rfl⟩

theorem openFile_vol (k : Kernel) (path : CStr) (oflag : OFlag) :
    (openFile k path oflag).2.vol = (if getFD k = none then k.vol else (resolve k.vol path oflag).2) ∧
      (openFile k path oflag).2.cwd = k.cwd := by
  have hai := getAIT_vol { k with vol := (resolve k.vol path oflag).2 } (resolve k.vol path oflag).1
  rcases openFile_cases k path oflag rfl rfl with ⟨hi, he⟩ | ⟨i, hi, -, he⟩ | ⟨i, hi, -, he⟩ |
    ⟨i, s, o, hi, -, -, -, he⟩
  · rw [he, if_pos hi]
    exact ⟨rfl, rfl⟩
  · rw [he, if_neg (by simp [hi])]
    exact ⟨rfl, rfl⟩
  · rw [he, if_neg (by simp [hi])]
    exact hai
  · rw [he, if_neg (by simp [hi])]
    exact hai

/-- The inode number `open` resolves has a nonzero mode on disk. -/
def resolvesLive (k : Kernel) (path : CStr) (oflag : OFlag) : Prop :=
  match resolve k.vol path oflag with
  | (ino, v) => getFD k ≠ none → isNeg ino = false →
      (readInode v ⟨0, 0, v.stkIc⟩ ino).iIc.icMode ≠ Mode.ifzero.code

theorem getFD_some {k : Kernel} {i : Fin 16} (h : getFD k = some i) : k.self.fd i = none := by
  simpa using find_finRange_some h

theorem getOFT_some {k : Kernel} {o : Fin 128} (h : getOFT k = some o) : inptr k o = none := by
  simpa [inptr] using find_finRange_some h

theorem Tables.openFile {k : Kernel} (h : Tables k) {path : CStr} {oflag : OFlag}
    (hlive : resolvesLive k path oflag) : Tables (openFile k path oflag).2 := by
  unfold resolvesLive at hlive
  rcases hv : resolve k.vol path oflag with ⟨ino, v⟩
  rw [hv] at hlive
  rcases openFile_cases k path oflag hv rfl with ⟨-, he⟩ | ⟨i, hi, hn, he⟩ | ⟨i, hi, hn, he⟩ |
    ⟨i, s, o, hi, hn, hs, ho, he⟩
  · rw [he]
    exact h
  · rw [he]
    exact h.setVol v
  · rw [he]
    exact ((h.setVol v).getAIT ino (hlive (by simp [hi]) hn)).1
  · obtain ⟨ht, hgot⟩ := (h.setVol v).getAIT ino (hlive (by simp [hi]) hn)
    rw [he]
    exact ht.linkFile (getOFT_some ho) (hgot s hs).1

/-! `close`. -/

theorem fdEntry_some {k : Kernel} {fd : Int} {i : Fin 16} {o : Fin 128}
    (h : fdEntry k fd = some (i, o)) : fd = i.val ∧ (k.pcb k.current).fd i = some o := by
  unfold fdEntry at h
  split at h
  · next hr =>
    simp only [Option.map_eq_some_iff, Prod.mk.injEq] at h
    obtain ⟨o', ho', hi, rfl⟩ := h
    subst hi
    exact ⟨by simp; omega, ho'⟩
  · simp at h

theorem Tables.fdEntry {k : Kernel} (h : Tables k) {fd : Int} {i : Fin 16} {o : Fin 128}
    (he : fdEntry k fd = some (i, o)) : ∃ s, inptr k o = some s :=
  Option.ne_none_iff_exists'.mp (h.opened _ _ _ (fdEntry_some he).2)

theorem unlinkAit_eq (k : Kernel) (s : Fin 128) : ∃ v, unlinkAit k s = { k with
    vol := v
    ai := Function.update k.ai s { k.ai s with
      iLinks := (k.ai s).iLinks - 1
      iIc := { (k.ai s).iIc with icMode :=
        if (k.ai s).iLinks - 1 = 0 then Mode.ifzero.code else (k.ai s).iIc.icMode } } } := by
  unfold unlinkAit
  by_cases h0 : (k.ai s).iLinks - 1 = 0
  · exact ⟨writeInode k.vol { k.ai s with iLinks := 0 }, by simp [h0]⟩
  · exact ⟨k.vol, by simp [h0]⟩

/-- The tables after `close` of descriptor `i`, which led to `o` and `s`. -/
def unlinkFile (k : Kernel) (i : Fin 16) (o s : Fin 128) : Kernel :=
  let k := unlinkAit k s
  let k := { k with of := Function.update k.of o ⟨none, 0⟩ }
  k.setPcb k.current { k.self with fd := Function.update k.self.fd i none }

theorem close_eq {k : Kernel} {fd : Int} {i : Fin 16} {o s : Fin 128}
    (h : fdEntry k fd = some (i, o)) (hs : inptr k o = some s) :
    close k fd = (0, unlinkFile k i o s) := by
  simp only [inptr] at hs
  simp [close, h, hs, unlinkFile]

theorem toNat_pred {x : UInt32} (h : 0 < x.toNat) : (x - 1).toNat + 1 = x.toNat :=
  pred_toNat (UInt32.lt_iff_toNat_lt.mpr (by simpa using h))

theorem inptr_unlinkFile (k : Kernel) (i : Fin 16) (o s : Fin 128) :
    inptr (unlinkFile k i o s) = Function.update (inptr k) o none := by
  obtain ⟨v, he⟩ := unlinkAit_eq k s
  funext o'
  by_cases h' : o' = o
  · subst h'
    simp [inptr, unlinkFile, he, Kernel.setPcb]
  · simp [inptr, unlinkFile, he, Kernel.setPcb, h']

theorem fd_unlinkFile (k : Kernel) (i : Fin 16) (o s : Fin 128) (p : Fin 8) (j : Fin 16) :
    ((unlinkFile k i o s).pcb p).fd j = if p = k.current ∧ j = i then none else (k.pcb p).fd j := by
  obtain ⟨v, he⟩ := unlinkAit_eq k s
  simp only [unlinkFile, he]
  exact self_fd_update

theorem cwd_unlinkFile (k : Kernel) (i : Fin 16) (o s : Fin 128) : (unlinkFile k i o s).cwd = k.cwd := by
  obtain ⟨v, he⟩ := unlinkAit_eq k s
  simp [unlinkFile, he, Kernel.setPcb]

theorem vol_unlinkFile (k : Kernel) (i : Fin 16) (o s : Fin 128) :
    (unlinkFile k i o s).vol = if (k.ai s).iLinks - 1 = 0
      then writeInode k.vol { k.ai s with iLinks := (k.ai s).iLinks - 1 } else k.vol := by
  change (unlinkAit k s).vol = _
  unfold unlinkAit
  dsimp only
  split <;> rfl

theorem vol_unlinkFile_last {k : Kernel} {s : Fin 128} (h : (k.ai s).iLinks = 1) (i : Fin 16) (o : Fin 128) :
    (unlinkFile k i o s).vol = writeInode k.vol { k.ai s with iLinks := 0 } := by
  rw [vol_unlinkFile, h]
  rfl

theorem ai_unlinkFile (k : Kernel) (i : Fin 16) (o : Fin 128) {s t : Fin 128} (ht : t ≠ s) :
    (unlinkFile k i o s).ai t = k.ai t := by
  obtain ⟨v, he⟩ := unlinkAit_eq k s
  change (unlinkAit k s).ai t = k.ai t
  simp [he, ht]

theorem ai_unlinkFile_self (k : Kernel) (i : Fin 16) (o s : Fin 128) :
    ((unlinkFile k i o s).ai s).iNumber = (k.ai s).iNumber ∧
    ((unlinkFile k i o s).ai s).iLinks = (k.ai s).iLinks - 1 ∧
    ((unlinkFile k i o s).ai s).iIc.icMode =
      if (k.ai s).iLinks - 1 = 0 then Mode.ifzero.code else (k.ai s).iIc.icMode := by
  obtain ⟨v, he⟩ := unlinkAit_eq k s
  have hai : (unlinkFile k i o s).ai = (unlinkAit k s).ai := rfl
  rw [hai, he]
  simp only [Function.update_self]
  exact ⟨trivial, trivial, trivial⟩

theorem ai_unlinkFile_more {k : Kernel} {s : Fin 128} (h : (k.ai s).iLinks - 1 ≠ 0) (i : Fin 16) (o : Fin 128) :
    (unlinkFile k i o s).ai s = { k.ai s with iLinks := (k.ai s).iLinks - 1 } := by
  obtain ⟨v, he⟩ := unlinkAit_eq k s
  change (unlinkAit k s).ai s = _
  rw [he]
  simp only [Function.update_self, if_neg h]

theorem Counted.unlinkFile {k : Kernel} (h : Counted k) {i : Fin 16} {o s : Fin 128}
    (hi : (k.pcb k.current).fd i = some o) (hs : inptr k o = some s) : Counted (unlinkFile k i o s) := by
  have hin := inptr_unlinkFile k i o s
  have hfd := fd_unlinkFile k i o s
  refine ⟨fun t => ?_, fun p j o' hj => ?_, fun p j q l o' hp hq => ?_⟩
  · rw [hin]
    by_cases hts : t = s
    · subst hts
      have hlinks : (k.ai t).iLinks.toNat = refs (inptr k) t := h.links t
      have hclear := refs_clear hs
      have hpred := toNat_pred (x := (k.ai t).iLinks) (by omega)
      rw [(ai_unlinkFile_self k i o t).2.1]
      omega
    · rw [ai_unlinkFile k i o hts,
        refs_update_ne (by rw [hs]; exact fun hh => hts (Option.some.inj hh).symm) (by simp)]
      exact h.links t
  · rw [hfd] at hj
    split at hj
    · simp at hj
    · next hne =>
      have hoo : o' ≠ o := by
        rintro rfl
        exact hne (h.single p j k.current i o' hj hi)
      rw [hin, Function.update_of_ne hoo]
      exact h.opened p j o' hj
  · rw [hfd] at hp hq
    split at hp
    · simp at hp
    · split at hq
      · simp at hq
      · exact h.single p j q l o' hp hq

theorem not_active_unlinkFile {k : Kernel} {s : Fin 128} (hlast : (k.ai s).iLinks - 1 = 0) (i : Fin 16)
    (o : Fin 128) : ¬Active (unlinkFile k i o s) s := by
  obtain ⟨-, -, hmode⟩ := ai_unlinkFile_self k i o s
  rw [Active, hmode, if_pos hlast]
  exact fun h => h rfl

theorem active_unlinkFile_cases {k : Kernel} {i : Fin 16} {o s t : Fin 128}
    (ht : Active (unlinkFile k i o s) t) :
    (t = s ∧ (k.ai s).iLinks - 1 ≠ 0 ∧
      (unlinkFile k i o s).ai t = { k.ai s with iLinks := (k.ai s).iLinks - 1 }) ∨
    (t ≠ s ∧ (unlinkFile k i o s).ai t = k.ai t ∧ Active k t) := by
  by_cases hts : t = s
  · subst hts
    have hlast : (k.ai t).iLinks - 1 ≠ 0 := fun hlast => not_active_unlinkFile hlast i o ht
    refine .inl ⟨rfl, hlast, ?_⟩
    obtain ⟨v, he⟩ := unlinkAit_eq k t
    change (unlinkAit k t).ai t = _
    rw [he]
    simp only [Function.update_self, if_neg hlast]
  · have hai := ai_unlinkFile k i o hts
    rw [Active, hai] at ht
    exact .inr ⟨hts, hai, ht⟩

theorem active_of_unlinkFile {k : Kernel} {i : Fin 16} {o s t : Fin 128} (hs : Active k s)
    (ht : Active (unlinkFile k i o s) t) : Active k t := by
  rcases active_unlinkFile_cases ht with ⟨hts, -⟩ | ⟨-, -, hact⟩
  · exact hts ▸ hs
  · exact hact

theorem Tables.unlinkFile {k : Kernel} (h : Tables k) {i : Fin 16} {o s : Fin 128}
    (hi : (k.pcb k.current).fd i = some o) (hs : inptr k o = some s) :
    Tables (unlinkFile k i o s) := by
  have hin := inptr_unlinkFile k i o s
  have hcounted : Counted (Core.unlinkFile k i o s) := h.counted.unlinkFile hi hs
  have hact : ∀ t, Active (Core.unlinkFile k i o s) t → Active k t := fun t =>
    active_of_unlinkFile (h.active o s hs)
  have hnum : ∀ t, ((Core.unlinkFile k i o s).ai t).iNumber = (k.ai t).iNumber := fun t => by
    by_cases hts : t = s
    · subst hts
      exact (ai_unlinkFile_self k i o t).1
    · rw [ai_unlinkFile k i o hts]
  refine ⟨hcounted.links, fun o' t ht => ?_, fun t u ht hu hn => ?_, hcounted.opened, hcounted.single,
    fun o' hn => ?_⟩
  · have hpos := refs_pos ht
    rw [← hcounted.links t] at hpos
    rw [hin] at ht
    have hoo : o' ≠ o := by
      rintro rfl
      simp at ht
    rw [Function.update_of_ne hoo] at ht
    by_cases hts : t = s
    · subst hts
      obtain ⟨-, hlinks, hmode⟩ := ai_unlinkFile_self k i o t
      have hne : ¬(k.ai t).iLinks - 1 = 0 := by
        intro hz
        rw [hlinks, hz] at hpos
        simp at hpos
      rw [Active, hmode, if_neg hne]
      exact h.active o' t ht
    · rw [Active, ai_unlinkFile k i o hts]
      exact h.active o' t ht
  · rw [hnum, hnum] at hn
    exact h.unique t u (hact t ht) (hact u hu) hn
  · obtain ⟨v, he⟩ := unlinkAit_eq k s
    rw [hin] at hn
    by_cases hoo : o' = o
    · subst hoo
      simp [Core.unlinkFile, he, Kernel.setPcb]
    · rw [Function.update_of_ne hoo] at hn
      have := h.idle o' hn
      simpa [Core.unlinkFile, he, Kernel.setPcb, hoo] using this

theorem Tables.close {k : Kernel} (h : Tables k) (fd : Int) : Tables (close k fd).2 := by
  cases he : Core.fdEntry k fd with
  | none => simpa [Core.close, he] using h
  | some io =>
    obtain ⟨i, o⟩ := io
    obtain ⟨s, hs⟩ := h.fdEntry he
    rw [close_eq he hs]
    exact h.unlinkFile (fdEntry_some he).2 hs

/-! The calls that use a descriptor. -/

theorem Tables.fwrite {k : Kernel} (h : Tables k) (fd : Int) (data : Nat → UInt8) (n : UInt32) :
    Tables (fwrite k fd data n).2 := by
  cases he : Core.fdEntry k fd with
  | none => simpa [Core.fwrite, he] using h
  | some io =>
    obtain ⟨i, o⟩ := io
    obtain ⟨s, hs⟩ := h.fdEntry he
    have hs' : (k.of o).oInptr = some s := hs
    simp only [Core.fwrite, he, hs']
    set g := if (k.ai s).iIc.icSize < (k.of o).oHead + n then
      allocateDataBlocks k.vol (k.ai s) ((k.of o).oHead + n - (k.ai s).iIc.icSize)
      else (0, k.ai s, k.vol) with hg
    have hsame : SameFile (k.ai s) g.2.1 := by
      rw [hg]
      split
      · exact allocateDataBlocks_sameFile ..
      · exact .refl _
    refine (h.setHead hs ((k.of o).oHead + n)).of_same (fun t => ?_)
      (fun _ => rfl) (fun _ _ => rfl) fun _ _ _ hfd => hfd
    by_cases ht : t = s
    · subst ht
      simpa using hsame
    · simp only [Function.update_of_ne ht]
      exact .refl _

/-! What the descriptor calls leave alone. -/

theorem fread_kernel (k : Kernel) (fd : Int) (n : UInt32) :
    ∃ of', (fread k fd n).2.2 = { k with of := of' } := by
  unfold fread
  split
  · exact ⟨k.of, rfl⟩
  · split
    · exact ⟨k.of, rfl⟩
    · dsimp only
      split
      · exact ⟨k.of, rfl⟩
      · exact ⟨_, rfl⟩

theorem lseek_kernel (k : Kernel) (fd : Int) (offset : UInt32) (whence : Option Whence) :
    ∃ of', (lseek k fd offset whence).2 = { k with of := of' } := by
  unfold lseek
  split
  · exact ⟨k.of, rfl⟩
  · exact ⟨k.of, rfl⟩
  · exact ⟨_, rfl⟩

theorem Tables.fread {k : Kernel} (h : Tables k) (fd : Int) (n : UInt32) :
    Tables (fread k fd n).2.2 := by
  cases he : Core.fdEntry k fd with
  | none => simpa [Core.fread, he] using h
  | some io =>
    obtain ⟨i, o⟩ := io
    obtain ⟨s, hs⟩ := h.fdEntry he
    have hs' : (k.of o).oInptr = some s := hs
    simp only [Core.fread, he, hs']
    split
    · exact h
    · exact h.setHead hs _

theorem Tables.lseek {k : Kernel} (h : Tables k) (fd : Int) (offset : UInt32)
    (whence : Option Whence) : Tables (lseek k fd offset whence).2 := by
  cases he : Core.fdEntry k fd with
  | none => simpa [Core.lseek, he] using h
  | some io =>
    obtain ⟨i, o⟩ := io
    obtain ⟨s, hs⟩ := h.fdEntry he
    cases whence with
    | none => simpa [Core.lseek, he] using h
    | some w =>
      have hs' : (k.of o).oInptr = some s := hs
      simp only [Core.lseek, he, hs']
      exact h.setHead hs _

theorem Tables.unlink {k : Kernel} (h : Tables k) (name : CStr) : Tables (unlink k name).2 := by
  unfold Core.unlink
  split
  · exact h
  · dsimp only
    split
    · exact h.setVol _
    · exact h

/-! Processes come and go without touching the open files. -/

theorem Tables.kill {k : Kernel} (h : Tables k) (pid : Int) (sig : Sig) : Tables (kill k pid sig) := by
  obtain ⟨pcb, rq, n, he, hp⟩ := kill_eq k pid sig
  rw [he]
  refine h.of_same (fun _ => .refl _) (fun _ => rfl) (fun _ _ => rfl) fun p i o ho => ?_
  rwa [← (hp p).2]

theorem rqAdd_tables (k : Kernel) (p : Fin 8) : (rqAdd k p).ai = k.ai ∧ (rqAdd k p).of = k.of ∧
    (rqAdd k p).pcb = k.pcb := by
  unfold rqAdd
  split <;> exact ⟨rfl, rfl, rfl⟩

theorem Tables.rqAdd {k : Kernel} (h : Tables k) (p : Fin 8) : Tables (rqAdd k p) := by
  obtain ⟨hai, hof, hpcb⟩ := rqAdd_tables k p
  refine h.of_same (fun s => ?_) (fun o => ?_) (fun o _ => ?_) fun q i o ho => ?_
  · rw [hai]
    exact .refl _
  · rw [inptr, hof, inptr]
  · rw [hof]
  · rwa [hpcb] at ho

theorem Tables.setPcb {k : Kernel} (h : Tables k) (p : Fin 8) (x : Pcb)
    (hx : ∀ i o, x.fd i = some o → (k.pcb p).fd i = some o) : Tables (k.setPcb p x) := by
  refine h.of_same (fun _ => .refl _) (fun _ => rfl) (fun _ _ => rfl) fun q i o ho => ?_
  by_cases hq : q = p
  · subst hq
    simp only [Kernel.setPcb, Function.update_self] at ho
    exact hx i o ho
  · simpa only [Kernel.setPcb, Function.update_of_ne hq] using ho

theorem Tables.fork {k : Kernel} (h : Tables k) : Tables (fork k).2 := by
  unfold Core.fork
  split
  · dsimp only
    exact (h.setPcb _ _ fun _ _ ho => by simpa using ho).rqAdd _
  · exact h

/-- `exec` opens its file under the name that is left of the path. -/
def execOk (k : Kernel) (path : CStr) : Prop :=
  pathToIno k.vol path rootDir ≠ noAddr → resolvesLive k (strtokCut path) .oexist

theorem Tables.getProgramEntry {k : Kernel} (h : Tables k) {path : CStr} (entry priority : UInt32)
    (hok : execOk k path) : Tables (getProgramEntry k path entry priority).2.2.2 := by
  unfold Core.getProgramEntry
  split
  · next hino =>
    have hopen := h.openFile (hok hino)
    dsimp only
    split
    · exact ((hopen.fread _ _).fread _ _).close _
    · exact hopen
  · exact h

theorem Tables.exec {k : Kernel} (h : Tables k) {path : CStr} (hok : execOk k path) :
    Tables (exec k path).2 := by
  have hentry := h.getProgramEntry (word k.vol.stkBlk 0) (word k.vol.stkBlk 1) hok
  unfold Core.exec
  dsimp only
  split
  · exact hentry
  · refine (hentry.setPcb _ _ fun i o ho => ?_).of_same (fun _ => .refl _) (fun _ => rfl)
      (fun _ _ => rfl) fun _ _ _ hfd => hfd
    simp [Pcb.zero] at ho

/-! `unlink` and the active inodes. -/

structure Idle (k : Kernel) : Prop where
  ai : ∀ s, (k.ai s).iLinks = 0 ∧ (k.ai s).iIc.icMode = Mode.ifzero.code
  of : ∀ o, k.of o = ⟨none, 0⟩
  fd : ∀ p i, (k.pcb p).fd i = none

theorem Idle.tables {k : Kernel} (h : Idle k) : Tables k := by
  have hnone : ∀ o, inptr k o = none := fun o => by rw [inptr, h.of]
  refine ⟨fun s => ?_, fun o s hs => ?_, fun s t hs => absurd (h.ai s).2 hs, fun p i o ho => ?_,
    fun p i q j o ho => ?_, fun o _ => by rw [h.of]⟩
  · rw [refs_eq_zero.mpr fun o => by simp [hnone], (h.ai s).1]
    rfl
  · rw [hnone] at hs
    cases hs
  · rw [h.fd] at ho
    cases ho
  · rw [h.fd] at ho
    cases ho

theorem links_idle {k : Kernel} (h : Tables k) {s : Fin 128} (hs : ¬Active k s) : (k.ai s).iLinks = 0 := by
  have hrefs : refs (inptr k) s = 0 := refs_eq_zero.mpr fun o ho => hs (h.active o s ho)
  apply UInt32.toNat_inj.mp
  rw [h.links s, hrefs]
  rfl

theorem Tables.idle_of_inactive {k : Kernel} (h : Tables k) (hidle : ∀ s, ¬Active k s) : Idle k := by
  have hnone : ∀ o, inptr k o = none := fun o => by
    cases ho : inptr k o with
    | none => rfl
    | some s => exact absurd (h.active o s ho) (hidle s)
  refine ⟨fun s => ⟨links_idle h (hidle s), not_not.mp (hidle s)⟩, fun o => ?_, fun p i => ?_⟩
  · have hin : (k.of o).oInptr = none := hnone o
    have hhead := h.idle o (hnone o)
    generalize k.of o = x at hin hhead
    obtain ⟨inptr, head⟩ := x
    rw [show inptr = none from hin, show head = 0 from hhead]
  · cases hi : (k.pcb p).fd i with
    | none => rfl
    | some o => exact absurd (hnone o) (h.opened p i o hi)

theorem find_finRange_zero {n : Nat} {p : Fin (n+1) → Bool} (h : p 0 = true) :
    (List.finRange (n+1)).find? p = some 0 := by
  rw [List.finRange_succ, List.find?_cons_of_pos h]

theorem Idle.first_fd {k : Kernel} (h : Idle k) : getFD k = some 0 :=
  find_finRange_zero (by simp [Kernel.self, h.fd])

theorem Idle.openFile {k : Kernel} (h : Idle k) {path : CStr} {oflag : OFlag} {ino : UInt32} {v : Vol}
    (hv : resolve k.vol path oflag = (ino, v)) (hneg : isNeg ino = false) :
    openFile k path oflag = (0, linkFile { k with
      vol := v, ai := Function.update k.ai 0 (readInode v (k.ai 0) ino) } 0 0 0) := by
  have hfd : getFD k = some 0 := h.first_fd
  have hait : getAIT { k with vol := v } ino = (some 0, { k with
      vol := v, ai := Function.update k.ai 0 (readInode v (k.ai 0) ino) }) := by
    unfold getAIT
    dsimp only
    have hnone : (List.finRange 128).find? (fun i => (k.ai i).iNumber == ino &&
        (k.ai i).iIc.icMode != Mode.ifzero.code) = none := by
      rw [List.find?_eq_none]
      intro i _
      simp [(h.ai i).2]
    rw [hnone]
    dsimp only
    rw [find_finRange_zero (by simp [(h.ai 0).2])]
  have hoft : getOFT { k with vol := v, ai := Function.update k.ai 0 (readInode v (k.ai 0) ino) } = some 0 :=
    find_finRange_zero (by simp [h.of])
  unfold Core.openFile
  simp only [hfd, hv, hneg, hait, hoft]
  rfl

theorem tables_boot (v : Vol) (link : Link) : Tables (boot v link) := by
  have hoff : Tables (powerOn v link) :=
    Idle.tables ⟨fun _ => ⟨rfl, rfl⟩, fun _ => rfl, fun _ _ => rfl⟩
  have hinit := hoff.setPcb 0 { Pcb.zero with
      ctx := { Ctx.zero with cpsr := 0x50, pc := link.entryInit, sp := link.tosInit }
      pst := .executing, defp := 1, prio := 1 } fun i o ho => by simp [Pcb.zero] at ho
  exact ((hinit.setRunning _ _ _).rqAdd 0).setVolume _ _

/-- A blank disk but for the inode of the root directory. -/
def rootVol : Vol := { fullVol with
  disk := Function.update fullVol.disk 2 (setIc zeroBlock 0
    ⟨Mode.ifdir.code, 32, Vector.replicate 11 0, Vector.replicate 3 0⟩) }

end ArmKernel.Core
