import ArmKernel.Fs.FreeList
import ArmKernel.Lib.Run

/-! The allocator as a whole: any sequence of `balloc`, `bfree` and writes to
blocks in use behaves as a stack of addresses. -/
namespace ArmKernel.Fs

open Lib Lib.Bytes Lib.Run SuperBlock

inductive AllocCall where
  | balloc
  | bfree (a : UInt32)
  | diskWr (a : UInt32) (x : Block) (n : Nat)

/-- The value a call returns, if it is an address, and the volume after it. -/
def callVol (v : Vol) : AllocCall → Option UInt32 × Vol
  | .balloc => (some (balloc v).1, (balloc v).2)
  | .bfree a => (none, (bfree v a).2)
  | .diskWr a x n => (none, diskWr v a x n)

def callStack (l : List UInt32) : AllocCall → Option UInt32 × List UInt32
  | .balloc =>
    match l with
    | [] => (some noAddr, [])
    | a :: rest => (some a, rest)
  | .bfree a => (none, a :: l)
  | .diskWr _ _ _ => (none, l)

/-- A released block is a data block in use, and so is, with block 1 left
alone, a block written directly. -/
def callOk (l : List UInt32) : AllocCall → Prop
  | .balloc => True
  | .bfree a => DataBlock a ∧ a ∉ l
  | .diskWr a _ _ => a ∉ l ∧ a ≠ 1

structure Holds (v : Vol) (l : List UInt32) : Prop where
  formatted : Formatted v
  free : FreeList v.disk v.fs l

theorem afterAlloc_formatted {v : Vol} {fs : SuperBlock} (a : UInt32) (hf : Formatted v)
    (h : Header v.fs fs) : Formatted (afterAlloc v fs a) := hf.of_header rfl h

theorem diskWr_disk_ne (v : Vol) {a b : UInt32} (x : Block) (n : Nat) (h : b ≠ a) :
    (diskWr v a x n).disk b = v.disk b := by
  unfold diskWr
  split
  · exact Function.update_of_ne h _ _
  · rfl

theorem Holds.diskWr {v : Vol} {l : List UInt32} (h : Holds v l) {a : UInt32} (x : Block) (n : Nat)
    (ha : a ∉ l) : Holds (diskWr v a x n) l where
  formatted := h.formatted.of_header (diskWr_num ..) (by rw [diskWr_fs]; exact fun _ _ => rfl)
  free := by
    rw [diskWr_fs]
    exact h.free.frame fun b hb => diskWr_disk_ne v x n fun he => ha (he ▸ hb)

theorem call_step {v : Vol} {l : List UInt32} (h : Holds v l) (c : AllocCall) (hc : callOk l c) :
    (callVol v c).1 = (callStack l c).1 ∧ Holds (callVol v c).2 (callStack l c).2 := by
  cases c with
  | balloc =>
    cases l with
    | nil =>
      simp only [callVol, callStack, balloc_nil h.free]
      exact ⟨trivial, h.formatted.of_header rfl fun _ _ => rfl, h.free⟩
    | cons a rest =>
      obtain ⟨fs, hh, he, hl⟩ := balloc_cons h.formatted h.free
      simp only [callVol, callStack, he]
      exact ⟨trivial, afterAlloc_formatted a h.formatted hh, hl⟩
  | bfree a =>
    have hp := bfree_pushed h.formatted hc.1 h.free.head
    exact ⟨rfl, hp.formatted h.formatted, bfree_freeList h.formatted h.free hc.1 hc.2⟩
  | diskWr a x n => exact ⟨rfl, h.diskWr x n hc.1⟩

def writesSb (l : List UInt32) : AllocCall → Prop
  | .balloc => l ≠ []
  | .bfree _ => True
  | .diskWr _ _ _ => False

theorem synced_of_writesSb {v : Vol} {l : List UInt32} (h : Holds v l) (c : AllocCall)
    (hc : callOk l c) (hw : writesSb l c) : Synced (callVol v c).2 := by
  cases c with
  | balloc =>
    cases l with
    | nil => exact absurd rfl hw
    | cons a rest =>
      obtain ⟨fs, _, he, _⟩ := balloc_cons h.formatted h.free
      simp [callVol, he, Synced, afterAlloc]
  | bfree a => exact (bfree_pushed h.formatted hc.1 h.free.head).synced
  | diskWr a x n => exact hw.elim

theorem synced_step {v : Vol} {l : List UInt32} (h : Holds v l) (c : AllocCall) (hc : callOk l c)
    (hs : Synced v) : Synced (callVol v c).2 := by
  by_cases hw : writesSb l c
  · exact synced_of_writesSb h c hc hw
  · cases c with
    | balloc =>
      have hl : l = [] := by simpa [writesSb] using hw
      subst hl
      simp only [callVol, balloc_nil h.free]
      exact hs
    | bfree a => exact absurd trivial hw
    | diskWr a x n =>
      simp only [callVol, Synced, diskWr_fs]
      rw [diskWr_disk_ne v x n hc.2.symm]
      exact hs

theorem mount_of_synced {v : Vol} {l : List UInt32} (h : Holds v l) (hs : Synced v) :
    mount v = v := by
  have h1 : (1 : UInt32).toNat < v.num := by rw [h.formatted.num]; decide
  have he : diskRd v 1 v.fs = v.fs := (diskRd_lt v v.fs h1).trans hs
  simp [mount, he]

theorem calls_simulate {v : Vol} {l : List UInt32} (h : Holds v l) {calls : List AllocCall}
    (hc : Along (fun l c => (callStack l c).2) callOk l calls) :
    Holds (run (fun v c => (callVol v c).2) v calls) (run (fun l c => (callStack l c).2) l calls) :=
  simulation (R := Holds) (fun _ _ c hs hok => (call_step hs c hok).2) h hc

theorem calls_synced {v : Vol} {l : List UInt32} (h : Holds v l) {calls : List AllocCall}
    (hc : Along (fun l c => (callStack l c).2) callOk l calls) (hs : Synced v) :
    Synced (run (fun v c => (callVol v c).2) v calls) :=
  (simulation (R := fun v l => Holds v l ∧ Synced v)
    (fun _ _ c hr hok => ⟨(call_step hr.1 c hok).2, synced_step hr.1 c hok hr.2⟩) ⟨h, hs⟩ hc).2

/-- **The block allocator refines a stack.** After any admissible calls, one
more call `c` returns what the stack returns and leaves the volume describing
the stack after `c`; `balloc` returns -1 exactly on the empty stack and then
changes neither the superblock nor the disk; the superblock on disk is the one
in memory after every call that releases or hands out a block, and after every
other call if it was so at the start; and then a reset restores the stack. -/
theorem allocator_refines_stack (v : Vol) (l : List UInt32) (hf : Formatted v)
    (hl : FreeList v.disk v.fs l) (calls : List AllocCall) (c : AllocCall)
    (hc : Along (fun l c => (callStack l c).2) callOk l (calls ++ [c])) :
    let v₁ := run (fun v c => (callVol v c).2) v calls
    let l₁ := run (fun l c => (callStack l c).2) l calls
    let v₂ := (callVol v₁ c).2
    let l₂ := (callStack l₁ c).2
    FreeList v₁.disk v₁.fs l₁ ∧ FreeList v₂.disk v₂.fs l₂ ∧ (callVol v₁ c).1 = (callStack l₁ c).1 ∧
      (c = .balloc → ((callVol v₁ c).1 = some noAddr ↔ l₁ = []) ∧
        (l₁ = [] → v₂.fs = v₁.fs ∧ v₂.disk = v₁.disk)) ∧
      (Synced v ∨ writesSb l₁ c → Synced v₂ ∧ FreeList (mount v₂).disk (mount v₂).fs l₂) := by
  intro v₁ l₁ v₂ l₂
  obtain ⟨hcalls, hlast⟩ := (along_append [c]).mp hc
  have h₁ : Holds v₁ l₁ := calls_simulate ⟨hf, hl⟩ hcalls
  obtain ⟨hr, h₂⟩ := call_step h₁ c hlast.1
  refine ⟨h₁.free, h₂.free, hr, ?_, ?_⟩
  · rintro rfl
    refine ⟨?_, fun hnil => ?_⟩
    · rw [hr]
      cases hl₁ : l₁ with
      | nil => simp [callStack]
      | cons a rest =>
        have ha : a ≠ noAddr := (h₁.free.area a (by rw [hl₁]; exact List.mem_cons_self)).ne_noAddr
        simp [callStack, ha]
    · have hfree := h₁.free
      rw [hnil] at hfree
      simp [v₂, callVol, balloc_nil hfree, Vol.log]
  · intro hw
    have hs : Synced v₂ := by
      rcases hw with hs | hw
      · exact synced_step h₁ c hlast.1 (calls_synced ⟨hf, hl⟩ hcalls hs)
      · exact synced_of_writesSb h₁ c hlast.1 hw
    refine ⟨hs, ?_⟩
    rw [mount_of_synced h₂ hs]
    exact h₂.free

/-! A formatted volume with an empty free list on a blank disk. -/

def zeroBlock : Block := ofWords 512 fun _ => 0

def fullSb : SuperBlock := ofWords 512 fun i => [1, 2048, 2, 512, 66, 1982, 0, 1].getD i 0

def fullVol : Vol where
  fs := fullSb
  num := 2048
  disk := Function.update (fun _ => zeroBlock) 1 fullSb
  trace := []
  stkBlk := zeroBlock
  stkIc := getIc zeroBlock 0

theorem word_fullSb {i : Nat} (hi : i < 128) :
    word fullSb i = [1, 2048, 2, 512, 66, 1982, 0, 1].getD i 0 := word_ofWords _ (by omega)

theorem fullVol_formatted : Formatted fullVol where
  num := rfl
  sblkno := word_fullSb (by omega)
  size := word_fullSb (by omega)
  iblkno := word_fullSb (by omega)
  isize := word_fullSb (by omega)
  dblkno := word_fullSb (by omega)

theorem fullVol_free : FreeList fullVol.disk fullVol.fs [] := by
  have hhead : fsFdbhead fullVol.fs = 0 := word_fullSb (by omega)
  refine ⟨?_, by rw [hhead]; decide, List.nodup_nil, by simp⟩
  unfold FreeStack
  rw [hhead]
  exact Unrolled.Chain.last (word_fullSb (i := 7) (by omega))

/-- The same in memory, over a disk without a superblock. -/
def staleVol : Vol := { fullVol with disk := fun _ => zeroBlock }

/-- Neither a failed `balloc` nor a write to another block stores the
superblock. -/
theorem stale_superblock_stays : Formatted staleVol ∧ FreeList staleVol.disk staleVol.fs [] ∧
    callOk [] .balloc ∧ (callVol staleVol .balloc).2.disk 1 ≠ (callVol staleVol .balloc).2.fs ∧
    callOk [] (.diskWr 70 zeroBlock 512) ∧
    (callVol staleVol (.diskWr 70 zeroBlock 512)).2.disk 1 ≠ (callVol staleVol (.diskWr 70 zeroBlock 512)).2.fs := by
  have hfree : FreeList staleVol.disk staleVol.fs [] := fullVol_free.frame fun _ h => absurd h List.not_mem_nil
  have hne : zeroBlock ≠ fullSb := fun he => by
    have hword : word zeroBlock 0 = word fullSb 0 := by rw [he]
    rw [word_fullSb (by omega), zeroBlock, word_ofWords _ (by omega)] at hword
    exact absurd hword (by decide)
  refine ⟨fullVol_formatted.of_header rfl fun _ _ => rfl, hfree, trivial, ?_, ⟨List.not_mem_nil, by decide⟩, ?_⟩
  · simp only [callVol, balloc_nil hfree]
    exact hne
  · simp only [callVol, diskWr_fs]
    rw [diskWr_disk_ne _ _ _ (show (1 : UInt32) ≠ 70 by decide)]
    exact hne

theorem allocator_pops_last_freed :
    (callVol (run (fun v c => (callVol v c).2) fullVol [.bfree 70, .bfree 71, .balloc]) .balloc).1 =
      some 70 := by
  have h := allocator_refines_stack fullVol [] fullVol_formatted fullVol_free
    [.bfree 70, .bfree 71, .balloc] .balloc
    ⟨⟨by decide, by simp⟩, ⟨by decide, by decide⟩, trivial, trivial, trivial⟩
  exact h.2.2.1

end ArmKernel.Fs
