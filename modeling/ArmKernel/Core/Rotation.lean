import ArmKernel.Core.ReadyQueue

/-! `rq_rotate` as a rotation of the ready queue: it turns the queue until an
executing process is at the head, and nothing behind the queue is looked at. -/
namespace ArmKernel.Core

open Lib Lib.Slots Fs

def ExecutingAt (k : Kernel) (x : Option (Fin 8)) : Prop := ∃ p, x = some p ∧ (k.pcb p).pst = .executing

/-- The first turn after which an executing process is at the head. -/
structure FirstTurn (k : Kernel) (l : List (Fin 8)) (t : Nat) : Prop where
  pos : 1 ≤ t
  executing : ExecutingAt k l[t % l.length]?
  least : ∀ s, 1 ≤ s → s < t → ¬ExecutingAt k l[s % l.length]?

section

variable {k : Kernel} {l : List (Fin 8)}

theorem front_rotateOnce (h : Front k.rq l) (hsize : k.rqSize = l.length) (hne : l ≠ []) :
    Front (rotateOnce k).rq (l.rotate 1) ∧ ∀ i : Fin 8, l.length ≤ i.val → (rotateOnce k).rq i = k.rq i := by
  have hpos : 0 < l.length := List.length_pos_iff.mpr hne
  have hhead : (k.rq 0).isNone = false := by
    rw [h.cells 0 hpos]
    simpa using hpos
  have hlast : (if (k.rq 0).isNone = true then k.rqSize else k.rqSize - 1) = l.length - 1 := by
    rw [hhead, hsize]
    rfl
  have hturn : ∀ i : Fin 8, (rotateOnce k).rq i = rqTurn k.rq (l.length - 1) i := by
    intro i
    unfold rotateOnce
    rw [hlast]
  constructor
  · apply h.rotate
    intro i hi
    rw [hturn]
    unfold rqTurn
    by_cases hend : i.val + 1 = l.length
    · rw [if_pos (by omega), if_pos hend]
      rfl
    · rw [if_neg (by omega), if_neg hend]
      have hiff : (i.val < l.length - 1 ∧ i.val + 1 < 8) ↔ (i.val + 1 < l.length ∧ i.val + 1 < 8) := by omega
      simp only [hiff]
  · intro i hi
    rw [hturn]
    unfold rqTurn
    rw [if_neg (by omega), dif_neg (by omega)]

theorem head_rotateOnce (h : Front k.rq l) (hsize : k.rqSize = l.length) (hne : l ≠ []) :
    (rotateOnce k).rq 0 = l[1 % l.length]? := by
  have hpos : 0 < l.length := List.length_pos_iff.mpr hne
  rw [(front_rotateOnce h hsize hne).1.cells 0 (by simpa using hpos), Fin.val_zero, List.getElem?_rotate hpos, Nat.zero_add]

theorem FirstTurn.rotate {t : Nat} (h : FirstTurn k l (t + 2)) : FirstTurn (rotateOnce k) (l.rotate 1) (t + 1) := by
  refine ⟨by omega, ?_, fun s h1 hs => ?_⟩
  · rw [rotate_index]
    exact h.executing
  · rw [rotate_index]
    exact h.least (s + 1) (by omega) (by omega)

theorem rotateLoop_firstTurn {t : Nat} (h : Front k.rq l) (hsize : k.rqSize = l.length) (hne : l ≠ [])
    (ht : FirstTurn k l (t + 1)) :
    ∃ rq', (∀ fuel, t < fuel → rotateLoop fuel k = some { k with rq := rq' }) ∧ Front rq' (l.rotate (t + 1)) ∧
      ∀ i : Fin 8, l.length ≤ i.val → rq' i = k.rq i := by
  -- each call makes one turn and leaves the rest to a queue turned by one
  induction t generalizing k l with
  | zero =>
    obtain ⟨hfront, hrest⟩ := front_rotateOnce h hsize hne
    obtain ⟨p, hp, hex⟩ := ht.executing
    refine ⟨(rotateOnce k).rq, fun fuel hfuel => ?_, hfront, hrest⟩
    obtain ⟨fuel, rfl⟩ := Nat.exists_eq_add_one_of_ne_zero (show fuel ≠ 0 by omega)
    unfold rotateLoop
    dsimp only
    rw [head_rotateOnce h hsize hne, hp]
    exact if_neg (not_not_intro hex)
  | succ t ih =>
    obtain ⟨hfront, hrest⟩ := front_rotateOnce h hsize hne
    have hlt : 1 % l.length < l.length := Nat.mod_lt 1 (List.length_pos_iff.mpr hne)
    have hnot := ht.least 1 (le_refl 1) (by omega)
    rw [List.getElem?_eq_getElem hlt] at hnot
    obtain ⟨rq', hloop, hfront', hrest'⟩ := ih hfront (by rw [List.length_rotate]; exact hsize)
      (fun he => hne (List.rotate_eq_nil_iff.mp he)) ht.rotate
    refine ⟨rq', fun fuel hfuel => ?_, ?_, fun i hi => ?_⟩
    · obtain ⟨fuel, rfl⟩ := Nat.exists_eq_add_one_of_ne_zero (show fuel ≠ 0 by omega)
      unfold rotateLoop
      dsimp only
      rw [head_rotateOnce h hsize hne, List.getElem?_eq_getElem hlt]
      exact (if_pos fun hex => hnot ⟨_, rfl, hex⟩).trans (hloop fuel (by omega))
    · rw [List.rotate_rotate, show 1 + (t + 1) = t + 1 + 1 by omega] at hfront'
      exact hfront'
    · rw [hrest' i (by simpa using hi), hrest i hi]

/-- With an executing process in the queue there is a first turn, and it is no
later than the one that brings the queue back to where it was. -/
theorem exists_firstTurn (hex : ∃ p ∈ l, (k.pcb p).pst = .executing) : ∃ t ≤ l.length, FirstTurn k l t := by
  classical
  obtain ⟨p, hp, hpst⟩ := hex
  obtain ⟨i, hi⟩ := List.getElem?_of_mem hp
  have hlt := (List.getElem?_eq_some_iff.mp hi).1
  have hturn : ∃ t, 1 ≤ t ∧ ExecutingAt k l[t % l.length]? :=
    ⟨i + l.length, by omega, p, by rw [Nat.add_mod_right, Nat.mod_eq_of_lt hlt, hi], hpst⟩
  obtain ⟨hpos, hat⟩ := Nat.find_spec hturn
  refine ⟨Nat.find hturn, ?_, hpos, hat, fun s h1 hs hat' => Nat.find_min hturn hs ⟨h1, hat'⟩⟩
  by_cases h0 : i = 0
  · apply Nat.find_min' hturn
    refine ⟨by omega, p, ?_, hpst⟩
    rw [Nat.mod_self, ← h0, hi]
  · have hle : Nat.find hturn ≤ i := by
      apply Nat.find_min' hturn
      refine ⟨by omega, p, ?_, hpst⟩
      rw [Nat.mod_eq_of_lt hlt, hi]
    omega

end

/-- **`rq_rotate` rotates the queue by the least number of turns** that brings
an executing process to its head. It returns; the entries behind the queue and
everything else are as they were. -/
theorem rq_rotate_first_turn (k : Kernel) (l : List (Fin 8)) (hne : l ≠ []) (hfront : Front k.rq l)
    (hsize : k.rqSize = l.length) (hex : ∃ p ∈ l, (k.pcb p).pst = .executing) :
    ∃ t rq', FirstTurn k l t ∧ rqRotate k = some { k with rq := rq' } ∧
      (∀ fuel, t ≤ fuel → rotateLoop fuel k = some { k with rq := rq' }) ∧ Front rq' (l.rotate t) ∧
      ∀ i : Fin 8, l.length ≤ i.val → rq' i = k.rq i := by
  obtain ⟨t, hle, ht⟩ := exists_firstTurn hex
  obtain ⟨t, rfl⟩ := Nat.exists_eq_add_one_of_ne_zero (show t ≠ 0 by have := ht.pos; omega)
  obtain ⟨rq', hloop, hfront', hrest⟩ := rotateLoop_firstTurn hfront hsize hne ht
  have hfits := hfront.fits
  exact ⟨t + 1, rq', ht, hloop 8 (by omega), fun fuel hfuel => hloop fuel (by omega), hfront', hrest⟩

/-- Three processes, of which the second waits; a stale entry is behind them. -/
def staleQueue : Kernel :=
  let k := boot fullVol ⟨0, 0, fun _ => 0⟩
  { k with
    pcb := fun p => { k.pcb p with pst := if p = 1 then .waiting else .executing }
    rq := fun i => if i.val < 3 then some i else if i = 4 then some 2 else none
    rqSize := 3 }

theorem rq_rotate_skips_waiting : ∃ rq', rqRotate staleQueue = some { staleQueue with rq := rq' } ∧
    Front rq' [2, 0, 1] ∧ rq' 4 = some 2 := by
  obtain ⟨t, rq', ht, hrot, -, hfront, hrest⟩ := rq_rotate_first_turn staleQueue [0, 1, 2] (by decide)
    ⟨by decide, fun i hi => by
      have : ∀ i : Fin 8, i.val < 3 → (if i.val < 3 then some i else if i = 4 then some 2 else none) =
          ([0, 1, 2] : List (Fin 8))[i.val]? := by decide
      exact this i hi⟩ rfl ⟨0, by decide, rfl⟩
  refine ⟨rq', hrot, ?_, ?_⟩
  · have hle : ¬2 < t := fun hlt => ht.least 2 (by decide) hlt ⟨2, rfl, rfl⟩
    have hone : t ≠ 1 := by
      rintro rfl
      obtain ⟨p, hp, hex⟩ := ht.executing
      cases hp
      cases hex
    have hpos := ht.pos
    obtain rfl : t = 2 := by omega
    exact hfront
  · rw [hrest 4 (by decide)]
    rfl

end ArmKernel.Core
