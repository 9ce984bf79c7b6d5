import Mathlib.Data.List.Basic
import Mathlib.Logic.Function.Basic

/-! Characters in memory, from a pointer on. A list of characters that memory
begins with grows at its end, is turned around in place, and is measured up to
its terminator. -/
namespace ArmKernel.Lib.Strings

variable {α : Type} {str : Nat → α} {l : List α}

def Spells (str : Nat → α) (l : List α) : Prop := ∀ i c, l[i]? = some c → str i = c

theorem spells_nil (str : Nat → α) : Spells str [] := by
  intro i c h
  simp at h

theorem Spells.middle {r : List α} {c : α} (h : Spells str (l ++ c :: r)) : str l.length = c := by
  apply h
  simp

theorem Spells.unique {r : List α} (h : Spells str l) (h' : Spells str r) (hlen : l.length = r.length) : l = r := by
  apply List.ext_getElem hlen
  intro i hl hr
  rw [← h i l[i] (List.getElem?_eq_getElem hl), ← h' i r[i] (List.getElem?_eq_getElem hr)]

theorem Spells.put (h : Spells str l) (c : α) : Spells (Function.update str l.length c) (l ++ [c]) := by
  intro i d hd
  rcases Nat.lt_trichotomy i l.length with hi | rfl | hi
  · rw [List.getElem?_append_left hi] at hd
    rw [Function.update_of_ne (Nat.ne_of_lt hi), h i d hd]
  · simp only [List.getElem?_concat_length, Option.some.injEq] at hd
    rw [Function.update_self, hd]
  · rw [List.getElem?_eq_none (by rw [List.length_append, List.length_singleton]; exact hi)] at hd
    cases hd

/-! Reversal in place. -/

def swap (str : Nat → α) (i j : Nat) : Nat → α := Function.update (Function.update str i (str j)) j (str i)

theorem swap_apply (str : Nat → α) (i j m : Nat) :
    swap str i j m = if m = j then str i else if m = i then str j else str m := by
  unfold swap
  rw [Function.update_apply, Function.update_apply]

/-- The first `n` swaps of the characters in front of `c` with those at the other
end. -/
def swaps (str : Nat → α) (c n : Nat) : Nat → α := (List.range n).foldl (fun str i => swap str i (c - i - 1)) str

theorem swaps_succ (str : Nat → α) (c n : Nat) : swaps str c (n + 1) = swap (swaps str c n) n (c - n - 1) := by
  simp [swaps, List.range_succ, List.foldl_append]

theorem swaps_apply {c n m : Nat} (hn : n ≤ (c - 1) / 2 + 1) (hm : m < c) :
    swaps str c n m = if m < n ∨ c ≤ m + n then str (c - 1 - m) else str m := by
  induction n generalizing m with
  | zero =>
    rw [if_neg (by omega)]
    rfl
  | succ n ih =>
    have hle : n ≤ (c - 1) / 2 + 1 := by omega
    rw [swaps_succ, swap_apply]
    by_cases hend : m = c - n - 1
    · rw [if_pos hend, ih hle (by omega), if_neg (by omega), if_pos (by omega)]
      congr 1
      omega
    · rw [if_neg hend]
      by_cases hstart : m = n
      · rw [if_pos hstart, ih hle (by omega), if_neg (by omega), if_pos (by omega)]
        congr 1
        omega
      · rw [if_neg hstart, ih hle hm]
        have hiff : (m < n + 1 ∨ c ≤ m + (n + 1)) ↔ (m < n ∨ c ≤ m + n) := by omega
        simp only [hiff]

theorem Spells.reverse (h : Spells str l) : Spells (swaps str l.length ((l.length - 1) / 2 + 1)) l.reverse := by
  intro i c hc
  obtain ⟨hi, -⟩ := List.getElem?_eq_some_iff.mp hc
  rw [List.length_reverse] at hi
  rw [swaps_apply (Nat.le_refl _) hi, if_pos (by omega)]
  apply h
  rw [List.getElem?_reverse hi] at hc
  exact hc

/-! Terminated strings. -/

section

variable {str : Nat → UInt8} {l r : List UInt8} {fuel : Nat}

def strlenLoop (str : Nat → UInt8) : Nat → Nat → Option Nat
  | 0, _ => none
  | fuel + 1, i => if str i = 0 then some i else strlenLoop str fuel (i + 1)

def strlen (fuel : Nat) (str : Nat → UInt8) : Option Nat := strlenLoop str fuel 0

theorem Spells.strlenLoop (h : Spells str (l ++ (r ++ [0]))) (hplain : 0 ∉ r) (hfuel : r.length < fuel) :
    Strings.strlenLoop str fuel l.length = some (l.length + r.length) := by
  induction r generalizing l fuel with
  | nil =>
    obtain ⟨fuel, rfl⟩ := Nat.exists_eq_add_one_of_ne_zero (show fuel ≠ 0 by omega)
    rw [Strings.strlenLoop, if_pos h.middle]
    rfl
  | cons c r ih =>
    obtain ⟨fuel, rfl⟩ := Nat.exists_eq_add_one_of_ne_zero (show fuel ≠ 0 by omega)
    have hc : str l.length ≠ 0 := by
      rw [Spells.middle h]
      rintro rfl
      exact hplain List.mem_cons_self
    rw [Strings.strlenLoop, if_neg hc]
    have := ih (l := l ++ [c]) (by simpa using h) (fun hr => hplain (List.mem_cons_of_mem _ hr))
      (Nat.lt_of_succ_lt_succ hfuel)
    rw [List.length_append, List.length_singleton] at this
    rw [this, List.length_cons]
    congr 1
    omega

theorem Spells.strlen (h : Spells str (l ++ [0])) (hplain : 0 ∉ l) (hfuel : l.length < fuel) :
    Strings.strlen fuel str = some l.length := by
  have := Spells.strlenLoop (l := []) h hplain hfuel
  rw [List.length_nil, Nat.zero_add] at this
  exact this

end

end ArmKernel.Lib.Strings
