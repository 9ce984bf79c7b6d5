import Mathlib.Data.List.Perm.Basic
import Mathlib.Data.List.GetD

/-! Deleting from an unordered array: the last element goes to the place of the
deleted one, and the array gets shorter by one. -/
namespace ArmKernel.Lib.SwapDelete

open scoped List

variable {α : Type}

def swapDelete (l : List α) (e : Nat) (last : α) : List α := (l.set e last).dropLast

@[simp] theorem length_swapDelete (l : List α) (e : Nat) (last : α) :
    (swapDelete l e last).length = l.length - 1 := by
  simp [swapDelete]

theorem swapDelete_map_range (f : Nat → α) (n e : Nat) :
    swapDelete ((List.range n).map f) e (f (n - 1)) = (List.range (n - 1)).map fun i => f (if i = e then n - 1 else i) := by
  refine List.ext_getElem (by simp) fun i hi hi' => ?_
  rw [length_swapDelete, List.length_map, List.length_range] at hi
  simp only [swapDelete, List.getElem_dropLast, List.getElem_set, List.getElem_map, List.getElem_range]
  by_cases h : i = e
  · rw [if_pos h.symm, if_pos h]
  · rw [if_neg (Ne.symm h), if_neg h]

theorem swapDelete_perm {l : List α} {e : Nat} (he : e < l.length) {last : α}
    (hlast : l.getLast? = some last) : l.Perm (l[e] :: swapDelete l e last) := by
  obtain ⟨front, rfl⟩ : ∃ front, l = front ++ [last] := by
    rw [List.getLast?_eq_some_iff] at hlast
    exact hlast
  unfold swapDelete
  by_cases hin : e < front.length
  · have hset : ((front ++ [last]).set e last).dropLast = front.set e last := by
      rw [List.set_append_left _ _ hin, List.dropLast_concat]
    have hget : (front ++ [last])[e] = front[e] := List.getElem_append_left hin
    rw [hset, hget]
    calc front ++ [last]
      _ ~ last :: front := List.perm_append_singleton last front
      _ ~ last :: front[e] :: front.eraseIdx e := (List.getElem_cons_eraseIdx_perm hin).symm.cons last
      _ ~ front[e] :: last :: front.eraseIdx e := List.Perm.swap ..
      _ ~ front[e] :: front.set e last := (List.set_perm_cons_eraseIdx hin last).symm.cons _
  · have heq : e = front.length := by
      rw [List.length_append, List.length_singleton] at he
      omega
    subst heq
    have hset : ((front ++ [last]).set front.length last).dropLast = front := by
      rw [List.set_append_right _ _ (Nat.le_refl _), Nat.sub_self, List.set_cons_zero, List.dropLast_concat]
    rw [hset, List.getElem_concat_length rfl]
    exact List.perm_append_singleton last front

end ArmKernel.Lib.SwapDelete
