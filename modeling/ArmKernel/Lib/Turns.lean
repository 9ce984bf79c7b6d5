import Mathlib.Data.List.Rotate

/-! Turns in a queue. The queue is turned until an element that is ready stands
at its head; the elements it passes keep their order behind it. -/
namespace ArmKernel.Lib.Turns

variable {α : Type} {ready : α → Bool} {x y : α} {rest pre post l : List α}

/-- Those that are ready, in the order in which they come to the head. -/
def turnOrder (ready : α → Bool) (l : List α) : List α := (l.rotate 1).filter ready

theorem turnOrder_cons : turnOrder ready (x :: rest) = (rest ++ [x]).filter ready := by
  rw [turnOrder, List.rotate_cons_succ, List.rotate_zero]

structure Turn (ready : α → Bool) (x y : α) (rest pre post : List α) : Prop where
  split : rest ++ [x] = pre ++ y :: post
  passed : ∀ p ∈ pre, ready p = false
  ready : ready y = true

theorem Turn.order (h : Turn ready x y rest pre post) :
    turnOrder ready (x :: rest) = y :: post.filter ready := by
  have hpre : pre.filter ready = [] := List.filter_eq_nil_iff.mpr fun p hp => by simp [h.passed p hp]
  rw [turnOrder_cons, h.split, List.filter_append, hpre, List.nil_append, List.filter_cons_of_pos h.ready]

theorem Turn.order_after (h : Turn ready x y rest pre post) :
    turnOrder ready (y :: (post ++ pre)) = (turnOrder ready (x :: rest)).rotate 1 := by
  have hpre : pre.filter ready = [] := List.filter_eq_nil_iff.mpr fun p hp => by simp [h.passed p hp]
  rw [h.order, List.rotate_cons_succ, List.rotate_zero, turnOrder_cons, List.append_assoc, List.filter_append,
    List.filter_append, hpre, List.nil_append, List.filter_cons_of_pos h.ready, List.filter_nil]

def Cycles (order l : List α) : Prop := ∀ j < l.length, l[j]? = order[j % order.length]?

theorem Cycles.nil (order : List α) : Cycles order [] := fun _ hj => absurd hj (Nat.not_lt_zero _)

theorem Cycles.cons {order : List α} (h : Cycles (order.rotate 1) l) (hy : order[0]? = some y) :
    Cycles order (y :: l) := by
  have hpos : 0 < order.length := (List.getElem?_eq_some_iff.mp hy).1
  intro j hj
  cases j with
  | zero => rw [List.getElem?_cons_zero, Nat.zero_mod, hy]
  | succ j =>
    have hlt : j % order.length < order.length := Nat.mod_lt j hpos
    rw [List.getElem?_cons_succ, h j (Nat.lt_of_succ_lt_succ hj), List.length_rotate,
      List.getElem?_rotate hlt, Nat.mod_add_mod]

theorem Cycles.window {order : List α} (h : Cycles order l) {i : Nat} (hi : i + order.length ≤ l.length) :
    (l.drop i).take order.length = order.rotate i := by
  apply List.ext_getElem?
  intro j
  by_cases hj : j < order.length
  · rw [List.getElem?_take_of_lt hj, List.getElem?_drop, h (i + j) (by omega), List.getElem?_rotate hj,
      Nat.add_comm i j]
  · rw [List.getElem?_eq_none (by simp; omega), List.getElem?_eq_none (by simp; omega)]

section

variable [DecidableEq α] {p : α}

theorem Turn.nearer (h : Turn ready x y rest pre post) (hp : p ∈ rest ++ [x]) (hready : ready p = true)
    (hne : y ≠ p) : p ∈ post ∧ post.idxOf p + pre.length + 1 = (rest ++ [x]).idxOf p := by
  have hpre : p ∉ pre := fun hmem => by
    rw [h.passed p hmem] at hready
    cases hready
  rw [h.split] at hp ⊢
  have hpost : p ∈ post := by
    rcases List.mem_append.mp hp with hmem | hmem
    · exact absurd hmem hpre
    · exact (List.mem_cons.mp hmem).resolve_left hne.symm
  refine ⟨hpost, ?_⟩
  rw [List.idxOf_append_of_notMem hpre, List.idxOf_cons_ne _ hne]
  omega

end

end ArmKernel.Lib.Turns
