import Mathlib.Data.List.Basic
import Mathlib.Data.List.Nodup
import Mathlib.Data.List.Range

/-! An unrolled stack: the top node is a run of words `w h, …, w 1`, and `w 0`
either is the terminator or names a full node in memory that is itself the
next element of the stack and holds the rest of it. Memory is any map from
addresses to words. -/
namespace ArmKernel.Lib.Unrolled

variable {α : Type} {nil : α} {cap : Nat}

def slots (w : Nat → α) : Nat → List α
  | 0 => []
  | h+1 => w (h+1) :: slots w h

inductive Chain (nil : α) (cap : Nat) (node : α → Nat → α) : (Nat → α) → Nat → List α → Prop
  | last {w : Nat → α} {h : Nat} : w 0 = nil → Chain nil cap node w h (slots w h)
  | link {w : Nat → α} {h : Nat} {rest : List α} : w 0 ≠ nil →
      Chain nil cap node (node (w 0)) cap rest → Chain nil cap node w h (slots w h ++ w 0 :: rest)

theorem slots_congr {w w' : Nat → α} {h : Nat} (agree : ∀ i, 0 < i → i ≤ h → w' i = w i) :
    slots w' h = slots w h := by
  induction h with
  | zero => rfl
  | succ h ih =>
    simp only [slots]
    rw [agree (h+1) (by omega) (by omega), ih (fun i h0 hi => agree i h0 (by omega))]

theorem mem_slots {w : Nat → α} {h i : Nat} (h0 : 0 < i) (hi : i ≤ h) : w i ∈ slots w h := by
  induction h with
  | zero => omega
  | succ h ih =>
    rcases Nat.lt_or_ge h i with hlt | hge
    · rw [show i = h+1 by omega]
      exact List.mem_cons_self
    · exact List.mem_cons_of_mem _ (ih hge)

theorem exists_of_mem_slots {w : Nat → α} {h : Nat} {a : α} (ha : a ∈ slots w h) :
    ∃ i, 0 < i ∧ i ≤ h ∧ a = w i := by
  induction h with
  | zero => simp [slots] at ha
  | succ h ih =>
    rcases List.mem_cons.mp ha with rfl | hmem
    · exact ⟨h+1, by omega, by omega, rfl⟩
    · obtain ⟨i, h0, hi, rfl⟩ := ih hmem
      exact ⟨i, h0, by omega, rfl⟩

theorem nodup_slots {w : Nat → α} {h : Nat}
    (inj : ∀ i j, 0 < i → i < j → j ≤ h → w i ≠ w j) : (slots w h).Nodup := by
  induction h with
  | zero => exact List.nodup_nil
  | succ h ih =>
    refine List.nodup_cons.mpr ⟨fun hmem => ?_, ih fun i j h0 hij hj => inj i j h0 hij (by omega)⟩
    obtain ⟨i, h0, hi, he⟩ := exists_of_mem_slots hmem
    exact inj i (h+1) h0 (by omega) (by omega) he.symm

theorem length_slots (w : Nat → α) (h : Nat) : (slots w h).length = h := by
  induction h with
  | zero => rfl
  | succ h ih => simp [slots, ih]

namespace Chain

variable {node node' : α → Nat → α} {w w' : Nat → α} {h : Nat} {l l' : List α}

theorem unique (hl : Chain nil cap node w h l) (hl' : Chain nil cap node w h l') : l = l' := by
  induction hl generalizing l' with
  | last hw =>
    cases hl' with
    | last => rfl
    | link hne => exact absurd hw hne
  | link hne _ ih =>
    cases hl' with
    | last hw => exact absurd hw hne
    | link _ hr => rw [ih hr]

theorem congr (hl : Chain nil cap node w h l) (top : ∀ i ≤ h, w' i = w i)
    (mem : ∀ a ∈ l, ∀ i ≤ cap, node' a i = node a i) : Chain nil cap node' w' h l := by
  induction hl generalizing w' with
  | @last w h hw =>
    rw [← slots_congr (fun i _ hi => top i hi)]
    exact .last ((top 0 (by omega)).trans hw)
  | @link w h rest hne _ ih =>
    have h0 : w' 0 = w 0 := top 0 (by omega)
    rw [← slots_congr (fun i _ hi => top i hi), ← h0]
    refine .link (h0 ▸ hne) ?_
    rw [h0]
    exact ih (fun i hi => mem _ (by simp) i hi) (fun a ha => mem a (by simp [ha]))

theorem head_mem (hl : Chain nil cap node w h l) (hne : w 0 ≠ nil) : w 0 ∈ l := by
  cases hl with
  | last hw => exact absurd hw hne
  | link => simp

theorem slot_mem (hl : Chain nil cap node w h l) {i : Nat} (h0 : 0 < i) (hi : i ≤ h) : w i ∈ l := by
  cases hl with
  | last => exact mem_slots h0 hi
  | link => exact List.mem_append_left _ (mem_slots h0 hi)

theorem below_mem (hl : Chain nil cap node w h l) (hne : w 0 ≠ nil) {i : Nat} (h0 : 0 < i)
    (hi : i ≤ cap) : node (w 0) i ∈ l := by
  cases hl with
  | last hw => exact absurd hw hne
  | link _ hr => exact List.mem_append_right _ (List.mem_cons_of_mem _ (hr.slot_mem h0 hi))

theorem bottom (hl : Chain nil cap node w h l) (hlen : h < l.length) :
    w 0 ≠ nil ∧ l[h]? = some (w 0) := by
  cases hl with
  | last => simp [length_slots] at hlen
  | link hne _ => exact ⟨hne, by simp [length_slots]⟩

theorem length_mod (hl : Chain nil cap node w h l) : l.length % (cap + 1) = h % (cap + 1) := by
  induction hl with
  | last => rw [length_slots]
  | @link w h rest _ _ ih =>
    have hmod : rest.length % (cap + 1) = cap := ih.trans (Nat.mod_eq_of_lt (Nat.lt_succ_self cap))
    have hfull : rest.length + 1 = (cap + 1) * (rest.length / (cap + 1) + 1) := by
      have := Nat.div_add_mod rest.length (cap + 1)
      rw [hmod] at this
      rw [Nat.mul_add, Nat.mul_one]
      omega
    rw [List.length_append, length_slots, List.length_cons, hfull, Nat.add_mul_mod_self_left]

theorem eq_nil_iff (hl : Chain nil cap node w h l) : l = [] ↔ h = 0 ∧ w 0 = nil := by
  cases hl with
  | last hw =>
    constructor
    · intro he
      have := congrArg List.length he
      simp only [length_slots, List.length_nil] at this
      exact ⟨this, hw⟩
    · rintro ⟨rfl, -⟩
      rfl
  | link hne =>
    constructor
    · intro he
      simp at he
    · rintro ⟨-, hw⟩
      exact absurd hw hne

theorem pop (hl : Chain nil cap node w (h+1) l) :
    ∃ rest, l = w (h+1) :: rest ∧ Chain nil cap node w h rest := by
  cases hl with
  | last hw => exact ⟨_, rfl, .last hw⟩
  | link hne hr => exact ⟨_, rfl, .link hne hr⟩

theorem refill (hl : Chain nil cap node w 0 l) (hne : w 0 ≠ nil) :
    ∃ rest, l = w 0 :: rest ∧ Chain nil cap node (node (w 0)) cap rest := by
  cases hl with
  | last hw => exact absurd hw hne
  | link _ hr => exact ⟨_, rfl, hr⟩

theorem push (hl : Chain nil cap node w h l) {a : α} (top : ∀ i ≤ h, w' i = w i)
    (ha : w' (h+1) = a) : Chain nil cap node w' (h+1) (a :: l) := by
  have hw := hl.congr top (fun _ _ _ _ => rfl)
  subst ha
  cases hw with
  | last h0 => exact .last h0
  | link hne hr => exact .link hne hr

theorem spill (hl : Chain nil cap node w cap l) {a : α} (hne : a ≠ nil) (h0 : w' 0 = a)
    (stored : ∀ i ≤ cap, node' a i = w i) (mem : ∀ b ∈ l, ∀ i ≤ cap, node' b i = node b i) :
    Chain nil cap node' w' 0 (a :: l) := by
  have hr : Chain nil cap node' (node' (w' 0)) cap l :=
    hl.congr (fun i hi => by rw [h0]; exact stored i hi) mem
  have := Chain.link (h := 0) (h0 ▸ hne : w' 0 ≠ nil) hr
  rwa [slots, List.nil_append, h0] at this

end Chain
end ArmKernel.Lib.Unrolled
