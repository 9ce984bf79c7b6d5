import Mathlib.Data.Nat.Digits.Lemmas

/-! Bit fields of a word added in pairs: all the pairs of neighbours are added
by two masks and one addition. -/
namespace ArmKernel.Lib.Fields

/-- The lower field of each of `n` pairs of fields of `w` bits. -/
def mask (w : Nat) : Nat → Nat
  | 0 => 0
  | n + 1 => (2 ^ w - 1) + 2 ^ (2 * w) * mask w n

def pairSums (w n x : Nat) : Nat := (x &&& mask w n) + ((x >>> w) &&& mask w n)

def fieldSum (w : Nat) : Nat → Nat → Nat
  | 0, _ => 0
  | n + 1, x => x % 2 ^ w + fieldSum w n (x / 2 ^ w)

variable {w n x : Nat}

theorem and_mask_succ :
    x &&& mask w (n + 1) = x % 2 ^ w + 2 ^ (2 * w) * (x / 2 ^ (2 * w) &&& mask w n) := by
  have hw : 2 ^ w ≤ 2 ^ (2 * w) := Nat.pow_le_pow_right (by decide) (by omega)
  have hlow : 2 ^ w - 1 < 2 ^ (2 * w) := by have := Nat.two_pow_pos w; omega
  have hmod : x % 2 ^ (2 * w) % 2 ^ w = x % 2 ^ w :=
    Nat.mod_mod_of_dvd x (pow_dvd_pow 2 (by omega))
  calc x &&& mask w (n + 1)
      = (x &&& mask w (n + 1)) % 2 ^ (2 * w)
          + 2 ^ (2 * w) * ((x &&& mask w (n + 1)) / 2 ^ (2 * w)) := (Nat.mod_add_div _ _).symm
    _ = x % 2 ^ w + 2 ^ (2 * w) * (x / 2 ^ (2 * w) &&& mask w n) := by
      rw [Nat.and_mod_two_pow, Nat.and_div_two_pow, mask, Nat.add_mul_mod_self_left,
        Nat.add_mul_div_left _ _ (Nat.two_pow_pos _), Nat.mod_eq_of_lt hlow, Nat.div_eq_of_lt hlow,
        Nat.zero_add, Nat.and_two_pow_sub_one_eq_mod, hmod]

theorem pairSums_succ :
    pairSums w (n + 1) x = x % 2 ^ w + x / 2 ^ w % 2 ^ w + 2 ^ (2 * w) * pairSums w n (x / 2 ^ (2 * w)) := by
  have hcomm : x / 2 ^ w / 2 ^ (2 * w) = x / 2 ^ (2 * w) / 2 ^ w := Nat.div_right_comm x _ _
  rw [pairSums, pairSums, and_mask_succ, and_mask_succ, Nat.shiftRight_eq_div_pow,
    Nat.shiftRight_eq_div_pow, hcomm]
  ring

theorem pair_lt (hw : 0 < w) : x % 2 ^ w + x / 2 ^ w % 2 ^ w < 2 ^ (2 * w) := by
  have h₁ : x % 2 ^ w < 2 ^ w := Nat.mod_lt _ (Nat.two_pow_pos w)
  have h₂ : x / 2 ^ w % 2 ^ w < 2 ^ w := Nat.mod_lt _ (Nat.two_pow_pos w)
  have h₃ : 2 ≤ 2 ^ w := Nat.le_self_pow hw.ne' 2
  have h₄ : 2 * 2 ^ w ≤ 2 ^ (2 * w) := by
    rw [Nat.two_mul w, Nat.pow_add]
    exact Nat.mul_le_mul_right _ h₃
  omega

theorem pairSums_lt (hw : 0 < w) : pairSums w n x < 2 ^ (2 * w * n) := by
  induction n generalizing x with
  | zero => simp [pairSums, mask]
  | succ n ih =>
    have hpair : x % 2 ^ w + x / 2 ^ w % 2 ^ w < 2 ^ (2 * w) := pair_lt hw
    have hrest : pairSums w n (x / 2 ^ (2 * w)) + 1 ≤ 2 ^ (2 * w * n) := ih
    have hmul := Nat.mul_le_mul_left (2 ^ (2 * w)) hrest
    rw [pairSums_succ, Nat.mul_succ, Nat.pow_add, Nat.mul_comm (2 ^ (2 * w * n))]
    rw [Nat.mul_add] at hmul
    omega

theorem fieldSum_pairSums (hw : 0 < w) : fieldSum (2 * w) n (pairSums w n x) = fieldSum w (2 * n) x := by
  induction n generalizing x with
  | zero => rfl
  | succ n ih =>
    have hpair : x % 2 ^ w + x / 2 ^ w % 2 ^ w < 2 ^ (2 * w) := pair_lt hw
    have hdiv : x / 2 ^ w / 2 ^ w = x / 2 ^ (2 * w) := by
      rw [Nat.div_div_eq_div_mul, ← Nat.pow_add, Nat.two_mul]
    rw [fieldSum, pairSums_succ, Nat.add_mul_mod_self_left, Nat.mod_eq_of_lt hpair,
      Nat.add_mul_div_left _ _ (Nat.two_pow_pos _), Nat.div_eq_of_lt hpair, Nat.zero_add, ih,
      Nat.mul_succ, fieldSum, fieldSum, hdiv, Nat.add_assoc]

theorem fieldSum_one (h : x < 2 ^ w) : fieldSum w 1 x = x := by
  rw [fieldSum, fieldSum, Nat.add_zero, Nat.mod_eq_of_lt h]

theorem fieldSum_bits (h : x < 2 ^ n) : fieldSum 1 n x = (Nat.digits 2 x).sum := by
  induction n generalizing x with
  | zero =>
    obtain rfl : x = 0 := by omega
    rfl
  | succ n ih =>
    rcases Nat.eq_zero_or_pos x with rfl | hx
    · rw [fieldSum, Nat.zero_div, ih (Nat.two_pow_pos n)]
      rfl
    · have hhalf : x / 2 < 2 ^ n := by rw [Nat.pow_succ] at h; omega
      rw [fieldSum, Nat.pow_one, ih hhalf, Nat.digits_def' (by decide) hx, List.sum_cons]

end ArmKernel.Lib.Fields
