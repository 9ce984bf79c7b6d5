import ArmKernel.Lib.Fields
import Mathlib.Data.Nat.Prime.Basic
import Mathlib.NumberTheory.LucasPrimality
import Mathlib.Tactic.NormNum.Prime
import Mathlib.Tactic.ReduceModChar

/-! What the programs `P0`, `P1` and `P2` compute. Machine words wrap, also in
the square that bounds the trial divisions. -/
namespace ArmKernel.User

open Lib.Fields

/-! `is_prime` of `P0`. -/

def isPrimeLoop (x : UInt32) : Nat → UInt32 → Option Int
  | 0, _ => none
  | fuel + 1, d =>
    if d * d ≤ x then
      if x % d = 0 then some 0 else isPrimeLoop x fuel (d + 2)
    else some 1

def isPrime (fuel : Nat) (x : UInt32) : Option Int :=
  if x &&& 1 = 0 ∨ x < 2 then some (if x = 2 then 1 else 0) else isPrimeLoop x fuel 3

/-! `gcd` of `P1`. -/

def gcd : Nat → UInt32 → UInt32 → Option UInt32
  | 0, _, _ => none
  | fuel + 1, x, y =>
    if x = y then some x else if x > y then gcd fuel (x - y) y else gcd fuel x (y - x)

/-! `weight` of `P2`. -/

def addPairs (m w x : UInt32) : UInt32 := (x &&& m) + ((x >>> w) &&& m)

def weight (x : UInt32) : UInt32 :=
  let x := addPairs 0x55555555 1 x
  let x := addPairs 0x33333333 2 x
  let x := addPairs 0x0F0F0F0F 4 x
  let x := addPairs 0x00FF00FF 8 x
  addPairs 0x0000FFFF 16 x

/-! The trial divisions. -/

section

variable {x : UInt32}

/-- The divisor of trial `i`. -/
def trial (i : Nat) : UInt32 := UInt32.ofNat (3 + 2 * i)

/-- A trial at which the loop returns. -/
def Last (x : UInt32) (i : Nat) : Prop := x < trial i * trial i ∨ x % trial i = 0

theorem trial_succ (i : Nat) : trial i + 2 = trial (i + 1) := by
  rw [trial, trial, Nat.mul_succ, ← Nat.add_assoc, UInt32.ofNat_add (3 + 2 * i)]
  rfl

theorem isPrimeLoop_trial {i n fuel : Nat} (hearlier : ∀ j, n ≤ j → j < n + i → ¬Last x j)
    (hlast : Last x (n + i)) (hf : i < fuel) :
    isPrimeLoop x fuel (trial n) = some (if x < trial (n + i) * trial (n + i) then 1 else 0) := by
  induction i generalizing n fuel with
  | zero =>
    obtain ⟨fuel, rfl⟩ : ∃ f, fuel = f + 1 := ⟨fuel - 1, by omega⟩
    rw [isPrimeLoop, Nat.add_zero]
    rw [Nat.add_zero] at hlast
    by_cases hsq : x < trial n * trial n
    · rw [if_neg (UInt32.not_le.mpr hsq), if_pos hsq]
    · rw [if_pos (UInt32.not_lt.mp hsq), if_pos (hlast.resolve_left hsq), if_neg hsq]
  | succ i ih =>
    obtain ⟨fuel, rfl⟩ : ∃ f, fuel = f + 1 := ⟨fuel - 1, by omega⟩
    have hnot : ¬Last x n := hearlier n le_rfl (by omega)
    rw [Last, not_or] at hnot
    rw [isPrimeLoop, if_pos (UInt32.not_lt.mp hnot.1), if_neg hnot.2, trial_succ,
      ih (fun j hj hj' => hearlier j (by omega) (by omega)) (by rwa [Nat.add_assoc, Nat.add_comm 1])
        (by omega), Nat.add_assoc, Nat.add_comm 1]

theorem toNat_trial {i : Nat} (hi : 3 + 2 * i < 2 ^ 32) : (trial i).toNat = 3 + 2 * i :=
  UInt32.toNat_ofNat_of_lt' hi

theorem toNat_square {i : Nat} (hi : 3 + 2 * i < 2 ^ 32) :
    (trial i * trial i).toNat = (3 + 2 * i) * (3 + 2 * i) % 2 ^ 32 := by
  rw [UInt32.toNat_mul, toNat_trial hi]

theorem divides_iff {i : Nat} (hi : 3 + 2 * i < 2 ^ 32) : x % trial i = 0 ↔ 3 + 2 * i ∣ x.toNat := by
  rw [← UInt32.toNat_inj, UInt32.toNat_mod, toNat_trial hi, Nat.dvd_iff_mod_eq_zero]
  rfl

theorem isPrimeLoop_composite (hodd : x.toNat % 2 = 1) (htwo : 2 ≤ x.toNat) (hcomp : ¬x.toNat.Prime) :
    ∃ m, ∀ fuel, m ≤ fuel → isPrimeLoop x fuel 3 = some 0 := by
  have hx : x.toNat < 2 ^ 32 := x.toNat_lt
  have hdvd : x.toNat.minFac ∣ x.toNat := Nat.minFac_dvd _
  have hsq : x.toNat.minFac ^ 2 ≤ x.toNat := Nat.minFac_sq_le_self (by omega) hcomp
  have hfac : 2 ≤ x.toNat.minFac := (Nat.minFac_prime (by omega)).two_le
  have hodd' : x.toNat.minFac % 2 = 1 := by
    rcases Nat.mod_two_eq_zero_or_one x.toNat.minFac with h | h
    · have := (Nat.dvd_of_mod_eq_zero h).trans hdvd
      omega
    · exact h
  obtain ⟨i, hi⟩ : ∃ i, x.toNat.minFac = 3 + 2 * i := ⟨(x.toNat.minFac - 3) / 2, by omega⟩
  rw [hi] at hsq hdvd
  have hsmall : 3 + 2 * i < 2 ^ 32 := by nlinarith
  have hlast : Last x i := Or.inr ((divides_iff hsmall).mpr hdvd)
  have hsquare : ∀ j ≤ i, ¬x < trial j * trial j := by
    intro j hj
    have hmul : (3 + 2 * j) * (3 + 2 * j) ≤ (3 + 2 * i) ^ 2 := by nlinarith
    rw [UInt32.lt_iff_toNat_lt, toNat_square (by omega), Nat.mod_eq_of_lt (by omega)]
    omega
  have hearlier : ∀ j, 0 ≤ j → j < 0 + i → ¬Last x j := by
    rintro j - hj (h | h)
    · exact hsquare j (by omega) h
    · have := Nat.minFac_le_of_dvd (by omega) ((divides_iff (by omega)).mp h)
      omega
  refine ⟨i + 1, fun fuel hf => ?_⟩
  rw [show (3 : UInt32) = trial 0 from rfl, isPrimeLoop_trial hearlier (by rwa [Nat.zero_add]) hf,
    Nat.zero_add, if_neg (hsquare i le_rfl)]

open Classical in
theorem isPrimeLoop_prime (hodd : x.toNat % 2 = 1) (hprime : x.toNat.Prime) :
    ∃ m, ∀ fuel, m ≤ fuel → isPrimeLoop x fuel 3
      = some (if ∃ i, 3 + 2 * i ≤ x.toNat ∧ x < trial i * trial i then 1 else 0) := by
  have hx : x.toNat < 2 ^ 32 := x.toNat_lt
  have htwo : 2 ≤ x.toNat := hprime.two_le
  obtain ⟨n, hn⟩ : ∃ n, x.toNat = 3 + 2 * n := ⟨(x.toNat - 3) / 2, by omega⟩
  have hself : Last x n := Or.inr ((divides_iff (by omega)).mpr (by rw [hn]))
  have hsome : ∃ i, Last x i := ⟨n, hself⟩
  have hle : Nat.find hsome ≤ n := Nat.find_min' hsome hself
  have hearlier : ∀ j, 0 ≤ j → j < 0 + Nat.find hsome → ¬Last x j :=
    fun j _ hj => Nat.find_min hsome (by omega)
  refine ⟨Nat.find hsome + 1, fun fuel hf => ?_⟩
  rw [show (3 : UInt32) = trial 0 from rfl,
    isPrimeLoop_trial hearlier (by rw [Nat.zero_add]; exact Nat.find_spec hsome) hf, Nat.zero_add]
  congr 1
  by_cases hsq : x < trial (Nat.find hsome) * trial (Nat.find hsome)
  · rw [if_pos hsq, if_pos ⟨_, by omega, hsq⟩]
  · have hend : Nat.find hsome = n := by
      have hdvd := (divides_iff (by omega)).mp ((Nat.find_spec hsome).resolve_left hsq)
      rcases (Nat.dvd_prime hprime).mp hdvd with h | h <;> omega
    rw [if_neg hsq, if_neg]
    rintro ⟨i, hi, hlt⟩
    have : Nat.find hsome ≤ i := Nat.find_min' hsome (Or.inl hlt)
    obtain rfl : i = Nat.find hsome := by omega
    exact hsq hlt

theorem prime_4294967291 : Nat.Prime 4294967291 := by
  have hq : Nat.Prime 22605091 := by norm_num
  have hfac : (4294967291 - 1 : Nat) = 2 * 5 * 19 * 22605091 := by norm_num
  refine lucas_primality 4294967291 2 (by reduce_mod_char) ?_
  intro q hprime hdvd
  rw [hfac, hprime.dvd_mul, hprime.dvd_mul, hprime.dvd_mul, Nat.prime_dvd_prime_iff_eq hprime hq,
    Nat.prime_dvd_prime_iff_eq hprime Nat.prime_two, Nat.prime_dvd_prime_iff_eq hprime Nat.prime_five,
    Nat.prime_dvd_prime_iff_eq hprime (by norm_num)] at hdvd
  rcases hdvd with ((rfl | rfl) | rfl) | rfl
  all_goals
    norm_num
    reduce_mod_char
    decide

theorem square_le (i : Nat) : (trial i * trial i).toNat ≤ 2 ^ 32 - 7 := by
  have hmod : (3 + 2 * i) * (3 + 2 * i) % 8 = 1 := by
    have : (3 + 2 * i) % 8 = 1 ∨ (3 + 2 * i) % 8 = 3 ∨ (3 + 2 * i) % 8 = 5 ∨ (3 + 2 * i) % 8 = 7 := by omega
    rcases this with h | h | h | h <;> rw [Nat.mul_mod, h]
  have hval : (trial i * trial i).toNat = (3 + 2 * i) * (3 + 2 * i) % 2 ^ 32 := by
    rw [UInt32.toNat_mul, trial, UInt32.toNat_ofNat', ← Nat.mul_mod]
  omega

theorem isPrime_odd (hodd : x.toNat % 2 = 1) (htwo : 2 ≤ x.toNat) (fuel : Nat) :
    isPrime fuel x = isPrimeLoop x fuel 3 := by
  have hbit : ¬x &&& 1 = 0 := by
    rw [← UInt32.toNat_inj, UInt32.toNat_and, show UInt32.toNat 1 = 1 from rfl, Nat.and_one_is_mod, hodd]
    decide
  have hlt : ¬x < 2 := by
    rw [UInt32.lt_iff_toNat_lt, show UInt32.toNat 2 = 2 from rfl]
    omega
  rw [isPrime, if_neg (not_or.mpr ⟨hbit, hlt⟩)]

theorem isPrime_even (h : x.toNat % 2 = 0 ∨ x.toNat < 2) (fuel : Nat) :
    isPrime fuel x = some (if x.toNat.Prime then 1 else 0) := by
  have hbranch : x &&& 1 = 0 ∨ x < 2 := by
    rw [← UInt32.toNat_inj, UInt32.toNat_and, UInt32.lt_iff_toNat_lt, show UInt32.toNat 1 = 1 from rfl,
      show UInt32.toNat 2 = 2 from rfl, Nat.and_one_is_mod]
    exact h
  have hprime : x = 2 ↔ x.toNat.Prime := by
    rw [← UInt32.toNat_inj, show UInt32.toNat 2 = 2 from rfl]
    constructor
    · intro hx
      rw [hx]
      exact Nat.prime_two
    · intro hp
      have := hp.two_le
      exact hp.eq_two_or_odd.resolve_right (by omega)
  rw [isPrime, if_pos hbranch]
  simp only [hprime]

theorem square_above (hodd : x.toNat % 2 = 1) (hprime : x.toNat.Prime) (hne : x.toNat ≠ 4294967291) :
    ∃ i, 3 + 2 * i ≤ x.toNat ∧ x < trial i * trial i := by
  have hx : x.toNat < 2 ^ 32 := x.toNat_lt
  have htwo : 2 ≤ x.toNat := hprime.two_le
  by_cases hsmall : x.toNat ≤ 65535
  · obtain ⟨n, hn⟩ : ∃ n, x.toNat = 3 + 2 * n := ⟨(x.toNat - 3) / 2, by omega⟩
    refine ⟨n, hn.ge, ?_⟩
    rw [UInt32.lt_iff_toNat_lt, toNat_square (by omega), ← hn, Nat.mod_eq_of_lt (by nlinarith)]
    nlinarith
  by_cases hmiddle : x.toNat < 65535 * 65535
  · refine ⟨32766, by omega, ?_⟩
    rw [UInt32.lt_iff_toNat_lt, toNat_square (by norm_num)]
    omega
  by_cases hlarge : x.toNat < 2 ^ 32 - 7
  · refine ⟨239886425, by omega, ?_⟩
    rw [UInt32.lt_iff_toNat_lt, toNat_square (by norm_num)]
    omega
  -- three odd numbers are left, and none of them is prime
  exfalso
  have hcases : x.toNat = 4294967289 ∨ x.toNat = 4294967293 ∨ x.toNat = 4294967295 := by omega
  rcases hcases with h | h | h <;> rw [h] at hprime <;> norm_num at hprime

/-- Every word but one is classified rightly: the squares never exceed the
largest prime, which is divided by itself in the end. -/
theorem isPrime_exact (x : UInt32) : ∃ m r, (∀ fuel, m ≤ fuel → isPrime fuel x = some r) ∧
    (x ≠ 4294967291 → r = if x.toNat.Prime then 1 else 0) ∧ (x = 4294967291 → x.toNat.Prime ∧ r = 0) := by
  have heq : x = 4294967291 ↔ x.toNat = 4294967291 := by rw [← UInt32.toNat_inj]; rfl
  rw [Ne, heq]
  by_cases heven : x.toNat % 2 = 0 ∨ x.toNat < 2
  · exact ⟨0, _, fun fuel _ => isPrime_even heven fuel, fun _ => rfl, fun hx => by omega⟩
  have hodd : x.toNat % 2 = 1 := by omega
  have htwo : 2 ≤ x.toNat := by omega
  simp only [isPrime_odd hodd htwo]
  by_cases hprime : x.toNat.Prime
  · obtain ⟨m, hm⟩ := isPrimeLoop_prime hodd hprime
    refine ⟨m, _, hm, fun hx => ?_, fun hx => ⟨hprime, ?_⟩⟩
    · rw [if_pos hprime, if_pos (square_above hodd hprime hx)]
    · -- no square exceeds the largest prime
      rw [if_neg]
      rintro ⟨i, -, hi⟩
      have := square_le i
      rw [UInt32.lt_iff_toNat_lt] at hi
      omega
  · obtain ⟨m, hm⟩ := isPrimeLoop_composite hodd htwo hprime
    refine ⟨m, 0, hm, fun _ => by rw [if_neg hprime], fun hx => ?_⟩
    rw [hx] at hprime
    exact absurd prime_4294967291 hprime

end

/-! The subtractions of `gcd`. -/

section

variable {x y : UInt32}

theorem gcd_self (fuel : Nat) : gcd (fuel + 1) x x = some x := by rw [gcd, if_pos rfl]

theorem gcd_greater (h : y < x) (fuel : Nat) : gcd (fuel + 1) x y = gcd fuel (x - y) y := by
  rw [gcd, if_neg (UInt32.ne_of_lt h).symm, if_pos h]

theorem gcd_less (h : x < y) (fuel : Nat) : gcd (fuel + 1) x y = gcd fuel x (y - x) := by
  rw [gcd, if_neg (UInt32.ne_of_lt h), if_neg (UInt32.lt_asymm h)]

theorem gcd_zero_left (hy : 0 < y) (fuel : Nat) : gcd fuel 0 y = none := by
  induction fuel with
  | zero => rfl
  | succ fuel ih => rw [gcd_less hy, UInt32.sub_zero, ih]

theorem gcd_zero_right (hx : 0 < x) (fuel : Nat) : gcd fuel x 0 = none := by
  induction fuel with
  | zero => rfl
  | succ fuel ih => rw [gcd_greater hx, UInt32.sub_zero, ih]

theorem gcd_positive {n : Nat} (hx : 0 < x) (hy : 0 < y) (hn : x.toNat + y.toNat ≤ n) :
    ∀ fuel, n ≤ fuel → (gcd fuel x y).map UInt32.toNat = some (x.toNat.gcd y.toNat) := by
  induction n generalizing x y with
  | zero =>
    rw [UInt32.lt_iff_toNat_lt] at hx
    omega
  | succ n ih =>
    have hx' : 0 < x.toNat := UInt32.lt_iff_toNat_lt.mp hx
    have hy' : 0 < y.toNat := UInt32.lt_iff_toNat_lt.mp hy
    intro fuel hf
    obtain ⟨fuel, rfl⟩ : ∃ f, fuel = f + 1 := ⟨fuel - 1, by omega⟩
    rcases lt_trichotomy x.toNat y.toNat with h | h | h
    · have hlt : x < y := UInt32.lt_iff_toNat_lt.mpr h
      have hsub : (y - x).toNat = y.toNat - x.toNat := UInt32.toNat_sub_of_le y x (UInt32.le_of_lt hlt)
      rw [gcd_less hlt, ih hx (by rw [UInt32.lt_iff_toNat_lt, hsub]; exact Nat.sub_pos_of_lt h)
        (by omega) fuel (by omega), hsub, Nat.gcd_sub_self_right h.le]
    · obtain rfl : x = y := UInt32.toNat_inj.mp h
      rw [gcd_self, Nat.gcd_self]
      rfl
    · have hlt : y < x := UInt32.lt_iff_toNat_lt.mpr h
      have hsub : (x - y).toNat = x.toNat - y.toNat := UInt32.toNat_sub_of_le x y (UInt32.le_of_lt hlt)
      rw [gcd_greater hlt, ih (by rw [UInt32.lt_iff_toNat_lt, hsub]; exact Nat.sub_pos_of_lt h) hy
        (by omega) fuel (by omega), hsub, Nat.gcd_sub_self_left h.le]

/-- The greatest common divisor, unless exactly one of the two is zero: then
`gcd` does not return. -/
theorem gcd_exact (x y : UInt32) :
    ((x = 0 ↔ y = 0) → ∃ m, ∀ fuel, m ≤ fuel →
      (gcd fuel x y).map UInt32.toNat = some (x.toNat.gcd y.toNat)) ∧
    (¬(x = 0 ↔ y = 0) → ∀ fuel, gcd fuel x y = none) := by
  have hpos : ∀ z : UInt32, z ≠ 0 → 0 < z := fun z hz => UInt32.pos_iff_ne_zero.mpr hz
  by_cases hx : x = 0 <;> by_cases hy : y = 0
  · subst hx hy
    refine ⟨fun _ => ⟨1, fun fuel hf => ?_⟩, fun h => absurd Iff.rfl h⟩
    obtain ⟨fuel, rfl⟩ : ∃ f, fuel = f + 1 := ⟨fuel - 1, by omega⟩
    rw [gcd_self]
    rfl
  · subst hx
    exact ⟨fun h => absurd (h.mp rfl) hy, fun _ => gcd_zero_left (hpos y hy)⟩
  · subst hy
    exact ⟨fun h => absurd (h.mpr rfl) hx, fun _ => gcd_zero_right (hpos x hx)⟩
  · exact ⟨fun _ => ⟨_, gcd_positive (hpos x hx) (hpos y hy) le_rfl⟩,
      fun h => absurd (iff_of_false hx hy) h⟩

end

/-! The sums of `weight`. -/

theorem fieldSum_addPairs (w n : Nat) {m s : UInt32} (hw : 0 < w) (hn : 2 * w * n = 32)
    (hm : m.toNat = mask w n) (hs : s.toNat = w) (hlt : w < 32) (x : UInt32) :
    fieldSum (2 * w) n (addPairs m s x).toNat = fieldSum w (2 * n) x.toNat := by
  have hsum : pairSums w n x.toNat < 2 ^ 32 := hn ▸ pairSums_lt hw
  have hval : (addPairs m s x).toNat = pairSums w n x.toNat := by
    rw [addPairs, UInt32.toNat_add, UInt32.toNat_and, UInt32.toNat_and, UInt32.toNat_shiftRight, hm, hs,
      Nat.mod_eq_of_lt hlt]
    exact Nat.mod_eq_of_lt hsum
  rw [hval, fieldSum_pairSums hw]

/-- `weight` counts the bits that are set. -/
theorem weight_exact (x : UInt32) : (weight x).toNat = (Nat.digits 2 x.toNat).sum := by
  let x₁ := addPairs 0x55555555 1 x
  let x₂ := addPairs 0x33333333 2 x₁
  let x₃ := addPairs 0x0F0F0F0F 4 x₂
  let x₄ := addPairs 0x00FF00FF 8 x₃
  calc (weight x).toNat
      = fieldSum 32 1 (addPairs 0x0000FFFF 16 x₄).toNat := (fieldSum_one (UInt32.toNat_lt _)).symm
    _ = fieldSum 16 2 x₄.toNat := fieldSum_addPairs 16 1 (by decide) rfl rfl rfl (by decide) x₄
    _ = fieldSum 8 4 x₃.toNat := fieldSum_addPairs 8 2 (by decide) rfl rfl rfl (by decide) x₃
    _ = fieldSum 4 8 x₂.toNat := fieldSum_addPairs 4 4 (by decide) rfl rfl rfl (by decide) x₂
    _ = fieldSum 2 16 x₁.toNat := fieldSum_addPairs 2 8 (by decide) rfl rfl rfl (by decide) x₁
    _ = fieldSum 1 32 x.toNat := fieldSum_addPairs 1 16 (by decide) rfl rfl rfl (by decide) x
    _ = (Nat.digits 2 x.toNat).sum := fieldSum_bits x.toNat_lt

end ArmKernel.User
