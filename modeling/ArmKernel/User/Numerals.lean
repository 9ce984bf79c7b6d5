import ArmKernel.Lib.Strings
import Mathlib.Data.Nat.Digits.Lemmas

/-! `int2str` and `str2int` of the user library. Numbers are machine words, so
negation, the digit sums and the powers of the base wrap around. -/
namespace ArmKernel.User

open Lib.Strings

/-- An integer stored in a `char`. -/
def toChar (x : Int32) : UInt8 := x.toUInt32.toUInt8

/-- A `char` read as an integer: it has no sign. -/
def ofChar (c : UInt8) : Int32 := c.toUInt32.toInt32

/-- The digits of `value` from `str[c]` on, the last digit first. -/
def digitLoop (base : Int32) : Nat → (Nat → UInt8) → Nat → Int32 → Option ((Nat → UInt8) × Nat)
  | 0, _, _, _ => none
  | fuel + 1, str, c, value =>
    let str := Function.update str c (toChar (value % base + ofChar '0'.toUInt8))
    let value := value / base
    if value ≠ 0 then digitLoop base fuel str (c + 1) value else some (str, c + 1)

/-- The digits and the sign are stored from the last to the first and turned
around in place. -/
def int2str (fuel : Nat) (value : Int32) (str : Nat → UInt8) (base : Int32) : Option (Nat → UInt8) :=
  if value = 0 then some (Function.update (Function.update str 0 '0'.toUInt8) 1 0)
  else
    let negative := decide (value < 0)
    let value := if negative then value * -1 else value
    match digitLoop base fuel str 0 value with
    | none => none
    | some (str, c) =>
      let (str, c) := if negative then (Function.update str c '-'.toUInt8, c + 1) else (str, c)
      some (Function.update (swaps str c ((c - 1) / 2 + 1)) c 0)

/-- The characters in front of `i`, from the last to the first; a sign ends the
number. -/
def str2intLoop (str : Nat → UInt8) (base : Int32) : Nat → Int32 → Int32 → Int32
  | 0, _, value => value
  | i + 1, e, value =>
    if str i = '-'.toUInt8 then -value
    else str2intLoop str base i (e * base) (value + e * (ofChar (str i) - ofChar '0'.toUInt8))

def str2int (str : Nat → UInt8) (n : Nat) (base : Int32) : Int32 := str2intLoop str base n 1 0

/-! Numerals. -/

def digitChar (d : Nat) : UInt8 := UInt8.ofNat ('0'.toNat + d)

def signOf (v : Int) : List UInt8 := if v < 0 then ['-'.toUInt8] else []

/-- The numeral of an integer: a sign in front of the negative ones, then the
digits without leading zeros. -/
def numeral (b : Nat) (v : Int) : List UInt8 :=
  if v = 0 then ['0'.toUInt8] else signOf v ++ (Nat.digits b v.natAbs).reverse.map digitChar

/-- The numeral of `v` is written, with a terminator, and reads back as `v`. -/
def RoundTrips (str : Nat → UInt8) (v base : Int32) : Prop :=
  ∃ str' n m, (∀ fuel, m ≤ fuel → int2str fuel v str base = some str' ∧ strlen fuel str' = some n) ∧
    Spells str' (numeral base.toInt.toNat v.toInt ++ [0]) ∧ str2int str' n base = v

/-! What is written. -/

section

variable {b : Nat} {base : Int32} {s : Int}

/-- The character a loop over a number of sign `s` stores for a digit. -/
def signedChar (s : Int) (d : Nat) : UInt8 := toChar (Int32.ofInt (s * d) + ofChar '0'.toUInt8)

theorem signedChar_one {d : Nat} (hd : d < 10) : signedChar 1 d = digitChar d := by
  revert d
  decide

theorem signedChar_neg {d : Nat} (hd : d < 10) (h : signedChar (-1) d = digitChar d) : d = 0 := by
  revert d
  decide

theorem mod_base (hs : s = 1 ∨ s = -1) (hbase : base.toInt = b) {n : Nat} {value : Int32} (hv : value.toInt = s * n) :
    value % base = Int32.ofInt (s * (n % b : Nat)) := by
  rw [← Int32.ofInt_toInt (value % base), Int32.toInt_mod, hv, hbase]
  congr 1
  rcases hs with rfl | rfl
  · rw [one_mul, one_mul]
    exact (Int.ofNat_tmod n b).symm
  · rw [neg_one_mul, neg_one_mul, Int.neg_tmod, ← Int.ofNat_tmod]

theorem div_base (hs : s = 1 ∨ s = -1) (hbase : base.toInt = b) {n : Nat} {value : Int32} (hv : value.toInt = s * n) :
    (value / base).toInt = s * (n / b : Nat) := by
  have hne : base ≠ -1 := by
    rintro rfl
    have : ((-1 : Int32)).toInt = -1 := by decide
    omega
  rw [Int32.toInt_div_of_ne_right _ _ hne, hv, hbase]
  rcases hs with rfl | rfl
  · rw [one_mul, one_mul]
    exact (Int.ofNat_tdiv n b).symm
  · rw [neg_one_mul, neg_one_mul, Int.neg_tdiv, ← Int.ofNat_tdiv]

theorem eq_zero_of_signed (hs : s = 1 ∨ s = -1) {n : Nat} {value : Int32} (hv : value.toInt = s * n) :
    value = 0 ↔ n = 0 := by
  rw [← Int32.toInt_inj, hv, show (0 : Int32).toInt = 0 from rfl]
  rcases hs with rfl | rfl <;> omega

theorem digitLoop_spells (hs : s = 1 ∨ s = -1) (hb : 2 ≤ b) (hbase : base.toInt = b) {n : Nat} (hn : 0 < n)
    {value : Int32} (hv : value.toInt = s * n) {str : Nat → UInt8} {l : List UInt8} (h : Spells str l) :
    ∃ str', (∀ fuel, (Nat.digits b n).length ≤ fuel →
      digitLoop base fuel str l.length value = some (str', l.length + (Nat.digits b n).length)) ∧
      Spells str' (l ++ (Nat.digits b n).map (signedChar s)) := by
  induction n using Nat.strong_induction_on generalizing value str l with
  | _ n ih =>
    have hdigits : Nat.digits b n = n % b :: Nat.digits b (n / b) := Nat.digits_def' hb hn
    have hdiv := div_base hs hbase hv
    have hput := h.put (signedChar s (n % b))
    rw [hdigits]
    by_cases hlast : n / b = 0
    · refine ⟨Function.update str l.length (signedChar s (n % b)), fun fuel hfuel => ?_, ?_⟩
      · obtain ⟨fuel, rfl⟩ := Nat.exists_eq_add_one_of_ne_zero (show fuel ≠ 0 by rintro rfl; simp at hfuel)
        rw [digitLoop, if_neg (not_not_intro ((eq_zero_of_signed hs hdiv).mpr hlast)), mod_base hs hbase hv, hlast, Nat.digits_zero]
        rfl
      · rw [hlast, Nat.digits_zero]
        exact hput
    · obtain ⟨str', hloop, hspells⟩ := ih (n / b) (Nat.div_lt_self hn hb) (Nat.pos_of_ne_zero hlast) hdiv hput
      refine ⟨str', fun fuel hfuel => ?_, ?_⟩
      · obtain ⟨fuel, rfl⟩ := Nat.exists_eq_add_one_of_ne_zero (show fuel ≠ 0 by rintro rfl; simp at hfuel)
        have := hloop fuel (by simpa using hfuel)
        rw [List.length_append, List.length_singleton] at this
        rw [digitLoop, if_pos (fun hz => hlast ((eq_zero_of_signed hs hdiv).mp hz)), mod_base hs hbase hv]
        rw [show toChar (Int32.ofInt (s * (n % b : Nat)) + ofChar '0'.toUInt8) = signedChar s (n % b) from rfl, this,
          List.length_cons, Nat.add_assoc, Nat.add_comm 1]
      · rw [List.map_cons, ← List.append_cons] at *
        simpa using hspells

theorem toInt_neg_iff (v : Int32) : v < 0 ↔ v.toInt < 0 := Int32.lt_iff_toInt_lt

theorem spells_turned {str : Nat → UInt8} {l : List UInt8} (h : Spells str l) :
    Spells (Function.update (swaps str l.length ((l.length - 1) / 2 + 1)) l.length 0) (l.reverse ++ [0]) := by
  have := h.reverse.put 0
  rw [List.length_reverse] at this
  exact this

theorem int2str_spells (hs : s = 1 ∨ s = -1) (hb : 2 ≤ b) (hbase : base.toInt = b) {v : Int32} (hne : v ≠ 0)
    (hv : (if v < 0 then v * -1 else v).toInt = s * v.toInt.natAbs) (str : Nat → UInt8) :
    ∃ str', (∀ fuel, (Nat.digits b v.toInt.natAbs).length ≤ fuel → int2str fuel v str base = some str') ∧
      Spells str' (signOf v.toInt ++ (Nat.digits b v.toInt.natAbs).reverse.map (signedChar s) ++ [0]) := by
  have hpos : 0 < v.toInt.natAbs := Int.natAbs_pos.mpr fun h => hne (Int32.toInt_inj.mp h)
  obtain ⟨str', hloop, hspells⟩ := digitLoop_spells hs hb hbase hpos hv (spells_nil str)
  rw [List.nil_append] at hspells
  rw [List.length_nil, Nat.zero_add] at hloop
  by_cases hneg : v < 0
  · have hturned := spells_turned (hspells.put '-'.toUInt8)
    rw [List.length_append, List.length_map, List.length_singleton, List.reverse_append, ← List.map_reverse] at hturned
    refine ⟨_, fun fuel hfuel => ?_, by rw [signOf, if_pos ((toInt_neg_iff v).mp hneg)]; exact hturned⟩
    unfold int2str
    rw [if_neg hne]
    simp only [decide_eq_true hneg, if_true]
    rw [if_pos hneg] at hloop
    rw [hloop fuel hfuel]
  · have hturned := spells_turned hspells
    rw [List.length_map, ← List.map_reverse] at hturned
    refine ⟨_, fun fuel hfuel => ?_, by rw [signOf, if_neg (mt (toInt_neg_iff v).mpr hneg)]; exact hturned⟩
    unfold int2str
    rw [if_neg hne]
    simp only [decide_eq_false hneg, Bool.false_eq_true, if_false]
    rw [if_neg hneg] at hloop
    rw [hloop fuel hfuel]

theorem toInt_negated {v : Int32} (h : v ≠ Int32.minValue) :
    (if v < 0 then v * -1 else v).toInt = 1 * v.toInt.natAbs := by
  have hmin : v.toInt ≠ -2147483648 := fun hv => h (Int32.toInt_inj.mp hv)
  have hle := Int32.le_toInt v
  have hlt := Int32.toInt_lt v
  rw [one_mul]
  by_cases hneg : v < 0
  · have := (toInt_neg_iff v).mp hneg
    rw [if_pos hneg, Int32.toInt_mul, show ((-1 : Int32)).toInt = -1 from rfl, Int.bmod_eq_of_le (by omega) (by omega)]
    omega
  · have := mt (toInt_neg_iff v).mpr hneg
    rw [if_neg hneg]
    omega

end

/-! What is read. -/

section

variable {b : Nat} {base : Int32} {str : Nat → UInt8}

theorem ofChar_digit {d : Nat} (hd : d < 10) : ofChar (digitChar d) - ofChar '0'.toUInt8 = Int32.ofInt d := by
  revert d
  decide

theorem digitChar_ne_minus {d : Nat} (hd : d < 10) : digitChar d ≠ '-'.toUInt8 := by
  revert d
  decide

theorem digitChar_ne_zero {d : Nat} (hd : d < 10) : digitChar d ≠ 0 := by
  revert d
  decide

theorem str2intLoop_spells (hbase : base.toInt = b) {ds : List Nat} (hds : ∀ d ∈ ds, d < 10) {sign rest : List UInt8}
    (h : Spells str (sign ++ ds.reverse.map digitChar ++ rest)) (k x : Nat) :
    str2intLoop str base (sign.length + ds.length) (Int32.ofInt (b ^ k : Nat)) (Int32.ofInt x) =
      str2intLoop str base sign.length (Int32.ofInt (b ^ (k + ds.length) : Nat))
        (Int32.ofInt (x + b ^ k * Nat.ofDigits b ds : Nat)) := by
  induction ds generalizing k x rest with
  | nil => simp
  | cons d ds ih =>
    have hd : d < 10 := hds d List.mem_cons_self
    rw [List.reverse_cons, List.map_append, ← List.append_assoc, List.append_assoc _ _ rest] at h
    have hchar : str (sign.length + ds.length) = digitChar d := by
      have := h.middle
      simpa using this
    have hstep := ih (fun d' hd' => hds d' (List.mem_cons_of_mem _ hd')) h (k + 1) (x + b ^ k * d)
    have hpow : Int32.ofInt (b ^ k : Nat) * base = Int32.ofInt (b ^ (k + 1) : Nat) := by
      rw [← Int32.ofInt_toInt base, hbase, ← Int32.ofInt_mul, pow_succ, Nat.cast_mul]
    have hsum : Int32.ofInt x + Int32.ofInt (b ^ k : Nat) * Int32.ofInt d = Int32.ofInt (x + b ^ k * d : Nat) := by
      rw [← Int32.ofInt_mul, ← Int32.ofInt_add, Nat.cast_add, Nat.cast_mul]
    rw [List.length_cons, ← Nat.add_assoc, str2intLoop, hchar, if_neg (digitChar_ne_minus hd), ofChar_digit hd, hpow,
      hsum, hstep, Nat.ofDigits_cons]
    congr 2
    · ring_nf
    · congr 1
      ring

theorem digit_lt (hb : 2 ≤ b) (hb10 : b ≤ 10) (n : Nat) : ∀ d ∈ Nat.digits b n, d < 10 := by
  intro d hd
  exact (Nat.digits_lt_base hb hd).trans_le hb10

theorem str2int_numeral (hbase : base.toInt = b) (hb : 2 ≤ b) (hb10 : b ≤ 10) {v : Int32} {rest : List UInt8}
    (h : Spells str (numeral b v.toInt ++ rest)) : str2int str (numeral b v.toInt).length base = v := by
  unfold numeral at h ⊢
  by_cases hv : v.toInt = 0
  · rw [if_pos hv] at h ⊢
    have hv0 : v = 0 := Int32.toInt_inj.mp hv
    have hchar : str 0 = '0'.toUInt8 := h 0 _ rfl
    rw [List.length_singleton, str2int, str2intLoop, str2intLoop, hchar, hv0]
    decide
  · rw [if_neg hv] at h ⊢
    have hread := str2intLoop_spells hbase (digit_lt hb hb10 _) h 0 0
    rw [Nat.ofDigits_digits, pow_zero, one_mul, Nat.zero_add, Nat.zero_add] at hread
    rw [List.length_append, List.length_map, List.length_reverse, str2int]
    refine hread.trans ?_
    unfold signOf at h ⊢
    by_cases hneg : v.toInt < 0
    · rw [if_pos hneg] at h ⊢
      have hchar : str 0 = '-'.toUInt8 := h 0 _ rfl
      rw [List.length_singleton, str2intLoop, if_pos hchar, ← Int32.ofInt_neg, Int.ofNat_natAbs_of_nonpos (by omega),
        neg_neg, Int32.ofInt_toInt]
    · rw [if_neg hneg, List.length_nil, str2intLoop, Int.natAbs_of_nonneg (by omega), Int32.ofInt_toInt]

theorem zero_notMem_numeral (hb : 2 ≤ b) (hb10 : b ≤ 10) (v : Int) : 0 ∉ numeral b v := by
  unfold numeral signOf
  intro h
  split at h
  · exact absurd (List.mem_singleton.mp h) (by decide)
  · rcases List.mem_append.mp h with h | h
    · split at h
      · exact absurd (List.mem_singleton.mp h) (by decide)
      · cases h
    · obtain ⟨d, hd, hchar⟩ := List.mem_map.mp h
      exact digitChar_ne_zero (digit_lt hb hb10 _ d (List.mem_reverse.mp hd)) hchar

end

/-! The round trip. -/

section

variable {v base : Int32}

theorem exists_base (h2 : 2 ≤ base) (h10 : base ≤ 10) :
    base.toInt = base.toInt.toNat ∧ 2 ≤ base.toInt.toNat ∧ base.toInt.toNat ≤ 10 := by
  have h2' : (2 : Int) ≤ base.toInt := Int32.le_iff_toInt_le.mp h2
  have h10' : base.toInt ≤ (10 : Int) := Int32.le_iff_toInt_le.mp h10
  omega

theorem int2str_numeral (h2 : 2 ≤ base) (h10 : base ≤ 10) (h : v ≠ Int32.minValue) (str : Nat → UInt8) :
    ∃ str' m, (∀ fuel, m ≤ fuel → int2str fuel v str base = some str') ∧
      Spells str' (numeral base.toInt.toNat v.toInt ++ [0]) := by
  obtain ⟨hbase, hb2, hb10⟩ := exists_base h2 h10
  by_cases hv : v = 0
  · have hput := ((spells_nil str).put '0'.toUInt8).put 0
    refine ⟨_, 0, fun fuel _ => ?_, by rw [hv, numeral, if_pos (by decide)]; exact hput⟩
    unfold int2str
    rw [if_pos hv]
    rfl
  · obtain ⟨str', hrun, hspells⟩ := int2str_spells (.inl rfl) hb2 hbase hv (toInt_negated h) str
    have hne : v.toInt ≠ 0 := fun h0 => hv (Int32.toInt_inj.mp h0)
    refine ⟨str', _, hrun, ?_⟩
    rw [numeral, if_neg hne]
    have hchars : (Nat.digits base.toInt.toNat v.toInt.natAbs).reverse.map (signedChar 1) =
        (Nat.digits base.toInt.toNat v.toInt.natAbs).reverse.map digitChar := by
      apply List.map_congr_left
      intro d hd
      exact signedChar_one (digit_lt hb2 hb10 _ d (List.mem_reverse.mp hd))
    rw [hchars] at hspells
    exact hspells

theorem int2str_minValue (h2 : 2 ≤ base) (h10 : base ≤ 10) (str : Nat → UInt8) : ¬RoundTrips str Int32.minValue base := by
  obtain ⟨hbase, hb2, hb10⟩ := exists_base h2 h10
  rintro ⟨str', n, m, hrun, hnumeral, -⟩
  obtain ⟨str'', hrun'', hspells⟩ := int2str_spells (s := -1) (v := Int32.minValue) (.inr rfl) hb2 hbase (by decide)
    (by decide) str
  have hsame : str'' = str' := by
    have h1 := hrun _ (Nat.le_max_left m (Nat.digits base.toInt.toNat Int32.minValue.toInt.natAbs).length)
    have h2 := hrun'' _ (Nat.le_max_right m _)
    exact Option.some.inj (h2.symm.trans h1.1)
  rw [hsame] at hspells
  rw [numeral, if_neg (by decide)] at hnumeral
  have hlists := hspells.unique hnumeral (by simp)
  have hchars := List.append_cancel_left (List.append_cancel_right hlists)
  have hzero : ∀ d ∈ Nat.digits base.toInt.toNat Int32.minValue.toInt.natAbs, d = 0 := by
    intro d hd
    have := List.map_inj_left.mp hchars d (List.mem_reverse.mpr hd)
    exact signedChar_neg (digit_lt hb2 hb10 _ d hd) this
  have hne : Int32.minValue.toInt.natAbs ≠ 0 := by decide
  exact Nat.getLast_digit_ne_zero _ hne (hzero _ (List.getLast_mem _))

/-- The round trip succeeds for every number but the smallest, in every base. -/
theorem int2str_round_trips_iff (str : Nat → UInt8) (h2 : 2 ≤ base) (h10 : base ≤ 10) :
    RoundTrips str v base ↔ v ≠ Int32.minValue := by
  obtain ⟨hbase, hb2, hb10⟩ := exists_base h2 h10
  constructor
  · rintro h rfl
    exact int2str_minValue h2 h10 str h
  · intro h
    obtain ⟨str', m, hrun, hspells⟩ := int2str_numeral h2 h10 h str
    refine ⟨str', (numeral base.toInt.toNat v.toInt).length, max m ((numeral base.toInt.toNat v.toInt).length + 1), ?_,
      hspells, str2int_numeral hbase hb2 hb10 hspells⟩
    intro fuel hfuel
    exact ⟨hrun fuel (by omega), hspells.strlen (zero_notMem_numeral hb2 hb10 _) (by omega)⟩

/-- Minus two in base two. -/
theorem int2str_round_trips_negative : RoundTrips (fun _ => 7) (-2) 2 ∧ numeral 2 (-2) = [45, 49, 48] := by
  constructor
  · exact (int2str_round_trips_iff _ (by decide) (by decide)).mpr (by decide)
  · simp [numeral, signOf, digitChar]
    decide

/-- The smallest number in base ten: the digits are characters below '0'. -/
theorem int2str_smallest_fails : ¬RoundTrips (fun _ => 0) Int32.minValue 10 ∧
    ∃ str', int2str 10 Int32.minValue (fun _ => 0) 10 = some str' ∧
      Spells str' [45, 46, 47, 44, 41, 44, 40, 45, 42, 44, 40, 0] := by
  constructor
  · exact int2str_minValue (by decide) (by decide) _
  · have hbase : (10 : Int32).toInt = (10 : Nat) := rfl
    obtain ⟨str', hrun, hspells⟩ := int2str_spells (s := -1) (v := Int32.minValue) (.inr rfl) (by decide) hbase
      (by decide) (by decide) fun _ => 0
    have hdigits : Nat.digits 10 Int32.minValue.toInt.natAbs = [8, 4, 6, 3, 8, 4, 7, 4, 1, 2] := by
      rw [show Int32.minValue.toInt.natAbs = 2147483648 from rfl]
      norm_num
    rw [hdigits] at hrun hspells
    exact ⟨str', hrun 10 (by decide), hspells⟩

end

end ArmKernel.User
