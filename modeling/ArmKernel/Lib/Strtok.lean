import Mathlib.Data.List.TakeWhile
import Mathlib.Logic.Function.Basic

/-! `strtok` of the C library. What is left of a string is kept between calls
behind one pointer, whoever calls; over strings alone a call splits off the
first token. -/
namespace ArmKernel.Lib.Strtok

variable {α : Type}

/-- Arrays of characters by name, with a terminator behind each, and the pointer
that is kept. -/
structure Mem (α : Type) where
  chars : α → List UInt8
  saved : Option (α × Nat)

def Mem.string (m : Mem α) (p : α × Nat) : List UInt8 := ((m.chars p.1).drop p.2).takeWhile (· != 0)

/-- The character at `n` gives way to a terminator; the next call goes on behind
it. -/
def Mem.terminate [DecidableEq α] (m : Mem α) (a : α) (n : Nat) : Mem α where
  chars := Function.update m.chars a ((m.chars a).set n 0)
  saved := some (a, n + 1)

/-- Without a string the call goes on where the last one stopped. The token is
ended by a terminator in place of its delimiter. -/
def strtok [DecidableEq α] (m : Mem α) (s : Option (α × Nat)) (delim : UInt8 → Bool) : Option (α × Nat) × Mem α :=
  match s.or m.saved with
  | none => (none, m)
  | some (a, i) =>
    let str := m.string (a, i)
    let start := i + (str.takeWhile delim).length
    let tok := (str.dropWhile delim).takeWhile (!delim ·)
    if tok = [] then (none, { m with saved := none })
    else
      let stop := start + tok.length
      if m.string (a, stop) = [] then (some (a, start), { m with saved := none })
      else (some (a, start), m.terminate a stop)

/-! Strings alone. -/

/-- The first token, and what is left behind its delimiter if it has one. -/
def firstToken (delim : UInt8 → Bool) (str : List UInt8) : Option (List UInt8 × Option (List UInt8)) :=
  match (str.dropWhile delim).takeWhile (!delim ·), (str.dropWhile delim).dropWhile (!delim ·) with
  | [], _ => none
  | c :: tok, [] => some (c :: tok, none)
  | c :: tok, _ :: rest => some (c :: tok, some rest)

section

variable {delim : UInt8 → Bool} {str : List UInt8}

theorem firstToken_eq_none : firstToken delim str = none ↔ ∀ c ∈ str, delim c = true := by
  rw [← List.dropWhile_eq_nil_iff]
  unfold firstToken
  cases hrest : str.dropWhile delim with
  | nil => simp
  | cons c rest =>
    have hc : delim c = false := by
      have := List.head?_dropWhile_not delim str
      rw [hrest] at this
      simpa using this
    rw [List.takeWhile_cons, if_pos (by simp [hc])]
    cases (c :: rest).dropWhile (!delim ·) <;> simp

theorem firstToken_none (h : firstToken delim str = none) : (str.dropWhile delim).takeWhile (!delim ·) = [] := by
  unfold firstToken at h
  split at h
  · assumption
  · cases h
  · cases h

theorem firstToken_eq_some {tok : List UInt8} {left : Option (List UInt8)} (h : firstToken delim str = some (tok, left)) :
    tok ≠ [] ∧ (∀ c ∈ tok, delim c = false) ∧ tok = (str.dropWhile delim).takeWhile (!delim ·) ∧
      (left = none ∧ str = str.takeWhile delim ++ tok ∨
        ∃ d rest, left = some rest ∧ delim d = true ∧ str = str.takeWhile delim ++ (tok ++ d :: rest)) := by
  have hsplit : str = str.takeWhile delim ++ ((str.dropWhile delim).takeWhile (!delim ·) ++
      (str.dropWhile delim).dropWhile (!delim ·)) := by
    rw [List.takeWhile_append_dropWhile, List.takeWhile_append_dropWhile]
  have hplain : ∀ c ∈ (str.dropWhile delim).takeWhile (!delim ·), delim c = false := fun c hc => by
    simpa using List.mem_takeWhile_imp hc
  have hdelim := List.head?_dropWhile_not (!delim ·) (str.dropWhile delim)
  unfold firstToken at h
  generalize hhead : (str.dropWhile delim).takeWhile (!delim ·) = head at h hsplit hplain
  generalize (str.dropWhile delim).dropWhile (!delim ·) = after at h hsplit hdelim
  match head, after, h with
  | c :: rest, [], h =>
    simp only [Option.some.injEq, Prod.mk.injEq] at h
    obtain ⟨rfl, rfl⟩ := h
    rw [List.append_nil] at hsplit
    exact ⟨by simp, hplain, rfl, .inl ⟨rfl, hsplit⟩⟩
  | c :: rest, d :: left', h =>
    simp only [Option.some.injEq, Prod.mk.injEq] at h
    obtain ⟨rfl, rfl⟩ := h
    exact ⟨by simp, hplain, rfl, .inr ⟨d, left', rfl, by simpa using hdelim, hsplit⟩⟩

end

/-! Pointers. -/

theorem Mem.drop_chars (m : Mem α) {p : α × Nat} {pre post : List UInt8} (h : m.string p = pre ++ post) :
    ∃ tail, (m.chars p.1).drop p.2 = pre ++ tail ∧ tail.takeWhile (· != 0) = post ∧ ∀ c ∈ pre, (c != 0) = true := by
  rw [Mem.string] at h
  have hplain : ∀ c ∈ pre, (c != 0) = true := fun c hc => by
    have hmem : c ∈ pre ++ post := List.mem_append_left _ hc
    rw [← h] at hmem
    exact List.mem_takeWhile_imp (p := (· != 0)) hmem
  obtain ⟨tail, htail⟩ : pre <+: (m.chars p.1).drop p.2 := by
    apply List.IsPrefix.trans _ (List.takeWhile_prefix (· != 0))
    rw [h]
    exact List.prefix_append _ _
  refine ⟨tail, htail.symm, ?_, hplain⟩
  rw [← htail, List.takeWhile_append_of_pos hplain] at h
  exact List.append_cancel_left h

theorem Mem.string_add (m : Mem α) {p : α × Nat} {pre post : List UInt8} (h : m.string p = pre ++ post) :
    m.string (p.1, p.2 + pre.length) = post := by
  obtain ⟨tail, htail, hpost, -⟩ := m.drop_chars h
  rw [Mem.string, ← List.drop_drop, htail, List.drop_left]
  exact hpost

theorem Mem.terminate_chars [DecidableEq α] (m : Mem α) (a : α) (n : Nat) :
    (m.terminate a n).chars a = (m.chars a).set n 0 := Function.update_self ..

theorem Mem.string_terminate [DecidableEq α] (m : Mem α) {p : α × Nat} {pre post : List UInt8} {d : UInt8}
    (h : m.string p = pre ++ d :: post) :
    (m.terminate p.1 (p.2 + pre.length)).string p = pre ∧
      (m.terminate p.1 (p.2 + pre.length)).string (p.1, p.2 + pre.length + 1) = post := by
  obtain ⟨tail, htail, hpost, hplain⟩ := m.drop_chars h
  cases tail with
  | nil => simp at hpost
  | cons d' tail =>
    constructor
    · rw [Mem.string, terminate_chars, List.drop_set, if_neg (by omega), htail,
        List.set_append_right _ _ (by omega), List.takeWhile_append_of_pos hplain]
      simp
    · have hrest := m.string_add (show m.string p = (pre ++ [d]) ++ post by rw [h]; simp)
      rw [List.length_append, List.length_singleton, ← Nat.add_assoc] at hrest
      rw [Mem.string, terminate_chars, List.drop_set_of_lt (by omega)]
      exact hrest

theorem Mem.string_terminate_behind [DecidableEq α] (m : Mem α) (p : α × Nat) {n : Nat}
    (h : p.2 + (m.string p).length < n) : (m.terminate p.1 n).string p = m.string p := by
  obtain ⟨tail, htail, hend, hplain⟩ := m.drop_chars (List.append_nil (m.string p)).symm
  have hstop : (tail.set (n - p.2 - (m.string p).length) 0).takeWhile (· != 0) = [] := by
    cases tail with
    | nil => rfl
    | cons c tail =>
      obtain ⟨j, hj⟩ : ∃ j, n - p.2 - (m.string p).length = j + 1 := ⟨n - p.2 - (m.string p).length - 1, by omega⟩
      rw [hj, List.set_cons_succ]
      simpa using hend
  rw [Mem.string, terminate_chars, List.drop_set, if_neg (by omega), htail,
    List.set_append_right _ _ (by omega), List.takeWhile_append_of_pos hplain, hstop, List.append_nil]

structure Cut (m m' : Mem α) (p : α × Nat) (delim : UInt8 → Bool) (tok : List UInt8) (i : Nat) : Prop where
  token : m'.string (p.1, i) = tok
  str : m'.string p = (m.string p).takeWhile delim ++ tok

theorem strtok_cases [DecidableEq α] (m : Mem α) (s : Option (α × Nat)) (delim : UInt8 → Bool) {p : α × Nat}
    (hp : s.or m.saved = some p) :
    (firstToken delim (m.string p) = none ∧ strtok m s delim = (none, { m with saved := none })) ∨
    (∃ tok i, firstToken delim (m.string p) = some (tok, none) ∧ Cut m { m with saved := none } p delim tok i ∧
      strtok m s delim = (some (p.1, i), { m with saved := none })) ∨
    ∃ tok rest i n m', firstToken delim (m.string p) = some (tok, some rest) ∧ Cut m m' p delim tok i ∧
      m'.string (p.1, n + 1) = rest ∧ n = p.2 + (m'.string p).length ∧
      m' = m.terminate p.1 n ∧ strtok m s delim = (some (p.1, i), m') := by
  unfold strtok
  rw [hp]
  dsimp only
  cases hnext : firstToken delim (m.string p) with
  | none => exact .inl ⟨rfl, if_pos (firstToken_none hnext)⟩
  | some r =>
    right
    obtain ⟨tok, left⟩ := r
    obtain ⟨hne, -, htok, hcase⟩ := firstToken_eq_some hnext
    rw [← htok, if_neg hne]
    set skipped := (m.string p).takeWhile delim with hskipped
    have hstop : p.2 + skipped.length + tok.length = p.2 + (skipped ++ tok).length := by
      rw [List.length_append, Nat.add_assoc]
    rw [hstop]
    rcases hcase with ⟨rfl, hstr⟩ | ⟨d, rest, rfl, -, hstr⟩
    · have hend := m.string_add (show m.string p = (skipped ++ tok) ++ [] by rw [List.append_nil]; exact hstr)
      rw [if_pos hend]
      exact .inl ⟨tok, _, rfl, ⟨m.string_add hstr, hstr⟩, rfl⟩
    · rw [← List.append_assoc] at hstr
      rw [if_neg (by rw [m.string_add hstr]; simp)]
      obtain ⟨hcut, hrest⟩ := m.string_terminate hstr
      exact .inr ⟨tok, rest, _, _, _, rfl, ⟨Mem.string_add _ hcut, hcut⟩, hrest, by rw [hcut], rfl, rfl⟩

/-! What a call depends on and what it leaves. -/

def text (r : Option (α × Nat) × Mem α) : Option ((α × Nat) × List UInt8) := r.1.map fun q => (q, r.2.string q)

/-- Something other than delimiters is left behind the pointer. -/
def Mem.Left (m : Mem α) (delim : UInt8 → Bool) : Prop :=
  ∃ p, m.saved = some p ∧ ∃ c ∈ m.string p, delim c = false

/-- Only array `a` may have changed, and the pointer is into it if it is kept. -/
structure Keeps (m m' : Mem α) (a : α) : Prop where
  saved : ∀ q, m'.saved = some q → q.1 = a
  others : ∀ b, b ≠ a → m'.chars b = m.chars b

/-- The same pointer into array `a`, and the same characters there. -/
structure Agree (a : α) (m m' : Mem α) : Prop where
  saved : m'.saved = m.saved
  array : ∀ q, m.saved = some q → q.1 = a
  chars : m'.chars a = m.chars a

theorem Agree.string {a : α} {m m' : Mem α} (h : Agree a m m') (i : Nat) : m'.string (a, i) = m.string (a, i) := by
  rw [Mem.string, h.chars, Mem.string]

theorem Agree.left {a : α} {m m' : Mem α} (h : Agree a m m') (delim : UInt8 → Bool) :
    m'.Left delim ↔ m.Left delim := by
  rw [Mem.Left, Mem.Left, h.saved]
  refine exists_congr fun p => and_congr_right fun hp => ?_
  obtain ⟨b, i⟩ := p
  obtain rfl : b = a := h.array _ hp
  rw [h.string]

section

variable [DecidableEq α] {m m' : Mem α} {s : Option (α × Nat)} {delim : UInt8 → Bool} {a : α}

theorem strtok_null (delim : UInt8 → Bool) (h : s.or m.saved = none) : strtok m s delim = (none, m) := by
  unfold strtok
  rw [h]

theorem strtok_keeps (delim : UInt8 → Bool) {p : α × Nat} (h : s.or m.saved = some p) :
    Keeps m (strtok m s delim).2 p.1 := by
  rcases strtok_cases m s delim h with ⟨-, he⟩ | ⟨tok, i, -, -, he⟩ | ⟨tok, rest, i, n, m', -, -, -, -, rfl, he⟩
  · rw [he]
    exact ⟨fun q hq => (by cases hq), fun _ _ => rfl⟩
  · rw [he]
    exact ⟨fun q hq => (by cases hq), fun _ _ => rfl⟩
  · rw [he]
    exact ⟨fun q hq => (by cases hq; rfl), fun b hb => Function.update_of_ne hb ..⟩

theorem strtok_array {q : α × Nat} (hq : (strtok m none delim).1 = some q) : ∃ p, m.saved = some p ∧ q.1 = p.1 := by
  cases hsaved : m.saved with
  | none =>
    rw [strtok_null delim (by rw [hsaved]; rfl)] at hq
    cases hq
  | some p =>
    refine ⟨p, rfl, ?_⟩
    rcases strtok_cases m none delim (by rw [hsaved]; rfl) with
      ⟨-, he⟩ | ⟨tok, i, -, -, he⟩ | ⟨tok, rest, i, n, m', -, -, -, -, -, he⟩
    · rw [he] at hq
      cases hq
    · rw [he] at hq
      cases hq
      rfl
    · rw [he] at hq
      cases hq
      rfl

theorem strtok_eq_none : (strtok m none delim).1 = none ↔ ¬m.Left delim := by
  cases hsaved : m.saved with
  | none =>
    rw [strtok_null delim (by rw [hsaved]; rfl)]
    refine iff_of_true rfl ?_
    rintro ⟨p, hp, -⟩
    rw [hsaved] at hp
    cases hp
  | some p =>
    have hleft : m.Left delim ↔ firstToken delim (m.string p) ≠ none := by
      rw [Ne, firstToken_eq_none]
      simp [Mem.Left, hsaved]
    rw [hleft, not_not]
    rcases strtok_cases m none delim (by rw [hsaved]; rfl) with
      ⟨hnone, he⟩ | ⟨tok, i, hsome, -, he⟩ | ⟨tok, rest, i, n, m', hsome, -, -, -, -, he⟩
    · exact iff_of_true (by rw [he]) hnone
    · rw [he, hsome]
      simp
    · rw [he, hsome]
      simp

theorem strtok_none_saved (h : (strtok m none delim).1 = none) :
    (strtok m none delim).2.saved = none ∧ (strtok m none delim).2.chars = m.chars := by
  cases hsaved : m.saved with
  | none =>
    rw [strtok_null delim (by rw [hsaved]; rfl)]
    exact ⟨hsaved, rfl⟩
  | some p =>
    rcases strtok_cases m none delim (by rw [hsaved]; rfl) with
      ⟨-, he⟩ | ⟨tok, i, -, -, he⟩ | ⟨tok, rest, i, n, m', -, -, -, -, -, he⟩
    · rw [he]
      exact ⟨rfl, rfl⟩
    · rw [he] at h
      cases h
    · rw [he] at h
      cases h

theorem Agree.strtok (h : Agree a m m') (delim : UInt8 → Bool) :
    text (strtok m' none delim) = text (strtok m none delim) ∧
      Agree a (strtok m none delim).2 (strtok m' none delim).2 := by
  have hsaved := h.saved
  cases hm : m.saved with
  | none =>
    rw [hm] at hsaved
    rw [strtok_null delim (m := m) (by rw [hm]; rfl), strtok_null delim (m := m') (by rw [hsaved]; rfl)]
    exact ⟨rfl, h⟩
  | some p =>
    obtain ⟨b, i⟩ := p
    obtain rfl : b = a := h.array _ hm
    rw [hm] at hsaved
    unfold Strtok.strtok
    rw [hm, hsaved]
    dsimp only [Option.or]
    simp only [h.string]
    split
    · exact ⟨rfl, rfl, fun q hq => (by cases hq), h.chars⟩
    · split
      · refine ⟨?_, rfl, fun q hq => (by cases hq), h.chars⟩
        simp only [text, Option.map_some, Mem.string, h.chars]
      · have hchars : ∀ n, (m'.terminate b n).chars b = (m.terminate b n).chars b := fun n => by
          rw [Mem.terminate_chars, Mem.terminate_chars, h.chars]
        refine ⟨?_, rfl, fun q hq => (by cases hq; rfl), hchars _⟩
        simp only [text, Option.map_some, Mem.string, hchars]

end

end ArmKernel.Lib.Strtok
