import ArmKernel.Core.FsckRuns
import ArmKernel.Core.Supervisor
import ArmKernel.Lib.Run

/-! How the shell splits its command lines. Kernel and programs are linked into
one image, so the pointer that `strtok` keeps between the calls of `init` is the
one that the path walks of the kernel use too. -/
namespace ArmKernel.Core

open Lib Lib.Bytes Lib.Run Lib.Strtok Fs

/-! Path walks over memory. -/

section

variable {α : Type} [DecidableEq α]

/-- The loop of `path_to_ino`, `path_to_ino2` and `cd`, which has found `ino` so
far and `tok` next. -/
def walkLoop (v : Vol) : Nat → UInt32 → Option (α × Nat) → Mem α → UInt32 × Mem α
  | 0, ino, _, m => (ino, m)
  | _+1, ino, none, m => (ino, m)
  | n+1, ino, some tok, m =>
    if ino = noAddr then (ino, m)
    else
      let ino := nameToIno v (m.string tok) (readInode v ⟨0, 0, v.stkIc⟩ ino)
      match strtok m none (· == slash) with
      | (tok, m) => walkLoop v n ino tok m

/-- There are fewer components than the bound on the rounds. -/
def walkString (v : Vol) (m : Mem α) (path : α × Nat) (dir : UInt32) : UInt32 × Mem α :=
  match strtok m (some path) (· == slash) with
  | (tok, m') => walkLoop v ((m.string path).length + 1) dir tok m'

/-- The components that are still to come. -/
def tokensLeft (m : Mem α) : Option (α × Nat) → List CStr
  | none => []
  | some tok => m.string tok :: m.saved.elim [] fun p => tokens (m.string p)

theorem tokens_length_le (path : CStr) : (tokens path).length ≤ path.length + 1 := by
  refine le_trans (List.length_filter_le ..) ?_
  induction path with
  | nil => simp
  | cons c rest ih =>
    rw [List.splitOn_cons_eq_if_modifyHead]
    split
    · simpa using ih
    · rw [List.length_modifyHead]
      exact ih.trans (by simp)

variable {m : Mem α} {s : Option (α × Nat)}

theorem strtok_tokensLeft {p : α × Nat} (h : s.or m.saved = some p) :
    tokensLeft (strtok m s (· == slash)).2 (strtok m s (· == slash)).1 = tokens (m.string p) := by
  rw [tokens_firstToken]
  rcases strtok_cases m s (· == slash) h with
    ⟨hnone, he⟩ | ⟨tok, i, hsome, hcut, he⟩ | ⟨tok, rest, i, n, m', hsome, hcut, hrest, -, hm', he⟩
  · rw [he, hnone]
    rfl
  · rw [he, hsome, tokensLeft, hcut.token]
    rfl
  · have hsaved : m'.saved = some (p.1, n + 1) := by rw [hm']; rfl
    rw [he, hsome, tokensLeft, hcut.token, hsaved, Option.elim_some, hrest]

theorem walkLoop_ino (v : Vol) (n : Nat) (ino : UInt32) (tok : Option (α × Nat))
    (h : (tokensLeft m tok).length ≤ n) : (walkLoop v n ino tok m).1 = walkPath v ino (tokensLeft m tok) := by
  induction n generalizing ino tok m with
  | zero =>
    rw [List.length_eq_zero_iff.mp (Nat.le_zero.mp h)]
    rfl
  | succ n ih =>
    cases tok with
    | none => rfl
    | some tok =>
      rw [walkLoop, tokensLeft, walkPath]
      split
      · next hno => exact hno
      · rw [tokensLeft, List.length_cons] at h
        have hleft : tokensLeft (strtok m none (· == slash)).2 (strtok m none (· == slash)).1 =
            m.saved.elim [] fun p => tokens (m.string p) := by
          cases hsaved : m.saved with
          | none =>
            rw [strtok_null _ (by rw [hsaved]; rfl)]
            rfl
          | some p => exact strtok_tokensLeft (by rw [hsaved]; rfl)
        rw [← hleft] at h ⊢
        exact ih (m := (strtok m none (· == slash)).2) _ _ (Nat.le_of_succ_le_succ h)

theorem walkString_ino (v : Vol) (m : Mem α) (path : α × Nat) (dir : UInt32) :
    (walkString v m path dir).1 = pathToIno v (m.string path) dir := by
  have hleft : tokensLeft (strtok m (some path) (· == slash)).2 (strtok m (some path) (· == slash)).1 =
      tokens (m.string path) := strtok_tokensLeft rfl
  unfold walkString
  dsimp only
  rw [walkLoop_ino, hleft, pathToIno]
  rw [hleft]
  exact tokens_length_le _

theorem walkLoop_keeps (v : Vol) (n : Nat) (ino : UInt32) (tok : Option (α × Nat)) {a : α}
    (h : ∀ q, m.saved = some q → q.1 = a) : Keeps m (walkLoop v n ino tok m).2 a := by
  induction n generalizing ino tok m with
  | zero => exact ⟨h, fun _ _ => rfl⟩
  | succ n ih =>
    cases tok with
    | none => exact ⟨h, fun _ _ => rfl⟩
    | some tok =>
      rw [walkLoop]
      split
      · exact ⟨h, fun _ _ => rfl⟩
      · cases hsaved : m.saved with
        | none =>
          rw [strtok_null _ (by rw [hsaved]; rfl)]
          exact ih _ _ h
        | some p =>
          have hstep : Keeps m (strtok m none (· == slash)).2 p.1 := strtok_keeps _ (by rw [hsaved]; rfl)
          rw [h p hsaved] at hstep
          have hrest := ih (nameToIno v (m.string tok) (readInode v ⟨0, 0, v.stkIc⟩ ino))
            (strtok m none (· == slash)).1 hstep.saved
          exact ⟨hrest.saved, fun b hb => (hrest.others b hb).trans (hstep.others b hb)⟩

theorem walkString_keeps (v : Vol) (m : Mem α) (path : α × Nat) (dir : UInt32) :
    Keeps m (walkString v m path dir).2 path.1 := by
  have hfirst : Keeps m (strtok m (some path) (· == slash)).2 path.1 := strtok_keeps _ rfl
  have hrest := walkLoop_keeps v ((m.string path).length + 1) dir (strtok m (some path) (· == slash)).1 hfirst.saved
  exact ⟨hrest.saved, fun b hb => (hrest.others b hb).trans (hfirst.others b hb)⟩

theorem walkLoop_string (v : Vol) (n : Nat) (ino : UInt32) (tok : Option (α × Nat)) {path : α × Nat}
    (h : ∀ q, m.saved = some q → q.1 = path.1 ∧ path.2 + (m.string path).length < q.2) :
    (walkLoop v n ino tok m).2.string path = m.string path := by
  induction n generalizing ino tok m with
  | zero => rfl
  | succ n ih =>
    cases tok with
    | none => rfl
    | some tok =>
      rw [walkLoop]
      split
      · rfl
      · cases hsaved : m.saved with
        | none =>
          rw [strtok_null _ (by rw [hsaved]; rfl)]
          exact ih _ _ h
        | some p =>
          obtain ⟨harray, hbehind⟩ := h p hsaved
          rcases strtok_cases m none (· == slash) (p := p) (by rw [hsaved]; rfl) with
            ⟨-, he⟩ | ⟨t, i, -, -, he⟩ | ⟨t, rest, i, k, m', -, -, -, hk, hm', he⟩
          · rw [he]
            exact ih (m := { m with saved := none }) _ _ fun q hq => by cases hq
          · rw [he]
            exact ih (m := { m with saved := none }) _ _ fun q hq => by cases hq
          · have hsame : m'.string path = m.string path := by
              rw [hm', harray]
              exact m.string_terminate_behind path (by omega)
            rw [he, ← hsame]
            refine ih _ _ fun q hq => ?_
            rw [hm'] at hq
            cases hq
            exact ⟨harray, by rw [hsame]; dsimp only; omega⟩

theorem walkString_cut (v : Vol) (m : Mem α) (path : α × Nat) (dir : UInt32) :
    (walkString v m path dir).2.string path = strtokCut (m.string path) := by
  have hcut : ∀ {tok left}, firstToken (· == slash) (m.string path) = some (tok, left) →
      (m.string path).takeWhile (· == slash) ++ tok = strtokCut (m.string path) := fun {tok left} h => by
    rw [(firstToken_eq_some h).2.2.1]
    rfl
  unfold walkString
  dsimp only
  rcases strtok_cases m (some path) (· == slash) rfl with
    ⟨hnone, he⟩ | ⟨t, i, hsome, hc, he⟩ | ⟨t, rest, i, k, m', hsome, hc, -, hk, hm', he⟩
  · have hslashes : (m.string path).dropWhile (· == slash) = [] :=
      List.dropWhile_eq_nil_iff.mpr (firstToken_eq_none.mp hnone)
    have hall := List.takeWhile_append_dropWhile (p := (· == slash)) (l := m.string path)
    rw [he, walkLoop, strtokCut, hslashes]
    rw [hslashes] at hall
    exact hall.symm
  · rw [he, ← hcut hsome, ← hc.str]
    exact walkLoop_string v _ _ _ fun q hq => by cases hq
  · rw [he, ← hcut hsome, ← hc.str]
    refine walkLoop_string v _ _ _ fun q hq => ?_
    rw [hm'] at hq
    cases hq
    exact ⟨rfl, by dsimp only; omega⟩

/-- **A path walk over memory is the walk along the path's components.** It finds
what they lead to, leaves the path cut behind its first component, and touches no
other string. -/
theorem walk_over_memory (v : Vol) (m : Mem α) (path : α × Nat) (dir : UInt32) :
    (walkString v m path dir).1 = pathToIno v (m.string path) dir ∧
      (walkString v m path dir).2.string path = strtokCut (m.string path) ∧
      ∀ p : α × Nat, p.1 ≠ path.1 → (walkString v m path dir).2.string p = m.string p := by
  refine ⟨walkString_ino v m path dir, walkString_cut v m path dir, fun p hp => ?_⟩
  unfold Mem.string
  rw [(walkString_keeps v m path dir).others p.1 hp]

end

/-! Other processes. -/

/-- The line `x` of the shell, the arrays of other processes, and what address 0
is the start of. -/
inductive Buf where
  | line
  | other (n : Nat)
  | null
  deriving DecidableEq

/-- A pointer of another process is into an array of its own. -/
def foreign (p : Nat × Nat) : Buf × Nat := (.other p.1, p.2)

inductive WalkCall where
  | open (path : Nat × Nat) (oflag : OFlag)
  | exec (path : Nat × Nat)
  | cd (path : Nat × Nat)
  | mv (name path : Nat × Nat)
  | cp (src dest : Nat × Nat)

/-- Whether the call comes to its path. -/
def walks (k : Kernel) (m : Mem Buf) : WalkCall → Prop
  | .open _ _ => getFD k ≠ none
  | .exec _ => True
  | .cd _ => True
  | .mv name _ => (m.string (foreign name)).head? ≠ some dot
  | .cp src _ => (m.string (foreign src)).head? ≠ some dot

/-- What it does to the strings; `exec` opens the path that it has found. -/
def walkMem (k : Kernel) (m : Mem Buf) : WalkCall → Mem Buf
  | .open path _ => if getFD k = none then m else (walkString k.vol m (foreign path) rootDir).2
  | .exec path =>
    match walkString k.vol m (foreign path) rootDir with
    | (ino, m) =>
      if ino = noAddr ∨ getFD k = none then m else (walkString k.vol m (foreign path) rootDir).2
  | .cd path => (walkString k.vol m (foreign path) k.cwd).2
  | .mv name path =>
    if (m.string (foreign name)).head? = some dot then m else (walkString k.vol m (foreign path) rootDir).2
  | .cp src _ =>
    if (m.string (foreign src)).head? = some dot then m else (walkString k.vol m (foreign src) k.cwd).2

def walkKernel (k : Kernel) (m : Mem Buf) : WalkCall → Kernel
  | .open path oflag => (openFile k (m.string (foreign path)) oflag).2
  | .exec path => (exec k (m.string (foreign path))).2
  | .cd path => (cd k (m.string (foreign path))).2
  | .mv name path => (mv k (m.string (foreign name)) (m.string (foreign path))).2
  | .cp src dest => (cp k (m.string (foreign src)) (m.string (foreign dest))).2

/-- Process `p` makes a call. -/
def walkStep (s : Kernel × Mem Buf) (c : Fin 8 × WalkCall) : Kernel × Mem Buf :=
  (walkKernel { s.1 with current := c.1 } s.2 c.2, walkMem { s.1 with current := c.1 } s.2 c.2)

/-! The shell. -/

def blank (c : UInt8) : Bool := c == 32

/-- The delimiters `" \n\r"`. -/
def blankOrEol (c : UInt8) : Bool := c == 32 || c == 10 || c == 13

/-- `strncmp( tok, word, n ) == 0` -/
def isCommand (tok : CStr) (word : String) (n : Nat) : Bool :=
  strncmpEq (fun i => tok.getD i 0) (fun i => (cstr word).getD i 0) 0 n

/-- The delimiters of the further calls of `strtok` that `init` makes for a
command. -/
def arguments (tok : CStr) : List (UInt8 → Bool) :=
  if isCommand tok "run" 4 then [blankOrEol]
  else if isCommand tok "kill" 4 then [blankOrEol]
  else if isCommand tok "wipe" 4 then []
  else if isCommand tok "quit" 4 then []
  else if isCommand tok "pwd" 3 then []
  else if isCommand tok "ls" 2 then []
  else if isCommand tok "mkdir" 5 then [blankOrEol]
  else if isCommand tok "cd" 2 then [blankOrEol]
  else if isCommand tok "rm" 2 then [blankOrEol]
  else if isCommand tok "mv" 2 then [blankOrEol, blankOrEol]
  else if isCommand tok "cp" 2 then [blankOrEol, blankOrEol]
  else if isCommand tok "cat" 3 then [blankOrEol]
  else if isCommand tok "setp" 4 then [blank, blankOrEol]
  else []

/-- The tokens `init` gets for its arguments. Before each of its calls of
`strtok` other processes make the calls that are next in `gaps`. -/
def readArguments : List (UInt8 → Bool) → List (List (Fin 8 × WalkCall)) → Kernel × Mem Buf →
    List (Option ((Buf × Nat) × CStr))
  | [], _, _ => []
  | delim :: rest, gaps, s =>
    let s := run walkStep s (gaps.headD [])
    let r := strtok s.2 none delim
    text r :: readArguments rest gaps.tail (s.1, r.2)

/-- All tokens of a command line; a command that is missing is read at address
0. -/
def readCommand (s : Kernel × Mem Buf) (gaps : List (List (Fin 8 × WalkCall))) :
    List (Option ((Buf × Nat) × CStr)) :=
  let r := strtok s.2 (some (.line, 0)) blank
  text r :: readArguments (arguments (r.2.string (r.1.getD (.null, 0)))) gaps (s.1, r.2)

/-- No call comes to its path. -/
def Quiet (s : Kernel × Mem Buf) (gap : List (Fin 8 × WalkCall)) : Prop :=
  Along walkStep (fun s c => ¬walks { s.1 with current := c.1 } s.2 c.2) s gap

/-- In each gap no path is walked, or only delimiters are left behind the pointer
both before and after. -/
def Undisturbed : List (UInt8 → Bool) → List (List (Fin 8 × WalkCall)) → Kernel × Mem Buf → Prop
  | [], _, _ => True
  | delim :: rest, gaps, s =>
    let s' := run walkStep s (gaps.headD [])
    (Quiet s (gaps.headD []) ∨ ¬s.2.Left delim ∧ ¬s'.2.Left delim) ∧
      Undisturbed rest gaps.tail (s'.1, (strtok s'.2 none delim).2)

section

variable {k : Kernel} {m m₀ : Mem Buf} {s : Kernel × Mem Buf}

/-- The pointer is not into the line of the shell. -/
def Abroad (m : Mem Buf) : Prop := ∀ q, m.saved = some q → q.1 ≠ .line

theorem walkMem_of_not_walks {c : WalkCall} (h : ¬walks k m c) : walkMem k m c = m := by
  cases c with
  | «open» path oflag => exact if_pos (not_not.mp h)
  | exec path => exact absurd trivial h
  | cd path => exact absurd trivial h
  | mv name path => exact if_pos (not_not.mp h)
  | cp src dest => exact if_pos (not_not.mp h)

theorem walkString_abroad (v : Vol) (m : Mem Buf) (path : Nat × Nat) (dir : UInt32) :
    Abroad (walkString v m (foreign path) dir).2 ∧
      (walkString v m (foreign path) dir).2.chars .line = m.chars .line := by
  have hkeeps := walkString_keeps v m (foreign path) dir
  refine ⟨fun q hq => ?_, hkeeps.others _ (by simp [foreign])⟩
  rw [hkeeps.saved q hq]
  simp [foreign]

theorem walkMem_of_walks {c : WalkCall} (h : walks k m c) :
    Abroad (walkMem k m c) ∧ (walkMem k m c).chars .line = m.chars .line := by
  cases c with
  | «open» path oflag =>
    rw [walkMem, if_neg h]
    exact walkString_abroad ..
  | exec path =>
    have hfirst := walkString_abroad k.vol m path rootDir
    rw [walkMem]
    dsimp only
    split
    · exact hfirst
    · have hsecond := walkString_abroad k.vol (walkString k.vol m (foreign path) rootDir).2 path rootDir
      exact ⟨hsecond.1, hsecond.2.trans hfirst.2⟩
  | cd path => exact walkString_abroad ..
  | mv name path =>
    rw [walkMem, if_neg h]
    exact walkString_abroad ..
  | cp src dest =>
    rw [walkMem, if_neg h]
    exact walkString_abroad ..

theorem walkMem_line (c : WalkCall) : (walkMem k m c).chars .line = m.chars .line := by
  by_cases h : walks k m c
  · exact (walkMem_of_walks h).2
  · rw [walkMem_of_not_walks h]

theorem Abroad.walkMem (h : Abroad m) (c : WalkCall) : Abroad (walkMem k m c) := by
  by_cases hw : walks k m c
  · exact (walkMem_of_walks hw).1
  · rw [walkMem_of_not_walks hw]
    exact h

theorem run_line (gap : List (Fin 8 × WalkCall)) : (run walkStep s gap).2.chars .line = s.2.chars .line := by
  induction gap generalizing s with
  | nil => rfl
  | cons c rest ih =>
    rw [run_cons, ih]
    exact walkMem_line c.2

theorem Quiet.mem {gap : List (Fin 8 × WalkCall)} (h : Quiet s gap) : (run walkStep s gap).2 = s.2 := by
  induction gap generalizing s with
  | nil => rfl
  | cons c rest ih =>
    rw [run_cons, ih h.2]
    exact walkMem_of_not_walks h.1

theorem abroad_of_not_quiet {gap : List (Fin 8 × WalkCall)} (h : ¬Quiet s gap) :
    Abroad (run walkStep s gap).2 := by
  have hstays : ∀ (gap : List (Fin 8 × WalkCall)) s, Abroad s.2 → Abroad (run walkStep s gap).2 := by
    intro gap
    induction gap with
    | nil => exact fun s hs => hs
    | cons c rest ih => exact fun s hs => ih _ (hs.walkMem c.2)
  induction gap generalizing s with
  | nil => exact absurd trivial h
  | cons c rest ih =>
    rw [run_cons]
    by_cases hw : walks { s.1 with current := c.1 } s.2 c.2
    · exact hstays rest _ (walkMem_of_walks hw).1
    · exact ih fun hrest => h ⟨hw, hrest⟩

theorem text_eq_iff {delim : UInt8 → Bool} (h : Abroad m) (h₀ : ∀ q, m₀.saved = some q → q.1 = .line) :
    text (strtok m none delim) = text (strtok m₀ none delim) ↔ ¬m₀.Left delim ∧ ¬m.Left delim := by
  rw [← strtok_eq_none, ← strtok_eq_none]
  constructor
  · intro heq
    rw [text, text] at heq
    cases hm : (strtok m none delim).1 with
    | none =>
      rw [hm, Option.map_none, eq_comm, Option.map_eq_none_iff] at heq
      exact ⟨heq, rfl⟩
    | some q =>
      rw [hm, Option.map_some, eq_comm, Option.map_eq_some_iff] at heq
      obtain ⟨q₀, hm₀, hq⟩ := heq
      obtain ⟨p, hp, harray⟩ := strtok_array hm
      obtain ⟨p₀, hp₀, harray₀⟩ := strtok_array hm₀
      refine absurd ?_ (h p hp)
      rw [← harray, ← (Prod.mk.inj hq).1, harray₀, h₀ p₀ hp₀]
  · rintro ⟨hm₀, hm⟩
    rw [text, hm, text, hm₀]
    rfl

theorem readArguments_eq_iff (delims : List (UInt8 → Bool)) (gaps : List (List (Fin 8 × WalkCall)))
    (k₀ : Kernel) (h : Agree .line m₀ s.2) :
    readArguments delims gaps s = readArguments delims [] (k₀, m₀) ↔ Undisturbed delims gaps s := by
  induction delims generalizing gaps s k₀ m₀ with
  | nil => exact iff_of_true rfl trivial
  | cons delim rest ih =>
    rw [readArguments, readArguments, Undisturbed, List.cons.injEq]
    dsimp only [List.headD_nil, List.tail_nil, run_nil]
    set gap := gaps.headD [] with hgap
    by_cases hq : Quiet s gap
    · have hmem := hq.mem
      obtain ⟨htext, hagree⟩ := h.strtok delim
      rw [← hmem] at htext hagree
      rw [← ih gaps.tail k₀ hagree]
      exact and_congr_left' (iff_of_true htext (.inl hq))
    · have habroad := abroad_of_not_quiet hq
      rw [text_eq_iff habroad h.array, h.left]
      rw [or_iff_right hq]
      refine and_congr_right fun ⟨hleft₀, hleft⟩ => ?_
      -- from here on the pointer is kept in neither memory
      obtain ⟨hsaved₀, hchars₀⟩ := strtok_none_saved (strtok_eq_none.mpr hleft₀)
      obtain ⟨hsaved, hchars⟩ := strtok_none_saved (strtok_eq_none.mpr hleft)
      apply ih
      refine ⟨hsaved.trans hsaved₀.symm, fun q hq => ?_, ?_⟩
      · rw [hsaved₀] at hq
        cases hq
      · rw [hchars, run_line, hchars₀, h.chars]

/-- **Command parsing and the system calls of others.** The shell gets the same
tokens as on its own exactly if between two of its calls of `strtok` no other
process comes to walk a path, unless there is nothing left to split before these
calls nor after them. -/
theorem command_tokens_iff (s : Kernel × Mem Buf) (gaps : List (List (Fin 8 × WalkCall))) :
    readCommand s gaps = readCommand s [] ↔
      let r := strtok s.2 (some (.line, 0)) blank
      Undisturbed (arguments (r.2.string (r.1.getD (.null, 0)))) gaps (s.1, r.2) := by
  have hkeeps : Keeps s.2 (strtok s.2 (some (.line, 0)) blank).2 .line :=
    strtok_keeps (p := (Buf.line, 0)) blank rfl
  rw [readCommand, readCommand, List.cons.injEq, and_iff_right rfl]
  exact readArguments_eq_iff _ gaps _ ⟨rfl, hkeeps.saved, rfl⟩

end

/-- The line `mv a b`, and a path `x` of another process. -/
def mvLine : Mem Buf where
  chars := fun
    | .line => cstr "mv a b\r"
    | _ => cstr "x"
  saved := none

/-- Another process changes its directory before the shell has its second
argument, and the shell gets none. -/
theorem mv_line_disturbed : readCommand (blankKernel, mvLine) [[], [(1, .cd (0, 0))]] ≠
    readCommand (blankKernel, mvLine) [] := by
  generalize blankKernel = k
  have hcommand : arguments ((strtok mvLine (some (.line, 0)) blank).2.string
      ((strtok mvLine (some (.line, 0)) blank).1.getD (.null, 0))) = [blankOrEol, blankOrEol] := rfl
  have hkeeps : Keeps mvLine (strtok mvLine (some (.line, 0)) blank).2 .line :=
    strtok_keeps (p := (Buf.line, 0)) blank rfl
  rw [readCommand, readCommand, Ne, List.cons.injEq, not_and]
  dsimp only
  rw [hcommand, readArguments_eq_iff _ _ _ ⟨rfl, hkeeps.saved, rfl⟩]
  rintro - ⟨-, hsecond, -⟩
  rcases hsecond with hquiet | ⟨hleft, -⟩
  · exact hquiet.1 trivial
  · have hrest : 98 ∈ (strtok (strtok mvLine (some (.line, 0)) blank).2 none blankOrEol).2.string (.line, 5) := by
      decide
    exact hleft ⟨(.line, 5), rfl, 98, hrest, rfl⟩

end ArmKernel.Core
