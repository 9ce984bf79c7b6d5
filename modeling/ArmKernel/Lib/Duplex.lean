import Mathlib.Logic.Relation

/-! A client program and a server that answers lines, joined by two in-order
byte streams. Client and server take their steps in any order; the order makes
no difference to where a run ends. -/
namespace ArmKernel.Lib.Duplex

/-- A client: it returns, or writes or reads a byte and goes on. -/
inductive Prog (α : Type) where
  | ret (a : α)
  | put (b : UInt8) (next : Prog α)
  | get (next : UInt8 → Prog α)

namespace Prog

variable {α β : Type}

protected def bind : Prog α → (α → Prog β) → Prog β
  | .ret a, f => f a
  | .put b p, f => .put b (p.bind f)
  | .get g, f => .get fun b => (g b).bind f

instance : Monad Prog where
  pure := .ret
  bind := Prog.bind

inductive Act where
  | put (b : UInt8)
  | get (b : UInt8)

/-- The program does exactly `acts` and returns `a`, when it is given the bytes
in them to read. -/
inductive Does : Prog α → List Act → α → Prop
  | ret (a : α) : Does (.ret a) [] a
  | put {b : UInt8} {p : Prog α} {acts : List Act} {a : α} (h : Does p acts a) :
    Does (.put b p) (.put b :: acts) a
  | get {b : UInt8} {f : UInt8 → Prog α} {acts : List Act} {a : α} (h : Does (f b) acts a) :
    Does (.get f) (.get b :: acts) a

theorem Does.bind {p : Prog α} {f : α → Prog β} {acts acts' : List Act} {a : α} {b : β}
    (h : Does p acts a) (h' : Does (f a) acts' b) : Does (p >>= f) (acts ++ acts') b := by
  induction h with
  | ret a => exact h'
  | put _ ih => exact .put (ih h')
  | get _ ih => exact .get (ih h')

end Prog

open Prog Relation

def readline (eol : UInt8) : List UInt8 → Option (List UInt8 × List UInt8)
  | [] => none
  | b :: bs => if b = eol then some ([], bs) else (readline eol bs).map fun r => (b :: r.1, r.2)

theorem readline_append {eol : UInt8} {bs l rest : List UInt8} (h : readline eol bs = some (l, rest))
    (more : List UInt8) : readline eol (bs ++ more) = some (l, rest ++ more) := by
  induction bs generalizing l with
  | nil => cases h
  | cons b bs ih =>
    rw [List.cons_append]
    unfold readline at h ⊢
    split
    · next hb =>
      rw [if_pos hb] at h
      cases h
      rfl
    · next hb =>
      rw [if_neg hb] at h
      obtain ⟨⟨l', rest'⟩, hr, he⟩ := Option.map_eq_some_iff.mp h
      cases he
      rw [ih hr]
      rfl

theorem readline_line {eol : UInt8} {l : List UInt8} (h : eol ∉ l) (rest : List UInt8) :
    readline eol (l ++ eol :: rest) = some (l, rest) := by
  induction l with
  | nil => simp [readline]
  | cons b l ih =>
    rw [List.mem_cons, not_or] at h
    rw [List.cons_append, readline, if_neg (Ne.symm h.1), ih h.2]
    rfl

/-- The client, the bytes on their way to the server and back, and the server's
state; `none` once the server has failed. -/
structure Net (σ α : Type) where
  client : Prog α
  request : List UInt8
  reply : List UInt8
  server : Option σ

section

variable {σ α : Type} (eol : UInt8) (serve : σ → List UInt8 → Option (σ × List UInt8))

def clientStep (n : Net σ α) : Option (Net σ α) :=
  match n.client with
  | .ret _ => none
  | .put b p => some { n with client := p, request := n.request ++ [b] }
  | .get f =>
    match n.reply with
    | [] => none
    | b :: rest => some { n with client := f b, reply := rest }

/-- The server reads a line when there is one, and answers or fails. -/
def serverStep (n : Net σ α) : Option (Net σ α) :=
  n.server.bind fun s => (readline eol n.request).map fun r =>
    match serve s r.1 with
    | some (s', out) => { n with request := r.2, reply := n.reply ++ out, server := some s' }
    | none => { n with request := r.2, server := none }

def Step (n n' : Net σ α) : Prop := clientStep n = some n' ∨ serverStep eol serve n = some n'

def Reaches : Net σ α → Net σ α → Prop := ReflTransGen (Step eol serve)

def Stuck (n : Net σ α) : Prop := clientStep n = none ∧ serverStep eol serve n = none

/-- However the two take turns, a run from `n` goes on to `n'`, and ends there. -/
def Settles (n n' : Net σ α) : Prop :=
  Stuck eol serve n' ∧ ∀ m, Reaches eol serve n m → Reaches eol serve m n'

variable {eol serve}

theorem step_commutes {n a b : Net σ α} (ha : clientStep n = some a) (hb : serverStep eol serve n = some b) :
    ∃ c, serverStep eol serve a = some c ∧ clientStep b = some c := by
  obtain ⟨client, request, reply, server⟩ := n
  obtain ⟨s, hs, hb⟩ := Option.bind_eq_some_iff.mp hb
  obtain ⟨⟨l, rest⟩, hr, hb⟩ := Option.map_eq_some_iff.mp hb
  dsimp only at hs hr
  subst hs
  cases client with
  | ret a => cases ha
  | put x p =>
    cases ha
    cases hserve : serve s l with
    | none =>
      rw [hserve] at hb
      cases hb
      simp [clientStep, serverStep, readline_append hr, hserve]
    | some out =>
      rw [hserve] at hb
      cases hb
      simp [clientStep, serverStep, readline_append hr, hserve]
  | get f =>
    cases reply with
    | nil => cases ha
    | cons x reply =>
      cases ha
      cases hserve : serve s l with
      | none =>
        rw [hserve] at hb
        cases hb
        simp [clientStep, serverStep, hr, hserve]
      | some out =>
        rw [hserve] at hb
        cases hb
        simp [clientStep, serverStep, hr, hserve]

theorem step_diamond (n a b : Net σ α) (ha : Step eol serve n a) (hb : Step eol serve n b) :
    ∃ c, ReflGen (Step eol serve) a c ∧ ReflTransGen (Step eol serve) b c := by
  have hsame : ∀ {o : Option (Net σ α)}, o = some a → o = some b →
      ∃ c, ReflGen (Step eol serve) a c ∧ ReflTransGen (Step eol serve) b c := by
    intro o h h'
    obtain rfl := Option.some.inj (h.symm.trans h')
    exact ⟨a, .refl, .refl⟩
  obtain ha | ha := ha <;> obtain hb | hb := hb
  · exact hsame ha hb
  · obtain ⟨c, hac, hbc⟩ := step_commutes ha hb
    exact ⟨c, .single (.inr hac), .single (.inl hbc)⟩
  · obtain ⟨c, hbc, hac⟩ := step_commutes hb ha
    exact ⟨c, .single (.inl hac), .single (.inr hbc)⟩
  · exact hsame ha hb

theorem Stuck.reaches {n n' : Net σ α} (h : Stuck eol serve n) (hr : Reaches eol serve n n') : n' = n := by
  obtain rfl | ⟨m, hm, -⟩ := ReflTransGen.cases_head hr
  · rfl
  · obtain hm | hm := hm
    · rw [h.1] at hm
      cases hm
    · rw [h.2] at hm
      cases hm

theorem Stuck.settles {n n' : Net σ α} (h : Stuck eol serve n') (hr : Reaches eol serve n n') :
    Settles eol serve n n' := by
  refine ⟨h, fun m hm => ?_⟩
  obtain ⟨c, hc, hmc⟩ := church_rosser step_diamond hr hm
  rwa [h.reaches hc] at hmc

theorem Settles.unique {n m n' : Net σ α} (h : Settles eol serve n n') (h' : Settles eol serve n m) :
    m = n' := (h'.1.reaches (h.2 m (h'.2 n .refl))).symm

/-! One program after another. -/

def Net.andThen {β : Type} (n : Net σ α) (f : α → Prog β) : Net σ β := ⟨n.client >>= f, n.request, n.reply, n.server⟩

theorem clientStep_andThen {β : Type} {n n' : Net σ α} (f : α → Prog β) (h : clientStep n = some n') :
    clientStep (n.andThen f) = some (n'.andThen f) := by
  obtain ⟨client, request, reply, server⟩ := n
  cases client with
  | ret a => cases h
  | put b p =>
    cases h
    rfl
  | get g =>
    cases reply with
    | nil => cases h
    | cons b rest =>
      cases h
      rfl

theorem serverStep_andThen {β : Type} {n n' : Net σ α} (f : α → Prog β) (h : serverStep eol serve n = some n') :
    serverStep eol serve (n.andThen f) = some (n'.andThen f) := by
  obtain ⟨client, request, reply, server⟩ := n
  obtain ⟨s, hs, hmap⟩ := Option.bind_eq_some_iff.mp h
  obtain ⟨⟨line, rest⟩, hr, he⟩ := Option.map_eq_some_iff.mp hmap
  dsimp only at hs hr he
  subst hs
  cases hserve : serve s line with
  | none =>
    rw [hserve] at he
    cases he
    simp [serverStep, Net.andThen, hr, hserve]
  | some out =>
    rw [hserve] at he
    cases he
    simp [serverStep, Net.andThen, hr, hserve]

theorem Reaches.andThen {β : Type} {n n' : Net σ α} (h : Reaches eol serve n n') (f : α → Prog β) :
    Reaches eol serve (n.andThen f) (n'.andThen f) := by
  refine ReflTransGen.lift (fun n : Net σ α => n.andThen f) (fun a b hstep => ?_) _ _ h
  exact hstep.imp (clientStep_andThen f) (serverStep_andThen f)

theorem Settles.bind {β : Type} {p : Prog α} {f : α → Prog β} {s s' : σ} {a : α} {n : Net σ β}
    (h : Settles eol serve ⟨p, [], [], some s⟩ ⟨.ret a, [], [], some s'⟩)
    (h' : Settles eol serve ⟨f a, [], [], some s'⟩ n) : Settles eol serve ⟨p >>= f, [], [], some s⟩ n := by
  have hfirst : Reaches eol serve ⟨p, [], [], some s⟩ ⟨.ret a, [], [], some s'⟩ := h.2 _ .refl
  exact h'.1.settles ((hfirst.andThen f).trans (h'.2 _ .refl))

/-! One exchange. -/

theorem reaches_puts {p : Prog α} {bs : List UInt8} {acts : List Act} {a : α} {request reply : List UInt8}
    {server : Option σ} (h : Does p (bs.map .put ++ acts) a) :
    ∃ q, Does q acts a ∧
      Reaches eol serve ⟨p, request, reply, server⟩ ⟨q, request ++ bs, reply, server⟩ := by
  induction bs generalizing p request with
  | nil => exact ⟨p, h, by rw [List.append_nil]; exact .refl⟩
  | cons b bs ih =>
    cases h with
    | put h =>
      obtain ⟨q, hq, hr⟩ := @ih _ (request ++ [b]) h
      rw [List.append_assoc] at hr
      exact ⟨q, hq, .head (.inl rfl) hr⟩

theorem reaches_gets {p : Prog α} {bs : List UInt8} {acts : List Act} {a : α} {request reply : List UInt8}
    {server : Option σ} (h : Does p (bs.map .get ++ acts) a) :
    ∃ q, Does q acts a ∧
      Reaches eol serve ⟨p, request, bs ++ reply, server⟩ ⟨q, request, reply, server⟩ := by
  induction bs generalizing p with
  | nil => exact ⟨p, h, .refl⟩
  | cons b bs ih =>
    cases h with
    | get h =>
      obtain ⟨q, hq, hr⟩ := ih h
      exact ⟨q, hq, .head (.inl rfl) hr⟩

theorem serverStep_line {p : Prog α} {line out : List UInt8} {s s' : σ} (hl : eol ∉ line)
    (hs : serve s line = some (s', out)) : serverStep eol serve ⟨p, line ++ [eol], [], some s⟩ =
      some ⟨p, [], out, some s'⟩ := by
  simp [serverStep, readline_line hl, hs]

theorem reaches_exchange {p : Prog α} {line out : List UInt8} {s s' : σ} {acts : List Act} {a : α}
    (hl : eol ∉ line) (hs : serve s line = some (s', out))
    (h : Does p ((line ++ [eol]).map .put ++ (out.map .get ++ acts)) a) :
    ∃ q, Does q acts a ∧ Reaches eol serve ⟨p, [], [], some s⟩ ⟨q, [], [], some s'⟩ := by
  obtain ⟨q, hq, hput⟩ : ∃ q, Does q (out.map .get ++ acts) a ∧
      Reaches eol serve ⟨p, [], [], some s⟩ ⟨q, line ++ [eol], [], some s⟩ := reaches_puts h
  obtain ⟨r, hr, hget⟩ : ∃ r, Does r acts a ∧
      Reaches eol serve ⟨q, [], out ++ [], some s'⟩ ⟨r, [], [], some s'⟩ := reaches_gets hq
  rw [List.append_nil] at hget
  exact ⟨r, hr, hput.trans (.head (.inr (serverStep_line hl hs)) hget)⟩

theorem settles_returned {p q : Prog α} {s s' : σ} {a : α} (hq : Does q [] a)
    (h : Reaches eol serve ⟨p, [], [], some s⟩ ⟨q, [], [], some s'⟩) :
    Settles eol serve ⟨p, [], [], some s⟩ ⟨.ret a, [], [], some s'⟩ := by
  cases hq
  exact Stuck.settles ⟨rfl, by simp [serverStep, readline]⟩ h

theorem settles_failed {p : Prog α} {line : List UInt8} {s : σ} {b : UInt8} {acts : List Act} {a : α}
    (hl : eol ∉ line) (hs : serve s line = none)
    (h : Does p ((line ++ [eol]).map .put ++ .get b :: acts) a) :
    ∃ f, Settles eol serve ⟨p, [], [], some s⟩ ⟨.get f, [], [], none⟩ := by
  obtain ⟨q, hq, hput⟩ : ∃ q, Does q (.get b :: acts) a ∧
      Reaches eol serve ⟨p, [], [], some s⟩ ⟨q, line ++ [eol], [], some s⟩ := reaches_puts h
  cases hq with
  | @get _ f _ _ _ =>
    refine ⟨f, Stuck.settles ⟨rfl, rfl⟩ (hput.tail (.inr ?_))⟩
    simp [serverStep, readline_line hl, hs]

end

end ArmKernel.Lib.Duplex
