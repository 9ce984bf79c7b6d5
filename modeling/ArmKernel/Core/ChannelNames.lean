import ArmKernel.Core.ChannelDelivery
import ArmKernel.Core.Supervisor
import ArmKernel.Lib.NameTable

/-! Names and descriptors of channels. The names are a table in which zero marks
the free slots, and `mq_open` does not refuse to open that name. -/
namespace ArmKernel.Core

open Lib Lib.Run Fs

/-- The calls on channels; `other` is anything the kernel does that leaves the
channels as they are. -/
inductive MqCall where
  | open (name : Int)
  | unlink (d : Fin 32)
  | send (m : Fin 32) (msg : List UInt8)
  | receive (m : Fin 32) (len : Nat)
  | other (k : Kernel)

def mqStep (k : Kernel) : MqCall → Kernel
  | .open name => (mqOpen k name).2
  | .unlink d => (mqUnlink k d.val).2
  | .send m msg => (mqSend k m msg).2
  | .receive m len => (mqReceive k m len).2.2
  | .other k' => k'

def LeavesChannels (k : Kernel) : MqCall → Prop
  | .other k' => k'.mq = k.mq
  | _ => True

/-- Some call in the run has returned the descriptor, which was not unlinked
since. -/
def HeldBy (k : Kernel) (calls : List MqCall) (d : Fin 32) : Prop :=
  ∃ before name after, calls = before ++ .open name :: after ∧
    (mqOpen (run mqStep k before) name).1 = d.val ∧ .unlink d ∉ after

/-- Two calls of `mq_open` in one run, from the state `k` on. -/
structure OneToOne (k : Kernel) (before between : List MqCall) (x y : Int) : Prop where
  different : ∀ d d' : Fin 32, x ≠ y → (mqOpen (run mqStep k before) x).1 = d.val → .unlink d ∉ between →
    (mqOpen (run mqStep k (before ++ .open x :: between)) y).1 = d'.val → d ≠ d'
  same : ∀ d : Fin 32, x = y → (mqOpen (run mqStep k before) x).1 = d.val → .unlink d ∉ between →
    mqOpen (run mqStep k (before ++ .open x :: between)) y = ((d.val : Int), run mqStep k (before ++ .open x :: between))
  full : (mqOpen (run mqStep k (before ++ .open x :: between)) y).1 = -1 →
    ∀ d, HeldBy k (before ++ .open x :: between) d

/-! The names as a table. -/

def names (k : Kernel) (i : Fin 32) : Int := (k.mq i).msgQname

def MqCall.op : MqCall → NameTable.Op Int 32
  | .open name => .open name
  | .unlink d => .unlink d
  | _ => .stay

theorem names_setMq (k : Kernel) (m : Fin 32) (x : Mqueue) :
    names (setMq k m x) = Function.update (names k) m x.msgQname := by
  funext i
  simp only [names, setMq, Function.update_apply]
  split <;> rfl

theorem names_setMq_same {k : Kernel} {m : Fin 32} {x : Mqueue} (h : x.msgQname = (k.mq m).msgQname) :
    names (setMq k m x) = names k := by
  rw [names_setMq]
  exact Function.update_eq_self_iff.mpr h

theorem names_of_mq {k k' : Kernel} (h : k'.mq = k.mq) : names k' = names k := by
  funext i
  rw [names, names, h]

theorem names_kill (k : Kernel) (pid : Int) (sig : Sig) : names (kill k pid sig) = names k :=
  names_of_mq (kill_mq k pid sig)

theorem mqOpen_some {k : Kernel} {name : Int} {d : Fin 32} (h : NameTable.slot 0 (names k) name = some d) :
    (mqOpen k name).1 = d.val ∧ names (mqOpen k name).2 = Function.update (names k) d name ∧
      (names k d = name → (mqOpen k name).2 = k) := by
  unfold NameTable.slot names at h
  unfold mqOpen
  cases hfind : (List.finRange 32).find? fun i => (k.mq i).msgQname == name with
  | some i =>
    rw [hfind, Option.some_or, Option.some.injEq] at h
    subst h
    have hi : (k.mq i).msgQname = name := by simpa using List.find?_some hfind
    exact ⟨rfl, (Function.update_eq_self_iff.mpr hi.symm).symm, fun _ => rfl⟩
  | none =>
    rw [hfind, Option.none_or] at h
    rw [h]
    refine ⟨rfl, names_setMq k d _, fun hd => ?_⟩
    have hne : (k.mq d).msgQname ≠ name := by simpa using List.find?_eq_none.mp hfind d (List.mem_finRange d)
    exact absurd hd hne

theorem mqOpen_none {k : Kernel} {name : Int} (h : NameTable.slot 0 (names k) name = none) : mqOpen k name = (-1, k) := by
  rw [NameTable.slot, Option.or_eq_none_iff] at h
  unfold names at h
  rw [mqOpen, h.1, h.2]

theorem mqOpen_ret {k : Kernel} {name : Int} {d : Fin 32} :
    (mqOpen k name).1 = d.val ↔ NameTable.slot 0 (names k) name = some d := by
  constructor
  · intro h
    cases hslot : NameTable.slot 0 (names k) name with
    | none =>
      rw [mqOpen_none hslot] at h
      exact absurd h (by omega)
    | some d' =>
      rw [(mqOpen_some hslot).1] at h
      rw [Fin.ext (Int.ofNat_inj.mp h)]
  · intro h
    exact (mqOpen_some h).1

theorem names_mqOpen (k : Kernel) (name : Int) : names (mqOpen k name).2 = NameTable.step 0 (names k) (.open name) := by
  cases hslot : NameTable.slot 0 (names k) name with
  | none => rw [mqOpen_none hslot, NameTable.step, hslot]
  | some d => rw [(mqOpen_some hslot).2.1, NameTable.step_open hslot]

theorem names_mqUnlink (k : Kernel) (d : Fin 32) : names (mqUnlink k d.val).2 = NameTable.step 0 (names k) (.unlink d) := by
  have hd : 0 ≤ (d.val : Int) ∧ (d.val : Int) ≤ 32 := by omega
  rw [mqUnlink, if_pos hd, dif_pos (by simp)]
  exact names_setMq k d _

theorem names_mqSend (k : Kernel) (m : Fin 32) (msg : List UInt8) : names (mqSend k m msg).2 = names k := by
  have hwait : names (kill (setMq k m { k.mq m with msgLspid := k.self.pid }) k.self.pid .sigwait) = names k := by
    rw [names_kill, names_setMq_same]
    rfl
  unfold mqSend
  dsimp only
  split
  · split
    · rw [names_setMq_same, names_kill, names_setMq_same]
      · exact hwait
      · rfl
      · rfl
    · rw [names_setMq_same]
      · exact hwait
      · rfl
  · exact hwait

theorem names_mqReceive (k : Kernel) (m : Fin 32) (len : Nat) : names (mqReceive k m len).2.2 = names k := by
  by_cases h : takes k m
  · rw [mqReceive_take len h, names_kill, names_setMq_same]
    rfl
  · rw [mqReceive_wait len h, names_kill, names_setMq_same]
    rfl

theorem names_mqStep {k : Kernel} {c : MqCall} (h : LeavesChannels k c) :
    names (mqStep k c) = NameTable.step 0 (names k) c.op := by
  cases c with
  | «open» name => exact names_mqOpen k name
  | unlink d => exact names_mqUnlink k d
  | send m msg => exact names_mqSend k m msg
  | receive m len => exact names_mqReceive k m len
  | other k' => exact names_of_mq h

theorem names_run {k : Kernel} {calls : List MqCall} (h : Along mqStep LeavesChannels k calls) :
    names (run mqStep k calls) = run (NameTable.step 0) (names k) (calls.map MqCall.op) := by
  induction calls generalizing k with
  | nil => rfl
  | cons c calls ih => rw [run_cons, ih h.2, names_mqStep h.1, List.map_cons, run_cons]

theorem unlink_mem_map {calls : List MqCall} {d : Fin 32} : .unlink d ∈ calls.map MqCall.op ↔ .unlink d ∈ calls := by
  rw [List.mem_map]
  constructor
  · rintro ⟨c, hc, hop⟩
    cases c with
    | unlink d' =>
      rw [← NameTable.Op.unlink.inj hop]
      exact hc
    | «open» name => cases hop
    | send m msg => cases hop
    | receive m len => cases hop
    | other k => cases hop
  · intro h
    exact ⟨_, h, rfl⟩

/-! Two calls of `mq_open`. -/

section

variable {k : Kernel} {x y : Int} {before between : List MqCall}

theorem names_second (h : Along mqStep LeavesChannels k (before ++ .open x :: between)) :
    names (run mqStep k (before ++ .open x :: between)) = run (NameTable.step 0)
      (NameTable.step 0 (names (run mqStep k before)) (.open x)) (between.map MqCall.op) := by
  obtain ⟨hbefore, -⟩ := (along_append _).mp h
  rw [names_run h, List.map_append, List.map_cons, run_append, run_cons, names_run hbefore]
  rfl

theorem apart_names (hfree : ∀ i, (k.mq i).msgQname = 0) {calls : List MqCall} (h : Along mqStep LeavesChannels k calls) :
    NameTable.Apart 0 (names (run mqStep k calls)) := by
  rw [names_run h]
  apply NameTable.Apart.run
  intro i j _ hne
  exact absurd (hfree i) hne

theorem heldBy_of_name (hfree : ∀ i, (k.mq i).msgQname = 0) {calls : List MqCall}
    (h : Along mqStep LeavesChannels k calls) {d : Fin 32} (hd : names (run mqStep k calls) d ≠ 0) : HeldBy k calls d := by
  rw [names_run h] at hd
  obtain ⟨before, name, after, hcalls, hslot, hafter⟩ := NameTable.opened_since hfree hd
  obtain ⟨before', rest, rfl, rfl, hrest⟩ := List.map_eq_append_iff.mp hcalls
  obtain ⟨c, after', rfl, hc, rfl⟩ := List.map_eq_cons_iff.mp hrest
  obtain ⟨hbefore, -⟩ := (along_append _).mp h
  have hopen : c = .open name := by
    cases c with
    | «open» name' => rw [NameTable.Op.open.inj hc]
    | unlink d' => cases hc
    | send m msg => cases hc
    | receive m len => cases hc
    | other k => cases hc
  refine ⟨before', name, after', by rw [hopen], ?_, mt unlink_mem_map.mpr hafter⟩
  rw [mqOpen_ret, names_run hbefore]
  exact hslot

theorem oneToOne_of_ne (hfree : ∀ i, (k.mq i).msgQname = 0) (hx : x ≠ 0)
    (h : Along mqStep LeavesChannels k (before ++ .open x :: between)) : OneToOne k before between x y where
  different := by
    rintro d d' hxy hd hbetween hd' rfl
    rw [mqOpen_ret] at hd hd'
    rw [names_second h] at hd'
    exact NameTable.slot_ne hx hxy hd (mt unlink_mem_map.mp hbetween) hd'
  same := by
    rintro d rfl hd hbetween
    rw [mqOpen_ret] at hd
    obtain ⟨hbefore, -⟩ := (along_append _).mp h
    have hslot := NameTable.slot_again hx (apart_names hfree hbefore) hd (mt unlink_mem_map.mp hbetween)
    rw [← names_second h] at hslot
    have hname : names (run mqStep k (before ++ .open x :: between)) d = x := by
      rw [names_second h]
      apply NameTable.run_keeps hx _ (mt unlink_mem_map.mp hbetween)
      rw [NameTable.step_open hd, Function.update_self]
    obtain ⟨hret, -, hstay⟩ := mqOpen_some hslot
    exact Prod.ext hret (hstay hname)
  full := by
    intro hret d
    apply heldBy_of_name hfree h
    cases hslot : NameTable.slot 0 (names (run mqStep k (before ++ .open x :: between))) y with
    | none => exact NameTable.slot_eq_none hslot d
    | some d' =>
      rw [(mqOpen_some hslot).1] at hret
      omega

theorem slot_first (hfree : ∀ i, (k.mq i).msgQname = 0) (name : Int) : NameTable.slot 0 (names k) name = some 0 := by
  have hnames : names k = fun _ => 0 := by
    funext i
    exact hfree i
  rw [hnames, NameTable.slot]
  by_cases hname : (0 : Int) = name
  · subst hname
    decide
  · rw [List.find?_eq_none.mpr (by simpa using hname), Option.none_or]
    decide

theorem mqOpen_zero (k : Kernel) : (mqOpen k 0).2 = k := by
  cases hslot : NameTable.slot 0 (names k) 0 with
  | none => rw [mqOpen_none hslot]
  | some d =>
    apply (mqOpen_some hslot).2.2
    rcases NameTable.slot_eq_some hslot with hd | ⟨hd, -⟩
    · exact hd
    · exact hd

theorem zero_shares (hfree : ∀ i, (k.mq i).msgQname = 0) (hy : y ≠ 0) : ¬OneToOne k [] [] 0 y := by
  intro h
  refine h.different 0 0 (Ne.symm hy) (mqOpen_ret.mpr (slot_first hfree 0)) (by simp) ?_ rfl
  change (mqOpen (mqOpen k 0).2 y).1 = _
  rw [mqOpen_zero]
  exact mqOpen_ret.mpr (slot_first hfree y)

theorem zero_moves (hfree : ∀ i, (k.mq i).msgQname = 0) : ¬OneToOne k [] [.open 1] 0 0 := by
  intro h
  have hfirst := slot_first hfree 1
  have hsame := h.same 0 rfl (mqOpen_ret.mpr (slot_first hfree 0)) (by simp)
  change mqOpen (mqOpen (mqOpen k 0).2 1).2 0 = _ at hsame
  rw [mqOpen_zero] at hsame
  have hslot : NameTable.slot 0 (names (mqOpen k 1).2) 0 = some 0 := mqOpen_ret.mp (by rw [hsame])
  have hname : names (mqOpen k 1).2 0 = 1 := by rw [(mqOpen_some hfirst).2.1, Function.update_self]
  rcases NameTable.slot_eq_some hslot with h0 | ⟨h0, -⟩
  · exact absurd (hname.symm.trans h0) (by decide)
  · exact absurd (hname.symm.trans h0) (by decide)

end

/-- Names and descriptors correspond one to one in every run that starts without
channels, unless the first of the two names is zero. -/
theorem mq_open_one_to_one_iff (k : Kernel) (hfree : ∀ i, (k.mq i).msgQname = 0) (x y : Int) :
    (∀ before between, Along mqStep LeavesChannels k (before ++ .open x :: between) → OneToOne k before between x y) ↔
      x ≠ 0 := by
  constructor
  · rintro h rfl
    by_cases hy : y = 0
    · subst hy
      exact zero_moves hfree (h [] [.open 1] (by simp [Along, LeavesChannels]))
    · exact zero_shares hfree hy (h [] [] (by simp [Along, LeavesChannels]))
  · intro hx before between h
    exact oneToOne_of_ne hfree hx h

/-- Two names and a message, after reset. -/
theorem mq_open_one_to_one_message : let k := boot fullVol ⟨0, 0, fun _ => 0⟩
    OneToOne k [] [.send 0 [7]] 3 3 ∧ (mqOpen k 3).1 = 0 := by
  have hfree : ∀ i, ((boot fullVol ⟨0, 0, fun _ => 0⟩).mq i).msgQname = 0 := fun i => rfl
  constructor
  · apply (mq_open_one_to_one_iff _ hfree 3 3).mpr (by decide)
    simp [Along, LeavesChannels]
  · exact mqOpen_ret.mpr (slot_first hfree 3)

/-- `mq_open( 0 )` and `mq_open( 5 )` after reset return one descriptor. -/
theorem mq_open_zero_shared : let k := boot fullVol ⟨0, 0, fun _ => 0⟩
    ¬OneToOne k [] [] 0 5 ∧ (mqOpen k 0).1 = 0 ∧ (mqOpen (mqOpen k 0).2 5).1 = 0 := by
  have hfree : ∀ i, ((boot fullVol ⟨0, 0, fun _ => 0⟩).mq i).msgQname = 0 := fun i => rfl
  refine ⟨zero_shares hfree (by decide), mqOpen_ret.mpr (slot_first hfree 0), ?_⟩
  rw [mqOpen_zero]
  exact mqOpen_ret.mpr (slot_first hfree 5)

end ArmKernel.Core
