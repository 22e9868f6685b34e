import FlightGen.Proofs.Machine.Operation
import FlightGen.Proofs.Machine.Synthesis

/-! When a command or a tick fails, and what it leaves behind. A step shows itself only after
everything in it that can fail, so that a failure is not seen from outside: a command that
fails leaves no trace at all, and a tick only the activities that it had completed. -/

namespace FlightGen

namespace Execution

variable {m : Machine} {library : Option Library} {x x' : Execution}

/-! ### Guards -/

/-- Of some transitions, the first that is not refused has a guard that fails with `e`. -/
def Undecided (m : Machine) (attributes : List (String × Value)) (candidates : List Nat)
    (e : EvalError) : Prop :=
  ∃ before i after t g, candidates = before ++ i :: after ∧
    (∀ j ∈ before, ∃ t', m.transitions[j]? = some t' ∧ permits m attributes t' = .ok false) ∧
    m.transitions[i]? = some t ∧ t.guard.bind (m.guards[·]?) = some g ∧
    g.condition.eval (attributes.lookup ·) = .error e

theorem permits_eq_error {attributes : List (String × Value)} {t : Machine.Transition}
    {e : RunError} : permits m attributes t = .error e ↔
      ∃ g error, t.guard.bind (m.guards[·]?) = some g ∧
        g.condition.eval (attributes.lookup ·) = .error error ∧ e = .expression error := by
  unfold permits
  cases t.guard.bind (m.guards[·]?) with
  | none => simp
  | some g =>
    cases heval : g.condition.eval (attributes.lookup ·) with
    | ok value => cases value <;> simp [heval]
    | error error => simp [heval, eq_comm]

theorem choose_cons {attributes : List (String × Value)} {i : Nat} {candidates : List Nat}
    {t : Machine.Transition} (h : m.transitions[i]? = some t) :
    choose m attributes (i :: candidates) = permits m attributes t >>= fun permitted =>
      if permitted then pure (some t) else choose m attributes candidates := by
  rw [choose, h]

theorem undecided_cons {attributes : List (String × Value)} {i : Nat} {candidates : List Nat}
    {t : Machine.Transition} (h : m.transitions[i]? = some t) {e : EvalError} :
    Undecided m attributes (i :: candidates) e ↔
      permits m attributes t = .error (.expression e) ∨
        permits m attributes t = .ok false ∧ Undecided m attributes candidates e := by
  constructor
  · rintro ⟨_ | ⟨j, before⟩, k, after, t', g, heq, hbefore, ht', hg, heval⟩
    · obtain ⟨rfl, rfl⟩ := List.cons.inj heq
      cases h.symm.trans ht'
      exact .inl (permits_eq_error.2 ⟨g, e, hg, heval, rfl⟩)
    · obtain ⟨rfl, rfl⟩ := List.cons.inj heq
      obtain ⟨⟨t₁, ht₁, hdenied⟩, hbefore⟩ := List.forall_mem_cons.1 hbefore
      cases h.symm.trans ht₁
      exact .inr ⟨hdenied, before, k, after, t', g, rfl, hbefore, ht', hg, heval⟩
  · rintro (hfail | ⟨hdenied, before, k, after, t', g, rfl, hbefore, hrest⟩)
    · obtain ⟨g, error, hg, heval, herror⟩ := permits_eq_error.1 hfail
      cases herror
      exact ⟨[], i, candidates, t, g, rfl, by simp, h, hg, heval⟩
    · exact ⟨i :: before, k, after, t', g, rfl,
        List.forall_mem_cons.2 ⟨⟨t, h, hdenied⟩, hbefore⟩, hrest⟩

/-- The choice fails exactly if it comes to a guard that fails. -/
theorem choose_eq_error {attributes : List (String × Value)} {candidates : List Nat}
    (h : ∀ i ∈ candidates, i < m.transitions.length) {e : RunError} :
    choose m attributes candidates = .error e ↔
      ∃ error, e = .expression error ∧ Undecided m attributes candidates error := by
  induction candidates with
  | nil => simp [choose, Undecided]
  | cons i candidates ih =>
    obtain ⟨hi, hrest⟩ := List.forall_mem_cons.1 h
    have ht := List.getElem?_eq_getElem hi
    simp only [choose_cons ht, undecided_cons ht]
    cases hpermits : permits m attributes m.transitions[i] with
    | error e' =>
      obtain ⟨_, error, -, -, rfl⟩ := permits_eq_error.1 hpermits
      simp [bind, Except.bind, eq_comm]
    | ok permitted =>
      cases permitted with
      | true => simp [bind, Except.bind, pure, Except.pure]
      | false => simpa [bind, Except.bind] using ih hrest

theorem fire_eq_error {candidates : List Nat} (h : ∀ i ∈ candidates, i < m.transitions.length)
    {e : ExecutionError} : x.fire m candidates = (.error e, x') ↔
      (∃ error, e = .run (.expression error) ∧ Undecided m x.attributes candidates error) ∧
        x' = x := by
  have hchoose : (∃ error, e = .run (.expression error) ∧ Undecided m x.attributes candidates error) ↔
      ∃ e', e = .run e' ∧ choose m x.attributes candidates = .error e' := by
    simp only [choose_eq_error h]
    constructor
    · rintro ⟨error, rfl, hundecided⟩
      exact ⟨_, rfl, error, rfl, hundecided⟩
    · rintro ⟨_, rfl, error, rfl, hundecided⟩
      exact ⟨error, rfl, hundecided⟩
  rw [hchoose, fire]
  cases choose m x.attributes candidates with
  | error e' => simp [eq_comm]
  | ok chosen => cases chosen <;> simp

/-! ### Activities -/

theorem runActivities_eq_ok {activities : List Machine.ActivityRef} :
    runActivities library x activities = (.ok (), x') ↔
      (∀ a ∈ activities, runActivity library a = .ok ()) ∧
        x' = { x with invoked := x.invoked ++ activities.map (·.qualified) } := by
  induction activities generalizing x with
  | nil => simp [runActivities, eq_comm]
  | cons a activities ih =>
    rw [runActivities, List.forall_mem_cons]
    cases runActivity library a with
    | error e => simp
    | ok _ => simp [ih]

/-- The first activity that fails ends the run, and only those before it are recorded. -/
theorem runActivities_eq_error {activities : List Machine.ActivityRef} {e : ExecutionError} :
    runActivities library x activities = (.error e, x') ↔
      ∃ completed a rest error, activities = completed ++ a :: rest ∧
        (∀ b ∈ completed, runActivity library b = .ok ()) ∧
        runActivity library a = .error error ∧ e = .run error ∧
        x' = { x with invoked := x.invoked ++ completed.map (·.qualified) } := by
  induction activities generalizing x with
  | nil => simp [runActivities]
  | cons first activities ih =>
    rw [runActivities]
    constructor
    · intro h
      cases hfirst : runActivity library first with
      | error error =>
        rw [hfirst] at h
        cases h
        exact ⟨[], first, activities, error, rfl, by simp, hfirst, rfl, by simp⟩
      | ok _ =>
        rw [hfirst] at h
        obtain ⟨completed, a, rest, error, rfl, hcompleted, ha, he, rfl⟩ := ih.1 h
        exact ⟨first :: completed, a, rest, error, rfl,
          List.forall_mem_cons.2 ⟨hfirst, hcompleted⟩, ha, he, by simp⟩
    · rintro ⟨_ | ⟨_, completed⟩, a, rest, error, heq, hcompleted, ha, rfl, rfl⟩
      · obtain ⟨rfl, rfl⟩ := List.cons.inj heq
        rw [ha]
        simp
      · obtain ⟨rfl, rfl⟩ := List.cons.inj heq
        obtain ⟨hfirst, hcompleted⟩ := List.forall_mem_cons.1 hcompleted
        rw [hfirst]
        exact ih.2 ⟨completed, a, rest, error, rfl, hcompleted, ha, rfl, by simp⟩

/-! ### Steps -/

/-- Why a command fails: there is none of the name, or it is a trigger of a machine that is
active, and the number of the current state stands for no state, or a guard fails. -/
inductive CommandFails (m : Machine) (x : Execution) (mnemonic : String) : ExecutionError → Prop
  | unknown : m.command? mnemonic = none →
      CommandFails m x mnemonic (.unknownCommand m.component.ident mnemonic)
  | unreachable {c : Machine.Command} {signal : String} : m.command? mnemonic = some c →
      c.kind = .trigger signal → x.active = true → m.stateOf? x.current = none →
      CommandFails m x mnemonic (.unreachableState m.component.ident x.current)
  | undecided {c : Machine.Command} {signal : String} {state : Nat} {candidates : List Nat}
      {e : EvalError} : m.command? mnemonic = some c → c.kind = .trigger signal →
      x.active = true → m.stateOf? x.current = some state →
      c.arms.lookup state = some candidates → Undecided m x.attributes candidates e →
      CommandFails m x mnemonic (.run (.expression e))

/-- Why a tick of an active machine fails, with the activities of the current state that it has
completed by then: the number of the current state stands for no state, an activity fails, or
after all activities a guard does. -/
inductive TickFails (m : Machine) (library : Option Library) (x : Execution) :
    ExecutionError → List Machine.ActivityRef → Prop
  | unreachable : x.active = true → m.stateOf? x.current = none →
      TickFails m library x (.unreachableState m.component.ident x.current) []
  | activity {state : Nat} {arm : Machine.Arm} {completed rest : List Machine.ActivityRef}
      {a : Machine.ActivityRef} {e : RunError} : x.active = true →
      m.stateOf? x.current = some state → m.arms[state]? = some arm →
      arm.activities = completed ++ a :: rest →
      (∀ b ∈ completed, runActivity library b = .ok ()) → runActivity library a = .error e →
      TickFails m library x (.run e) completed
  | undecided {state : Nat} {arm : Machine.Arm} {e : EvalError} : x.active = true →
      m.stateOf? x.current = some state → m.arms[state]? = some arm →
      (∀ a ∈ arm.activities, runActivity library a = .ok ()) →
      Undecided m x.attributes arm.transitions e →
      TickFails m library x (.run (.expression e)) arm.activities

theorem dispatch_eq_error {arm : Machine.Arm} {e : ExecutionError} :
    x.dispatch m library arm = (.error e, x') ↔
      runActivities library x arm.activities = (.error e, x') ∨
        ∃ y, runActivities library x arm.activities = (.ok (), y) ∧
          y.fire m arm.transitions = (.error e, x') := by
  rw [dispatch]
  obtain ⟨_ | _, y⟩ := runActivities library x arm.activities <;> simp

theorem obey_eq_error {c : Machine.Command} {e : ExecutionError} :
    x.obey m c = (.error e, x') ↔ ∃ signal, c.kind = .trigger signal ∧ x.active = true ∧
      x.trigger m c = (.error e, x') := by
  cases hkind : c.kind with
  | start => simp [obey_start hkind]
  | stop => simp [obey_stop hkind]
  | trigger signal =>
    cases hactive : x.active with
    | false => simp [obey_inactive hkind hactive]
    | true =>
      rw [obey_active hkind hactive]
      obtain ⟨_ | _, y⟩ := x.trigger m c <;> simp [Except.map]

theorem command_eq_error_of_some {mnemonic : String} {opcode sequence : UInt32}
    {c : Machine.Command} (h : m.command? mnemonic = some c) {e : ExecutionError} :
    x.command m mnemonic opcode sequence = (.error e, x') ↔ x.obey m c = (.error e, x') := by
  simp only [command, h]
  obtain ⟨_ | _, y⟩ := x.obey m c <;> simp

end Execution

namespace Component

open Execution (CommandFails TickFails)

variable (c : Component) {library : Option Library} {x x' : Execution} {e : ExecutionError}

/-- A number that stands for a state leads to the arm of that state. -/
theorem exists_arm {value : UInt32} {i : Nat} (h : c.synthesize.stateOf? value = some i) :
    ∃ arm, c.synthesize.arms[i]? = some arm ∧ arm.transitions = c.leaving i none := by
  obtain ⟨hlt, -⟩ := List.findIdx?_eq_some_iff_getElem.1 h
  rw [length_machineStates] at hlt
  rw [c.getElem?_arms, List.getElem?_eq_getElem hlt]
  exact ⟨_, rfl, rfl⟩

theorem lookup_arms {k : Nat} {d : Command} {state : Nat} {candidates : List Nat}
    (h : (c.machineCommand k d).arms.lookup state = some candidates) :
    candidates = c.leaving state (some k) := by
  obtain ⟨before, after, heq, -⟩ := List.lookup_eq_some_iff.1 h
  have hmem : (state, candidates) ∈ (c.machineCommand k d).arms := by simp [heq]
  obtain ⟨-, harms⟩ | ⟨-, harms⟩ := arms_cases (c := c) k d
  · rw [harms] at hmem
    exact (mem_commandArms.1 hmem).2.1
  · simp [harms] at hmem

theorem trigger_eq_error {k : Nat} {d : Command} :
    x.trigger c.synthesize (c.machineCommand k d) = (.error e, x') ↔
      (c.synthesize.stateOf? x.current = none ∧ e = x.unreachable c.synthesize ∨
        ∃ state candidates error, c.synthesize.stateOf? x.current = some state ∧
          (c.machineCommand k d).arms.lookup state = some candidates ∧
          e = .run (.expression error) ∧
          Execution.Undecided c.synthesize x.attributes candidates error) ∧ x' = x := by
  rw [Execution.trigger]
  cases c.synthesize.stateOf? x.current with
  | none => simp [eq_comm]
  | some state =>
    cases hlookup : (c.machineCommand k d).arms.lookup state with
    | none => simp [hlookup, Execution.fire, Execution.choose]
    | some candidates =>
      have hlt : ∀ i ∈ candidates, i < c.synthesize.transitions.length := by
        rw [c.lookup_arms hlookup]
        exact fun i => lt_of_mem_leaving
      simp [hlookup, Execution.fire_eq_error hlt]

/-- A command fails for the reasons given, and then changes nothing. -/
theorem command_eq_error {mnemonic : String} {opcode sequence : UInt32} :
    x.command c.synthesize mnemonic opcode sequence = (.error e, x') ↔
      CommandFails c.synthesize x mnemonic e ∧ x' = x := by
  constructor
  · intro h
    cases hcommand : c.synthesize.command? mnemonic with
    | none =>
      rw [Execution.command_unknown hcommand] at h
      cases h
      exact ⟨.unknown hcommand, rfl⟩
    | some command =>
      obtain ⟨k, d, -, -, rfl⟩ := c.command?_eq_some hcommand
      obtain ⟨signal, hkind, hactive, htrigger⟩ :=
        Execution.obey_eq_error.1 ((Execution.command_eq_error_of_some hcommand).1 h)
      obtain ⟨⟨hstate, rfl⟩ | ⟨state, candidates, error, hstate, hlookup, rfl, hundecided⟩, rfl⟩ :=
        c.trigger_eq_error.1 htrigger
      · exact ⟨.unreachable hcommand hkind hactive hstate, rfl⟩
      · exact ⟨.undecided hcommand hkind hactive hstate hlookup hundecided, rfl⟩
  · rintro ⟨hfails, rfl⟩
    cases hfails with
    | unknown hcommand => exact Execution.command_unknown hcommand
    | unreachable hcommand hkind hactive hstate =>
      obtain ⟨k, d, -, -, rfl⟩ := c.command?_eq_some hcommand
      exact (Execution.command_eq_error_of_some hcommand).2 (Execution.obey_eq_error.2
        ⟨_, hkind, hactive, c.trigger_eq_error.2 ⟨.inl ⟨hstate, rfl⟩, rfl⟩⟩)
    | undecided hcommand hkind hactive hstate hlookup hundecided =>
      obtain ⟨k, d, -, -, rfl⟩ := c.command?_eq_some hcommand
      exact (Execution.command_eq_error_of_some hcommand).2 (Execution.obey_eq_error.2
        ⟨_, hkind, hactive, c.trigger_eq_error.2
          ⟨.inr ⟨_, _, _, hstate, hlookup, rfl, hundecided⟩, rfl⟩⟩)

theorem tick_eq_error : x.tick c.synthesize library = (.error e, x') ↔
    ∃ completed, TickFails c.synthesize library x e completed ∧
      x' = { x with invoked := x.invoked ++ completed.map (·.qualified) } := by
  constructor
  · intro h
    rw [Execution.tick] at h
    split at h
    · rename_i hactive
      cases hstate : c.synthesize.stateOf? x.current with
      | none =>
        rw [hstate] at h
        cases h
        exact ⟨[], .unreachable hactive hstate, by simp⟩
      | some state =>
        obtain ⟨arm, harm, htransitions⟩ := c.exists_arm hstate
        rw [hstate, Option.bind_some, harm] at h
        obtain hfailed | ⟨y, hrun, hfire⟩ := Execution.dispatch_eq_error.1 h
        · obtain ⟨completed, a, rest, error, hsplit, hcompleted, ha, rfl, rfl⟩ :=
            Execution.runActivities_eq_error.1 hfailed
          exact ⟨completed, .activity hactive hstate harm hsplit hcompleted ha, rfl⟩
        · obtain ⟨hcompleted, rfl⟩ := Execution.runActivities_eq_ok.1 hrun
          obtain ⟨⟨error, rfl, hundecided⟩, rfl⟩ :=
            (Execution.fire_eq_error (htransitions ▸ fun i => lt_of_mem_leaving)).1 hfire
          exact ⟨_, .undecided hactive hstate harm hcompleted hundecided, rfl⟩
    · cases h
  · rintro ⟨completed, hfails, rfl⟩
    cases hfails with
    | unreachable hactive hstate =>
      rw [Execution.tick, if_pos hactive, hstate]
      simp [Execution.unreachable]
    | activity hactive hstate harm hsplit hcompleted ha =>
      rw [Execution.tick, if_pos hactive, hstate, Option.bind_some, harm]
      exact Execution.dispatch_eq_error.2 (.inl (Execution.runActivities_eq_error.2
        ⟨_, _, _, _, hsplit, hcompleted, ha, rfl, rfl⟩))
    | @undecided state arm error hactive hstate harm hcompleted hundecided =>
      obtain ⟨_, harm', htransitions⟩ := c.exists_arm hstate
      cases harm.symm.trans harm'
      rw [Execution.tick, if_pos hactive, hstate, Option.bind_some, harm]
      refine Execution.dispatch_eq_error.2
        (.inr ⟨_, Execution.runActivities_eq_ok.2 ⟨hcompleted, rfl⟩, ?_⟩)
      exact (Execution.fire_eq_error (htransitions ▸ fun i => lt_of_mem_leaving)).2
        ⟨⟨error, rfl, hundecided⟩, rfl⟩

end Component

/-- Whatever the state of a machine, a command fails for the reasons given, and then changes
nothing, so that it is not answered either; a tick fails for the reasons given, and then has only
recorded the activities of the current state that it had completed, in their order. -/
theorem Component.failed_step_unseen (c : Component) (library : Option Library) (x x' : Execution)
    (e : ExecutionError) :
    (∀ mnemonic opcode sequence, x.command c.synthesize mnemonic opcode sequence = (.error e, x') ↔
      Execution.CommandFails c.synthesize x mnemonic e ∧ x' = x) ∧
    (x.tick c.synthesize library = (.error e, x') ↔
      ∃ completed, Execution.TickFails c.synthesize library x e completed ∧
        x' = { x with invoked := x.invoked ++ completed.map (·.qualified) }) :=
  ⟨fun _ _ _ => c.command_eq_error, c.tick_eq_error⟩

end FlightGen
