import Mathlib.Data.List.Induction
import FlightGen.Machine.Execution
import FlightGen.Proofs.Fallible

/-! Operations on a machine under way, and what each of them can do to it. -/

namespace FlightGen

/-- All that a caller can do to a machine, except for forcing its state. -/
inductive Machine.Operation where
  | start
  | stop
  | command (mnemonic : String) (opcode sequence : UInt32)
  | tick
  | set (ident : String) (value : Value)

/-- The kind of command that an operation amounts to. -/
def Machine.Operation.kind? (m : Machine) : Operation → Option CommandKind
  | start => some .start
  | stop => some .stop
  | command mnemonic _ _ => (m.command? mnemonic).map (·.kind)
  | _ => none

namespace Execution

/-- Carries out an operation. Setting an attribute that does not exist changes nothing. -/
def perform (m : Machine) (library : Option Library) (x : Execution) : Machine.Operation → Outcome
  | .start => (.ok (), x.start m)
  | .stop => (.ok (), x.stop m)
  | .command mnemonic opcode sequence => x.command m mnemonic opcode sequence
  | .tick => x.tick m library
  | .set ident value => (.ok (), (x.set? ident value).getD x)

/-- Carries out operations in turn, whatever fails, and collects their results. -/
def performAll (m : Machine) (library : Option Library) (x : Execution) :
    List Machine.Operation → List (Except ExecutionError Unit) × Execution
  | [] => ([], x)
  | op :: ops =>
    let (result, x) := x.perform m library op
    let (results, x) := performAll m library x ops
    (result :: results, x)

variable {m : Machine} {library : Option Library} {x : Execution}

theorem performAll_cons (op : Machine.Operation) (ops : List Machine.Operation) :
    x.performAll m library (op :: ops) =
      ((x.perform m library op).1 :: ((x.perform m library op).2.performAll m library ops).1,
        ((x.perform m library op).2.performAll m library ops).2) :=
  rfl

theorem performAll_concat (ops : List Machine.Operation) (op : Machine.Operation) :
    (x.performAll m library (ops ++ [op])).2 =
      ((x.performAll m library ops).2.perform m library op).2 := by
  induction ops generalizing x with
  | nil => rfl
  | cons first ops ih => exact ih

/-- What holds before all operations and is kept by each of them holds after any number. -/
theorem performAll_invariant {P : List Machine.Operation → Execution → Prop} (hnew : P [] x)
    (hstep : ∀ ops y op, P ops y → P (ops ++ [op]) (y.perform m library op).2)
    (ops : List Machine.Operation) : P ops (x.performAll m library ops).2 := by
  induction ops using List.reverseRecOn with
  | nil => exact hnew
  | append_singleton ops op ih =>
    rw [performAll_concat]
    exact hstep ops _ op ih

/-! ### Starting and stopping -/

theorem start_eq : x.start m =
    { x with
      current := m.valueOf m.initial
      active := true
      calls := x.calls ++ [.log "INIT" (m.stateName m.initial), .telemetry (m.stateName m.initial)] } := by
  simp [start, Machine.start, lifecycleStep, emit, Machine.placeName]

theorem set_eq (ident : String) (value : Value) : (x.set? ident value).getD x =
    { x with attributes := ((x.set? ident value).getD x).attributes } := by
  unfold set?
  split <;> rfl

/-! ### Transitions -/

/-- The effect of a transition between different states. -/
def moved (m : Machine) (x : Execution) (source target : Nat) : Execution :=
  { x with
    current := m.valueOf target
    calls := x.calls ++ [.log (m.stateName source) (m.stateName target),
      .telemetry (m.stateName target)] }

theorem take_eq (t : Machine.Transition) :
    x.take m t = if t.source = t.target then x else x.moved m t.source t.target := by
  unfold take
  split
  · rfl
  · simp [moved, emit]

theorem choose_eq_some {attributes : List (String × Value)} {candidates : List Nat}
    {t : Machine.Transition} (h : choose m attributes candidates = .ok (some t)) :
    ∃ i ∈ candidates, m.transitions[i]? = some t := by
  induction candidates with
  | nil => cases h
  | cons i candidates ih =>
    rw [choose] at h
    split at h
    · obtain ⟨j, hj, ht⟩ := ih h
      exact ⟨j, List.mem_cons_of_mem _ hj, ht⟩
    · rename_i t' ht'
      obtain ⟨permitted, -, h⟩ := bind_eq_ok.1 h
      split at h
      · cases h
        exact ⟨i, List.mem_cons_self, ht'⟩
      · obtain ⟨j, hj, ht⟩ := ih h
        exact ⟨j, List.mem_cons_of_mem _ hj, ht⟩

/-- The execution after one of some transitions, or as it was. -/
inductive Fired (m : Machine) (candidates : List Nat) (x : Execution) :
    Except ExecutionError Unit → Execution → Prop
  | failed (e : RunError) : Fired m candidates x (.error (.run e)) x
  | rested : Fired m candidates x (.ok ()) x
  | moved {i : Nat} {t : Machine.Transition} : i ∈ candidates → m.transitions[i]? = some t →
      t.source ≠ t.target → Fired m candidates x (.ok ()) (x.moved m t.source t.target)

theorem fire_cases (candidates : List Nat) :
    Fired m candidates x (x.fire m candidates).1 (x.fire m candidates).2 := by
  unfold fire
  split
  · exact .failed _
  · exact .rested
  · rename_i t ht
    obtain ⟨i, hi, ht⟩ := choose_eq_some ht
    rw [take_eq]
    split
    · exact .rested
    · rename_i hne
      exact .moved hi ht hne

theorem runActivities_cases (activities : List Machine.ActivityRef) :
    ∃ invoked, (runActivities library x activities).2 = { x with invoked } ∧
      ((runActivities library x activities).1 = .ok () ∨
        ∃ e, (runActivities library x activities).1 = .error (.run e)) := by
  induction activities generalizing x with
  | nil => exact ⟨x.invoked, rfl, .inl rfl⟩
  | cons a activities ih =>
    unfold runActivities
    split
    · exact ⟨x.invoked, rfl, .inr ⟨_, rfl⟩⟩
    · obtain ⟨invoked, hx, hresult⟩ := @ih { x with invoked := x.invoked ++ [a.qualified] }
      exact ⟨invoked, hx, hresult⟩

/-- Activities fail, or leave the transitions to be fired. -/
theorem dispatch_cases (arm : Machine.Arm) : ∃ invoked,
    (∃ e, x.dispatch m library arm = (.error (.run e), { x with invoked })) ∨
      x.dispatch m library arm = fire m { x with invoked } arm.transitions := by
  obtain ⟨invoked, hx, hresult | ⟨e, hresult⟩⟩ :=
    @runActivities_cases library x arm.activities
  · refine ⟨invoked, .inr ?_⟩
    rw [dispatch, ← hx]
    split
    · rename_i heq
      simp [heq] at hresult
    · rename_i heq
      rw [heq]
  · refine ⟨invoked, .inl ⟨e, ?_⟩⟩
    rw [dispatch, ← hx]
    split
    · rename_i heq
      rw [heq] at hresult ⊢
      rw [← hresult]
    · rename_i heq
      simp [heq] at hresult

theorem runActivities_none (activities : List Machine.ActivityRef) :
    ∃ invoked, runActivities none x activities = (.ok (), { x with invoked }) := by
  induction activities generalizing x with
  | nil => exact ⟨x.invoked, rfl⟩
  | cons a activities ih => exact @ih { x with invoked := x.invoked ++ [a.qualified] }

/-- Without a library nothing fails before the transitions. -/
theorem dispatch_none (arm : Machine.Arm) :
    ∃ invoked, x.dispatch m none arm = fire m { x with invoked } arm.transitions := by
  obtain ⟨invoked, hrun⟩ := @runActivities_none x arm.activities
  exact ⟨invoked, by simp only [dispatch, hrun]⟩

/-! ### Commands -/

variable {c : Machine.Command} {mnemonic signal : String} {opcode sequence : UInt32}

theorem obey_start (h : c.kind = .start) : x.obey m c = (.ok .ok, x.start m) := by
  simp only [obey, h]

theorem obey_stop (h : c.kind = .stop) : x.obey m c = (.ok .ok, x.stop m) := by
  simp only [obey, h]

theorem obey_active (h : c.kind = .trigger signal) (hactive : x.active = true) :
    x.obey m c = ((x.trigger m c).1.map fun _ => .ok, (x.trigger m c).2) := by
  simp only [obey, h, hactive, if_true]

theorem obey_inactive (h : c.kind = .trigger signal) (hactive : x.active = false) :
    x.obey m c = (.ok .executionError, x) := by
  simp [obey, h, hactive]

theorem command_unknown (h : m.command? mnemonic = none) : x.command m mnemonic opcode sequence =
    (.error (.unknownCommand m.component.ident mnemonic), x) := by
  simp only [command, h]

theorem command_ok (h : m.command? mnemonic = some c) {response : CommandResponse} {x' : Execution}
    (hobey : x.obey m c = (.ok response, x')) : x.command m mnemonic opcode sequence =
      (.ok (), x'.emit (.response opcode sequence response)) := by
  simp only [command, h, hobey]

theorem command_error (h : m.command? mnemonic = some c) {e : ExecutionError} {x' : Execution}
    (hobey : x.obey m c = (.error e, x')) :
    x.command m mnemonic opcode sequence = (.error e, x') := by
  simp only [command, h, hobey]

end Execution

end FlightGen
