import Mathlib.Data.List.Basic
import FlightGen.Definition.Basic
import FlightGen.Expr.Eval
import FlightGen.Expr.Parser

/-! The meaning of a state machine, said of its definition alone. States, signals and
attributes go by the names that the definition gives them, and transitions are considered in
the order in which it lists them. -/

namespace FlightGen.Definition

/-- What is known of a component under way. -/
structure Situation where
  state : String
  active : Bool
  attributes : String → Option Value

/-- What can happen to a component. -/
inductive Stimulus where
  | start
  | stop
  | tick
  | signal (name : String)
  | set (name : String) (value : Value)

namespace Transition

variable (attributes : String → Option Value)

/-- The outcome of a guard. One that is absent counts as true. -/
def Evaluates (t : Transition) (outcome : Except EvalError Value) : Prop :=
  match t.guard with
  | none => outcome = .ok (.bool true)
  | some source => ∃ e, Expr.parse source = .ok e ∧ e.eval attributes = outcome

def Permits (t : Transition) : Prop := t.Evaluates attributes (.ok (.bool true))

/-- The guard has a value, but not true. -/
def Refuses (t : Transition) : Prop := ∃ v, v ≠ .bool true ∧ t.Evaluates attributes (.ok v)

def Fails (t : Transition) (e : EvalError) : Prop := t.Evaluates attributes (.error e)

end Transition

namespace Component

/-- Stopped in the initial state, with all attributes zero. -/
def initialSituation (d : Component) : Situation where
  state := d.machine.initial
  active := false
  attributes name := (d.attributes.find? (·.name = name)).map (·.scalar.zero)

/-- The transitions that can leave a state by a trigger, or by none. -/
def candidates (d : Component) (state : String) (trigger : Option String) : List Transition :=
  d.machine.transitions.filter fun t => t.source = state && t.trigger = trigger

theorem mem_candidates {d : Component} {state : String} {trigger : Option String} {t : Transition} :
    t ∈ d.candidates state trigger ↔
      t ∈ d.machine.transitions ∧ t.source = state ∧ t.trigger = trigger := by
  simp [candidates]

/-- The reaction to a trigger. The first candidate that does not refuse decides, and a
component that is stopped considers none. -/
inductive Reacts (d : Component) (s : Situation) (trigger : Option String) :
    Except EvalError Unit → Situation → Prop
  | idle : s.active = false → d.Reacts s trigger (.ok ()) s
  | rest : s.active = true → (∀ t ∈ d.candidates s.state trigger, t.Refuses s.attributes) →
      d.Reacts s trigger (.ok ()) s
  | take {before after : List Transition} {t : Transition} : s.active = true →
      d.candidates s.state trigger = before ++ t :: after →
      (∀ t ∈ before, t.Refuses s.attributes) → t.Permits s.attributes →
      d.Reacts s trigger (.ok ()) { s with state := t.target }
  | fail {before after : List Transition} {t : Transition} {e : EvalError} : s.active = true →
      d.candidates s.state trigger = before ++ t :: after →
      (∀ t ∈ before, t.Refuses s.attributes) → t.Fails s.attributes e →
      d.Reacts s trigger (.error e) s

/-- One stimulus, with its outcome. Setting an attribute that does not exist has no effect. -/
inductive Step (d : Component) (s : Situation) : Stimulus → Except EvalError Unit → Situation → Prop
  | start : d.Step s .start (.ok ()) { s with state := d.machine.initial, active := true }
  | stop : d.Step s .stop (.ok ()) { s with active := false }
  | set (name : String) (value : Value) :
      d.Step s (.set name value) (.ok ()) { s with
        attributes := fun other =>
          if other = name then (s.attributes name).map fun _ => value else s.attributes other }
  | tick {outcome : Except EvalError Unit} {s' : Situation} :
      d.Reacts s none outcome s' → d.Step s .tick outcome s'
  | signal {name : String} {outcome : Except EvalError Unit} {s' : Situation} :
      d.Reacts s (some name) outcome s' → d.Step s (.signal name) outcome s'

/-- Stimuli in turn, with their outcomes. A failure does not end the run. -/
inductive Run (d : Component) : Situation → List Stimulus → List (Except EvalError Unit) →
    Situation → Prop
  | nil (s : Situation) : d.Run s [] [] s
  | cons {s s' s'' : Situation} {stimulus : Stimulus} {stimuli : List Stimulus}
      {outcome : Except EvalError Unit} {outcomes : List (Except EvalError Unit)} :
      d.Step s stimulus outcome s' → d.Run s' stimuli outcomes s'' →
      d.Run s (stimulus :: stimuli) (outcome :: outcomes) s''

end Component

/-- The stimuli for which a definition makes provision. -/
inductive Component.Knows (d : Component) : Stimulus → Prop
  | start : d.Knows .start
  | stop : d.Knows .stop
  | tick : d.Knows .tick
  | signal {t : Transition} {name : String} : t ∈ d.machine.transitions → t.trigger = some name →
      d.Knows (.signal name)
  | set {f : Field} (value : Value) : f ∈ d.attributes → d.Knows (.set f.name value)

/-! ### The semantics leaves no choice -/

theorem Transition.Evaluates.unique {attributes : String → Option Value} {t : Transition}
    {outcome outcome' : Except EvalError Value} (h : t.Evaluates attributes outcome)
    (h' : t.Evaluates attributes outcome') : outcome = outcome' := by
  unfold Evaluates at h h'
  cases hguard : t.guard with
  | none =>
    rw [hguard] at h h'
    exact h.trans h'.symm
  | some source =>
    rw [hguard] at h h'
    obtain ⟨e, he, rfl⟩ := h
    obtain ⟨e', he', rfl⟩ := h'
    cases he.symm.trans he'
    rfl

theorem Transition.Permits.not_refuses {attributes : String → Option Value} {t : Transition}
    (h : t.Permits attributes) : ¬ t.Refuses attributes := by
  rintro ⟨v, hv, hrefuses⟩
  exact hv (Except.ok.inj (hrefuses.unique h))

theorem Transition.Fails.not_refuses {attributes : String → Option Value} {t : Transition}
    {e : EvalError} (h : t.Fails attributes e) : ¬ t.Refuses attributes := by
  rintro ⟨v, -, hrefuses⟩
  cases hrefuses.unique h

/-- The first element without a property is the same, however the list is split. -/
theorem first_unique {α : Type} {P : α → Prop} {before after before' after' : List α} {x x' : α}
    (h : before ++ x :: after = before' ++ x' :: after') (hbefore : ∀ y ∈ before, P y) (hx : ¬ P x)
    (hbefore' : ∀ y ∈ before', P y) (hx' : ¬ P x') : x = x' := by
  obtain ⟨_ | ⟨y, middle⟩, rfl, heq⟩ | ⟨_ | ⟨y, middle⟩, rfl, heq⟩ := List.append_eq_append_iff.1 h
  · exact (List.cons.inj heq).1
  · obtain ⟨rfl, -⟩ := List.cons.inj heq
    exact absurd (hbefore' x (by simp)) hx
  · exact (List.cons.inj heq).1.symm
  · obtain ⟨rfl, -⟩ := List.cons.inj heq
    exact absurd (hbefore x' (by simp)) hx'

namespace Component

variable {d : Component}

variable {s s' s'' : Situation} {outcome outcome' : Except EvalError Unit}

theorem Reacts.unique {trigger : Option String} (h : d.Reacts s trigger outcome s')
    (h' : d.Reacts s trigger outcome' s'') : outcome = outcome' ∧ s' = s'' := by
  -- A candidate that does not refuse excludes rest, and any other such candidate.
  have hrefuted : ∀ {before after : List Transition} {t : Transition},
      d.candidates s.state trigger = before ++ t :: after → ¬ t.Refuses s.attributes →
        ¬ ∀ t ∈ d.candidates s.state trigger, t.Refuses s.attributes :=
    fun heq ht hall => ht (hall _ (by rw [heq]; simp))
  cases h with
  | idle hactive =>
    cases h' with
    | idle _ => exact ⟨rfl, rfl⟩
    | rest hactive' _ => simp [hactive] at hactive'
    | take hactive' _ _ _ => simp [hactive] at hactive'
    | fail hactive' _ _ _ => simp [hactive] at hactive'
  | rest hactive hall =>
    cases h' with
    | idle hactive' => simp [hactive] at hactive'
    | rest _ _ => exact ⟨rfl, rfl⟩
    | take _ heq _ ht => exact absurd hall (hrefuted heq ht.not_refuses)
    | fail _ heq _ ht => exact absurd hall (hrefuted heq ht.not_refuses)
  | take hactive heq hbefore ht =>
    cases h' with
    | idle hactive' => simp [hactive] at hactive'
    | rest _ hall => exact absurd hall (hrefuted heq ht.not_refuses)
    | take _ heq' hbefore' ht' =>
      rw [first_unique (heq.symm.trans heq') hbefore ht.not_refuses hbefore' ht'.not_refuses]
      exact ⟨rfl, rfl⟩
    | fail _ heq' hbefore' ht' =>
      cases first_unique (heq.symm.trans heq') hbefore ht.not_refuses hbefore' ht'.not_refuses
      cases ht.unique ht'
  | fail hactive heq hbefore ht =>
    cases h' with
    | idle hactive' => simp [hactive] at hactive'
    | rest _ hall => exact absurd hall (hrefuted heq ht.not_refuses)
    | take _ heq' hbefore' ht' =>
      cases first_unique (heq.symm.trans heq') hbefore ht.not_refuses hbefore' ht'.not_refuses
      cases ht.unique ht'
    | fail _ heq' hbefore' ht' =>
      cases first_unique (heq.symm.trans heq') hbefore ht.not_refuses hbefore' ht'.not_refuses
      cases ht.unique ht'
      exact ⟨rfl, rfl⟩

theorem Step.unique {stimulus : Stimulus} (h : d.Step s stimulus outcome s')
    (h' : d.Step s stimulus outcome' s'') : outcome = outcome' ∧ s' = s'' := by
  cases h with
  | start =>
    cases h'
    exact ⟨rfl, rfl⟩
  | stop =>
    cases h'
    exact ⟨rfl, rfl⟩
  | set name value =>
    cases h'
    exact ⟨rfl, rfl⟩
  | tick h =>
    cases h' with
    | tick h' => exact h.unique h'
  | signal h =>
    cases h' with
    | signal h' => exact h.unique h'

theorem Run.unique {stimuli : List Stimulus}
    {outcomes outcomes' : List (Except EvalError Unit)} (h : d.Run s stimuli outcomes s')
    (h' : d.Run s stimuli outcomes' s'') : outcomes = outcomes' ∧ s' = s'' := by
  induction h generalizing outcomes' with
  | nil s =>
    cases h'
    exact ⟨rfl, rfl⟩
  | cons hstep _ ih =>
    cases h' with
    | cons hstep' hrun =>
      obtain ⟨rfl, rfl⟩ := hstep.unique hstep'
      obtain ⟨rfl, rfl⟩ := ih hrun
      exact ⟨rfl, rfl⟩

end Component

end FlightGen.Definition
