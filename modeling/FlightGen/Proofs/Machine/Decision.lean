import FlightGen.Proofs.Expr.Evaluation
import FlightGen.Proofs.Machine.Guard
import FlightGen.Proofs.Machine.Trace

/-! What a guard can come to while a machine is under way. As long as attributes are only set to
values of their types, the guard of a built component gives a boolean, or an operand in it has
the wrong type. No variable is without a value, and no number is taken for a refusal. -/

namespace FlightGen

/-! ### Attributes under way

Only setting an attribute changes one. -/

namespace Execution

variable {m : Machine} {library : Option Library} {x : Execution}

theorem attributes_fire (candidates : List Nat) :
    (x.fire m candidates).2.attributes = x.attributes := by
  have hfired := @fire_cases m x candidates
  generalize (x.fire m candidates).1 = result, (x.fire m candidates).2 = x' at hfired
  cases hfired <;> rfl

theorem attributes_tick : (x.tick m library).2.attributes = x.attributes := by
  unfold tick
  split
  · split
    · rfl
    · rename_i arm _
      obtain ⟨invoked, ⟨e, hfailed⟩ | hfire⟩ := @dispatch_cases m library x arm
      · rw [hfailed]
      · rw [hfire, attributes_fire]
  · rfl

theorem attributes_trigger (c : Machine.Command) :
    (x.trigger m c).2.attributes = x.attributes := by
  unfold trigger
  split
  · rfl
  · exact attributes_fire _

theorem attributes_obey (c : Machine.Command) : (x.obey m c).2.attributes = x.attributes := by
  cases hkind : c.kind with
  | start => rw [obey_start hkind, start_eq]
  | stop =>
    rw [obey_stop hkind]
    rfl
  | trigger signal =>
    cases hactive : x.active with
    | false => rw [obey_inactive hkind hactive]
    | true =>
      rw [obey_active hkind hactive]
      exact attributes_trigger c

theorem attributes_command (mnemonic : String) (opcode sequence : UInt32) :
    (x.command m mnemonic opcode sequence).2.attributes = x.attributes := by
  unfold command
  split
  · rfl
  · rename_i c _
    rw [← attributes_obey (m := m) (x := x) c]
    split <;> rename_i hobey <;> rw [hobey]
    rfl

end Execution

namespace Component

/-- Every attribute has a value of its type. -/
def Typed (c : Component) (attributes : List (String × Value)) : Prop :=
  ∀ f ∈ c.attributes, ∃ v, attributes.lookup f.name.ident = some v ∧ f.scalar.accepts v = true

/-- Whether an operation sets no attribute to a value of another type. -/
def admits (c : Component) : Machine.Operation → Bool
  | .set ident value => c.attributes.all fun f => f.name.ident ≠ ident || f.scalar.accepts value
  | _ => true

variable {c : Component} {x : Execution}

theorem typed_new (h : (c.attributes.map (·.name.ident)).Nodup) :
    c.Typed (Execution.new c.synthesize).attributes := by
  intro f hf
  refine ⟨f.scalar.zero, ?_, by cases f.scalar <;> rfl⟩
  have hzero : (c.attributes.map fun f => (f.name.ident, f.scalar.zero)).lookup f.name.ident =
      some f.scalar.zero := lookup_of_nodup h hf
  simpa [Execution.new, synthesize, Function.comp_def] using hzero

theorem Typed.set (h : c.Typed x.attributes) {ident : String} {value : Value}
    (hadmits : c.admits (.set ident value) = true) :
    c.Typed ((x.set? ident value).getD x).attributes := by
  intro f hf
  obtain ⟨v, hlookup, haccepts⟩ := h f hf
  rw [(x.attributes_set ident value).2]
  split
  · rename_i hident
    have hvalue := List.all_eq_true.1 hadmits f hf
    rw [← hident, hlookup]
    exact ⟨value, rfl, by simpa [hident] using hvalue⟩
  · exact ⟨v, hlookup, haccepts⟩

theorem Typed.perform (h : c.Typed x.attributes) {op : Machine.Operation}
    (hadmits : c.admits op = true) (m : Machine) (library : Option Library) :
    c.Typed (x.perform m library op).2.attributes := by
  cases op with
  | start =>
    rw [Execution.perform, Execution.start_eq]
    exact h
  | stop => exact h
  | command mnemonic opcode sequence =>
    rw [Execution.perform, Execution.attributes_command]
    exact h
  | tick =>
    rw [Execution.perform, Execution.attributes_tick]
    exact h
  | set ident value => exact h.set hadmits

theorem Typed.performAll (h : c.Typed x.attributes) (m : Machine) (library : Option Library)
    {history : List Machine.Operation} (hadmits : history.all c.admits = true) :
    c.Typed (x.performAll m library history).2.attributes := by
  revert hadmits
  refine Execution.performAll_invariant
    (P := fun ops y => ops.all c.admits = true → c.Typed y.attributes) (fun _ => h) ?_ history
  intro ops y op hops hadmits
  rw [List.all_append, Bool.and_eq_true] at hadmits
  exact (hops hadmits.1).perform (by simpa using hadmits.2) m library

end Component

/-! ### Guards -/

/-- An accepted guard reads attributes only, and is a condition over them. -/
theorem TransitionRun.guard_isCondition {d : Definition.Component} {attributes : List Field}
    {path : String} {commands commands' : List Command} {ds : List Definition.Transition}
    {ts : List Transition} {t t' : NameTable}
    (h : TransitionRun d attributes path commands t ds ts commands' t') {transition : Transition}
    (htransition : transition ∈ ts) {guard : Guard} (hguard : transition.guard = some guard) :
    ∃ e, (∀ v ∈ e.occurrences, ∃ f, attribute? attributes v = some f) ∧
      isCondition attributes e = true ∧ guard.condition = e.rename (attributeIdent attributes) := by
  induction h with
  | nil => cases htransition
  | @cons _ _ _ _ _ _ _ _ resolved _ declared _ _ _ _ hresolved _ _ ih =>
    obtain rfl | htail := List.mem_cons.1 htransition
    · subst hguard
      cases hsource : declared.guard with
      | none =>
        rw [hsource] at hresolved
        cases hresolved
      | some source =>
        rw [hsource] at hresolved
        obtain ⟨_, hguard, heq⟩ := map_eq_ok.1 hresolved
        cases heq
        obtain ⟨e, -, hvars, hcondition, rfl⟩ := resolveGuard_eq_ok.1 hguard
        exact ⟨e, hvars, hcondition, rfl⟩
    · exact ih htail

theorem isCondition_cases {attributes : List Field} {e : Expr}
    (h : isCondition attributes e = true) : e.isBoolean = true ∨
      ∃ name f, e = .var name ∧ attribute? attributes name = some f ∧ f.scalar = .bool := by
  cases e with
  | var name =>
    obtain ⟨f, hf, hscalar⟩ := (Option.any_eq_true _ _).1 h
    exact .inr ⟨name, f, rfl, hf, of_decide_eq_true hscalar⟩
  | literal v => exact .inl h
  | unary op e => exact .inl h
  | binary op l r => exact .inl h

/-- What becomes of a transition that the machine may only take if `e` holds. -/
inductive Execution.Decided (m : Machine) (attributes : List (String × Value))
    (t : Machine.Transition) (e : Expr) : Prop
  | settled (b : Bool) : e.eval (attributes.lookup ·) = .ok (.bool b) →
      permits m attributes t = .ok b → Decided m attributes t e
  | mismatched {symbol : String} {needed : Scalar} {operand : Expr} {found : Value} :
      (symbol, needed, operand) ∈ e.operands → operand.eval (attributes.lookup ·) = .ok found →
      needed.accepts found = false →
      e.eval (attributes.lookup ·) = .error (.mismatch symbol needed found) →
      permits m attributes t = .error (.expression (.mismatch symbol needed found)) →
      Decided m attributes t e

namespace Component

variable {c : Component} {attributes : List (String × Value)} {e : Expr}

/-- A condition is no number. -/
theorem Typed.eval_condition (h : c.Typed attributes) (hcondition : isCondition c.attributes e = true)
    {v : Value}
    (heval : (e.rename (attributeIdent c.attributes)).eval (attributes.lookup ·) = .ok v) :
    ∃ b, v = .bool b := by
  obtain hroot | ⟨name, f, rfl, hf, hscalar⟩ := isCondition_cases hcondition
  · exact Expr.eval_of_isBoolean ((Expr.isBoolean_rename _ e).trans hroot) heval
  · obtain ⟨value, hlookup, haccepts⟩ := h f (List.mem_of_find?_eq_some hf)
    simp only [Expr.rename, Expr.eval, attributeIdent_eq hf, hlookup] at heval
    cases heval
    rw [hscalar] at haccepts
    cases v with
    | number n => cases haccepts
    | bool b => exact ⟨b, rfl⟩

/-- No variable of a guard is without a value. -/
theorem Typed.lookup_ne_none (h : c.Typed attributes)
    (hvars : ∀ v ∈ e.occurrences, ∃ f, attribute? c.attributes v = some f) {name : String}
    (hname : name ∈ (e.rename (attributeIdent c.attributes)).occurrences) :
    attributes.lookup name ≠ none := by
  rw [Expr.occurrences_rename] at hname
  obtain ⟨v, hv, rfl⟩ := List.mem_map.1 hname
  obtain ⟨f, hf⟩ := hvars v hv
  obtain ⟨value, hlookup, -⟩ := h f (List.mem_of_find?_eq_some hf)
  rw [attributeIdent_eq hf, hlookup]
  simp

theorem Typed.decided (h : c.Typed attributes)
    (hvars : ∀ v ∈ e.occurrences, ∃ f, attribute? c.attributes v = some f)
    (hcondition : isCondition c.attributes e = true) {m : Machine} {t : Machine.Transition}
    {g : Machine.Guard} (hg : t.guard.bind (m.guards[·]?) = some g)
    (hge : g.condition = e.rename (attributeIdent c.attributes)) :
    Execution.Decided m attributes t g.condition := by
  have hpermits : Execution.permits m attributes t = _ := Execution.permits_eq hg
  cases heval : g.condition.eval (attributes.lookup ·) with
  | ok v =>
    obtain ⟨b, rfl⟩ := h.eval_condition hcondition (hge ▸ heval)
    rw [heval] at hpermits
    exact .settled b heval (by cases b <;> exact hpermits)
  | error error =>
    rw [heval] at hpermits
    cases Expr.failsOnly_eval _ error heval with
    | unbound hname hlookup => exact absurd hlookup (h.lookup_ne_none hvars (hge ▸ hname))
    | mismatch hoperand hfound haccepts => exact .mismatched hoperand hfound haccepts heval hpermits

end Component

/-- A root that yields a boolean yields nothing else, and the guards of a built component decide
by a boolean, unless an operand has the wrong type. This holds after every history that sets
attributes to values of their types only. -/
theorem Model.guards_decide :
    (∀ (e : Expr) (lookup : String → Option Value) (v : Value), e.isBoolean = true →
      e.eval lookup = .ok v → ∃ b, v = .bool b) ∧
    ∀ (d : Definition) (m : Model), Model.build d = .ok m → ∀ c ∈ m.components,
      ∀ (j : Nat) (t : Transition) (g : Guard), c.transitions[j]? = some t → t.guard = some g →
      ∀ (library : Option Library) (history : List Machine.Operation),
        history.all c.admits = true →
        ∃ t', c.synthesize.transitions[j]? = some t' ∧
          Execution.Decided c.synthesize
            ((Execution.new c.synthesize).performAll c.synthesize library history).2.attributes
            t' g.condition := by
  refine ⟨fun e lookup v h => Expr.eval_of_isBoolean h, ?_⟩
  intro d m hbuild c hc j t g ht hg library history hadmits
  obtain ⟨S⟩ := exists_modelStages hbuild
  obtain ⟨dc, -, ⟨R⟩⟩ := exists_of_forall₂ S.componentRuns.flip hc
  obtain ⟨e, hvars, hcondition, hge⟩ :=
    R.stages.transitionRun.guard_isCondition (List.mem_of_getElem? ht) hg
  obtain ⟨t', ht', -, -, -, hguard⟩ := c.exists_transition ht
  obtain ⟨g', hbind, hgeq⟩ := Option.map_eq_some_iff.1 (hguard.trans hg)
  have htyped := (Component.typed_new R.realizes.attributeIdents).performAll c.synthesize library hadmits
  subst hgeq
  exact ⟨t', ht', htyped.decided hvars hcondition hbind hge⟩

namespace Sample

theorem guards_decide_door : doorHistory.all door.admits = true ∧
    ∃ t', door.synthesize.transitions[0]? = some t' ∧
      Execution.Decided door.synthesize
        ((Execution.new door.synthesize).performAll door.synthesize none doorHistory).2.attributes
        t' (.var "switch_") :=
  have hadmits : doorHistory.all door.admits = true := by decide +kernel
  ⟨hadmits, Model.guards_decide.2 doorDefinition _ build_doorDefinition door (by simp) 0 _ _ rfl rfl
    none doorHistory hadmits⟩

end Sample

end FlightGen
