import Mathlib.Data.Fintype.EquivFin
import FlightGen.Proofs.Machine.Operation
import FlightGen.Proofs.Machine.Semantics
import FlightGen.Proofs.Machine.Synthesis
import FlightGen.Proofs.Model.Wiring
import FlightGen.Proofs.Run.Fits

/-! The machine of a built component does what its definition says. Names have become
identifiers, numbers and positions on the way, but along every run the machine is in the state,
and its attributes have the values, to which the definition leads. -/

namespace FlightGen

open Definition (Stimulus Situation)

/-! ### Guards -/

/-- Renaming the variables of an expression and of a valuation alike does not matter, as long as
all of them are bound. -/
theorem Expr.eval_rename {f : String → String} {lookup lookup' : String → Option Value} (e : Expr)
    (h : ∀ v ∈ e.occurrences, ∃ value, lookup (f v) = some value ∧ lookup' v = some value) :
    (e.rename f).eval lookup = e.eval lookup' := by
  induction e with
  | literal v => rfl
  | var name =>
    obtain ⟨value, hleft, hright⟩ := h name (by simp [occurrences])
    simp [rename, eval, hleft, hright]
  | unary op e ih => simp [rename, eval, ih h]
  | binary op l r ihl ihr =>
    obtain ⟨hl, hr⟩ := List.forall_mem_append.1 h
    cases op <;> simp only [rename, eval, ihl hl, ihr hr]

namespace Execution

variable {m : Machine} {attributes : List (String × Value)} {t : Machine.Transition}

theorem permits_unguarded (h : (t.guard.bind (m.guards[·]?)).map (·.condition) = none) :
    permits m attributes t = .ok true := by
  rw [Option.map_eq_none_iff] at h
  rw [permits, h]

section Guarded

variable {e : Expr} (h : (t.guard.bind (m.guards[·]?)).map (·.condition) = some e)

include h

theorem permits_guarded {value : Value} (heval : e.eval (attributes.lookup ·) = .ok value) :
    permits m attributes t = .ok (value = .bool true) := by
  obtain ⟨guard, hguard, rfl⟩ := Option.map_eq_some_iff.1 h
  rw [permits, hguard]
  dsimp only
  rw [heval]
  cases value with
  | number n => rfl
  | bool b => cases b <;> rfl

theorem permits_failed {error : EvalError} (heval : e.eval (attributes.lookup ·) = .error error) :
    permits m attributes t = .error (.expression error) := by
  obtain ⟨guard, hguard, rfl⟩ := Option.map_eq_some_iff.1 h
  rw [permits, hguard]
  dsimp only
  rw [heval]

end Guarded

end Execution

/-! ### Correspondence -/

/-- The execution of the component's machine shows a situation of its definition. -/
structure Component.Depicts (c : Component) (x : Execution) (s : Situation) : Prop where
  state : ∃ i, c.At x i ∧ c.states[i]?.map (·.name.raw) = some s.state
  active : x.active = s.active
  idents : x.attributes.map (·.1) = c.attributes.map (·.name.ident)
  attributes : ∀ name, s.attributes name =
    (attribute? c.attributes name).bind fun f => x.attributes.lookup f.name.ident

/-- What a command tells a component. -/
def CommandKind.stimulus : CommandKind → Stimulus
  | start => .start
  | stop => .stop
  | trigger name => .signal name

/-- The operation by which a stimulus comes to the machine of the component. To set an attribute,
its name becomes its identifier, and a name that no attribute has becomes no identifier. -/
inductive Component.Conveys (c : Component) : Stimulus → Machine.Operation → Prop
  | start : c.Conveys .start .start
  | stop : c.Conveys .stop .stop
  | tick : c.Conveys .tick .tick
  | command {e : Command} (opcode sequence : UInt32) : e ∈ c.commands →
      c.Conveys e.kind.stimulus (.command e.mnemonic opcode sequence)
  | set {name ident : String} (value : Value) :
      (∀ f ∈ c.attributes, f.name.raw = name ↔ f.name.ident = ident) →
      c.Conveys (.set name value) (.set ident value)

namespace Component.Realizes

variable {d : Definition.Component} {c : Component} (h : c.Realizes d)

include h

theorem locates_iff {name : String} {i : Nat} :
    d.machine.Locates name i ↔ c.states[i]?.map (·.name.raw) = some name := by
  rw [← List.getElem?_map, h.states, List.getElem?_map]
  constructor
  · intro hlocates
    obtain ⟨hlt, hname, -⟩ := List.findIdx?_eq_some_iff_getElem.1 hlocates
    rw [List.getElem?_eq_getElem hlt, Option.map_some, of_decide_eq_true hname]
  · intro hsome
    obtain ⟨s, hs, hname⟩ := Option.map_eq_some_iff.1 hsome
    obtain ⟨hlt, rfl⟩ := List.getElem?_eq_some_iff.1 hs
    refine List.findIdx?_eq_some_iff_getElem.2 ⟨hlt, by simpa using hname, fun j hj hfound => ?_⟩
    have hsame : (d.machine.states.map (·.name))[j]? = (d.machine.states.map (·.name))[i]? := by
      rw [List.getElem?_map, List.getElem?_map, List.getElem?_eq_getElem (by omega),
        List.getElem?_eq_getElem hlt, Option.map_some, Option.map_some, of_decide_eq_true hfound, hname]
    have := (List.getElem?_inj (by rw [List.length_map]; omega) h.stateNames).1 hsame
    omega

end Component.Realizes

/-- Signals have the same name if and only if they have the same command. -/
theorem Command.Resolves.eq_iff {commands : List Command} (hkinds : (commands.map (·.kind)).Nodup)
    {signal signal' : Option String} {index index' : Option Nat}
    (h : Resolves commands signal index) (h' : Resolves commands signal' index') :
    signal = signal' ↔ index = index' := by
  cases h with
  | absent => cases h' <;> simp
  | @present name k e he hkind =>
    cases h' with
    | absent => simp
    | @present name' k' e' he' hkind' =>
      rw [Option.some.injEq, Option.some.injEq]
      constructor
      · rintro rfl
        obtain ⟨hlt, -⟩ := List.getElem?_eq_some_iff.1 he
        refine (List.getElem?_inj (by simpa using hlt) hkinds).1 ?_
        rw [List.getElem?_map, List.getElem?_map, he, he', Option.map_some, Option.map_some, hkind, hkind']
      · rintro rfl
        cases he.symm.trans he'
        exact CommandKind.trigger.inj (hkind.symm.trans hkind')

namespace Component.Realizes

variable {d : Definition.Component} {c : Component} (h : c.Realizes d)

include h

/-- The candidates of the definition and of the machine stand in the same order. -/
theorem forall₂_candidates {state : String} {i : Nat} (hstate : d.machine.Locates state i)
    {trigger : Option String} {trigger' : Option Nat}
    (htrigger : Command.Resolves c.commands trigger trigger') :
    List.Forall₂ (fun t k => ∃ t', c.transitions[k]? = some t' ∧
        Transition.Realizes d.machine c.attributes c.commands t t')
      (d.candidates state trigger) (c.leaving i trigger') := by
  rw [leaving, List.forall₂_map_right_iff]
  have hzip := forall₂_zipIdx h.transitions
  refine (List.rel_filter (fun t p hp => ?_) hzip).imp fun t p hp => ⟨p.1, hp⟩
  obtain ⟨-, hrealizes⟩ := hp
  have hsource : t.source = state ↔ p.1.source = i := by
    constructor
    · rintro rfl
      exact Option.some.inj (hrealizes.source.symm.trans hstate)
    · intro heq
      have hsource := h.locates_iff.1 hrealizes.source
      rw [heq, h.locates_iff.1 hstate] at hsource
      exact (Option.some.inj hsource).symm
  simp [hsource, hrealizes.trigger.eq_iff h.kinds htrigger]

end Component.Realizes

/-! ### Choosing a transition -/

/-- How the error of a guard comes out of an operation. -/
def ExecutionError.ofEval (e : EvalError) : ExecutionError := .run (.expression e)

/-- A transition of the machine is permitted as one of the definition is. -/
inductive Agrees (m : Machine) (x : Execution) (s : Situation) (t : Definition.Transition)
    (t' : Machine.Transition) : Prop
  | permits : t.Permits s.attributes → Execution.permits m x.attributes t' = .ok true → Agrees m x s t t'
  | refuses : t.Refuses s.attributes → Execution.permits m x.attributes t' = .ok false → Agrees m x s t t'
  | fails {e : EvalError} : t.Fails s.attributes e →
      Execution.permits m x.attributes t' = .error (.expression e) → Agrees m x s t t'

namespace Component

variable {c : Component} {x : Execution} {s : Situation}

/-- A guard over identifiers evaluates like its text over names. -/
theorem Depicts.eval_eq (h : c.Depicts x s) {e : Expr}
    (he : ∀ v ∈ e.occurrences, ∃ f, attribute? c.attributes v = some f) :
    (e.rename (attributeIdent c.attributes)).eval (x.attributes.lookup ·) = e.eval s.attributes := by
  refine e.eval_rename fun v hv => ?_
  obtain ⟨f, hf⟩ := he v hv
  have hmem : f.name.ident ∈ x.attributes.map (·.1) := by
    rw [h.idents]
    exact List.mem_map_of_mem (List.mem_of_find?_eq_some hf)
  obtain ⟨value, hvalue⟩ := lookup_isSome hmem
  refine ⟨value, ?_, ?_⟩
  · simpa [attributeIdent, hf] using hvalue
  · rw [h.attributes, hf]
    exact hvalue

theorem Depicts.agrees (h : c.Depicts x s) {d : Definition.Component} {t : Definition.Transition}
    {t' : Transition} (ht : Transition.Realizes d.machine c.attributes c.commands t t')
    {m : Machine} {t'' : Machine.Transition}
    (hguard : (t''.guard.bind (m.guards[·]?)).map (·.condition) = t'.guard.map (·.condition)) :
    Agrees m x s t t'' := by
  -- The condition of the machine is that of the component, and this one resolves the text.
  have hresolves := ht.guard
  generalize t'.guard = guard at hguard hresolves
  cases hsource : t.guard with
  | none =>
    rw [hsource] at hresolves
    cases hresolves
    refine .permits ?_ (Execution.permits_unguarded hguard)
    simp [Definition.Transition.Permits, Definition.Transition.Evaluates, hsource]
  | some source =>
    rw [hsource] at hresolves
    cases hresolves with
    | @present _ e hparse hvars =>
      have hevaluates : t.Evaluates s.attributes (e.eval s.attributes) := by
        simp [Definition.Transition.Evaluates, hsource, hparse]
      have heval := h.eval_eq hvars
      cases hvalue : e.eval s.attributes with
      | error error =>
        rw [hvalue] at heval hevaluates
        exact .fails hevaluates (Execution.permits_failed hguard heval)
      | ok value =>
        rw [hvalue] at heval hevaluates
        have hpermits := Execution.permits_guarded hguard heval
        by_cases htrue : value = .bool true
        · rw [decide_eq_true htrue] at hpermits
          rw [htrue] at hevaluates
          exact .permits hevaluates hpermits
        · rw [decide_eq_false htrue] at hpermits
          exact .refuses ⟨value, htrue, hevaluates⟩ hpermits

end Component

/-- The machine chooses the first candidate that does not refuse. -/
theorem choose_of_agrees {m : Machine} {x : Execution} {s : Situation}
    {L : Definition.Transition → Machine.Transition → Prop} {ts : List Definition.Transition}
    {ks : List Nat}
    (h : List.Forall₂ (fun t k => ∃ t', m.transitions[k]? = some t' ∧ L t t' ∧ Agrees m x s t t') ts ks) :
    (Execution.choose m x.attributes ks = .ok none ∧ ∀ t ∈ ts, t.Refuses s.attributes) ∨
      ∃ before t after t', ts = before ++ t :: after ∧ (∀ t ∈ before, t.Refuses s.attributes) ∧
        L t t' ∧ (t.Permits s.attributes ∧ Execution.choose m x.attributes ks = .ok (some t') ∨
          ∃ e, t.Fails s.attributes e ∧ Execution.choose m x.attributes ks = .error (.expression e)) := by
  induction h with
  | nil => exact .inl ⟨rfl, by simp⟩
  | @cons t k ts ks ht _ ih =>
    obtain ⟨t', hsome, hL, hagrees⟩ := ht
    -- The head decides, unless it refuses: then the choice is that of the tail.
    have hchoose : ∀ permitted, Execution.permits m x.attributes t' = permitted →
        Execution.choose m x.attributes (k :: ks) =
          (permitted >>= fun b => if b then pure (some t') else Execution.choose m x.attributes ks) := by
      rintro permitted rfl
      simp only [Execution.choose, hsome]
    cases hagrees with
    | permits ht hpermits =>
      exact .inr ⟨[], t, ts, t', rfl, by simp, hL, .inl ⟨ht, hchoose _ hpermits⟩⟩
    | fails ht hpermits =>
      exact .inr ⟨[], t, ts, t', rfl, by simp, hL, .inr ⟨_, ht, hchoose _ hpermits⟩⟩
    | refuses ht hpermits =>
      have hnext : Execution.choose m x.attributes (k :: ks) = Execution.choose m x.attributes ks :=
        hchoose _ hpermits
      rw [hnext]
      obtain ⟨hnone, hall⟩ | ⟨before, t₁, after, t₁', rfl, hbefore, hrest⟩ := ih
      · exact .inl ⟨hnone, List.forall_mem_cons.2 ⟨ht, hall⟩⟩
      · exact .inr ⟨t :: before, t₁, after, t₁', rfl, List.forall_mem_cons.2 ⟨ht, hbefore⟩, hrest⟩

/-! ### One step -/

/-- The machine comes out of an operation as the definition says. -/
structure Component.Mirrors (c : Component) (out : Outcome) (outcome : Except EvalError Unit)
    (s : Situation) : Prop where
  result : out.1 = outcome.mapError .ofEval
  depicts : c.Depicts out.2 s

namespace Component

variable {c : Component} {x x' : Execution} {s : Situation}

theorem At.congr {i : Nat} (h : c.At x i) (hcurrent : x'.current = x.current) : c.At x' i :=
  ⟨h.lt, hcurrent.trans h.current⟩

/-- Only the state, the activity and the attributes matter. -/
theorem Depicts.congr (h : c.Depicts x s) (hcurrent : x'.current = x.current)
    (hactive : x'.active = x.active) (hattributes : x'.attributes = x.attributes) :
    c.Depicts x' s where
  state := by
    obtain ⟨i, hat, hname⟩ := h.state
    exact ⟨i, hat.congr hcurrent, hname⟩
  active := hactive.trans h.active
  idents := by rw [hattributes, h.idents]
  attributes name := by rw [hattributes, h.attributes]

/-- The machine goes to a state that the definition names. -/
theorem Depicts.enter (h : c.Depicts x s) {i : Nat} {name : String}
    (hname : c.states[i]?.map (·.name.raw) = some name)
    (hcurrent : x'.current = c.synthesize.valueOf i) (hattributes : x'.attributes = x.attributes) :
    c.Depicts x' { s with state := name, active := x'.active } where
  state := by
    obtain ⟨state, hstate, -⟩ := Option.map_eq_some_iff.1 hname
    obtain ⟨hlt, -⟩ := List.getElem?_eq_some_iff.1 hstate
    exact ⟨i, ⟨hlt, hcurrent.trans (c.valueOf_synthesize hlt)⟩, hname⟩
  active := rfl
  idents := by rw [hattributes, h.idents]
  attributes name := by rw [hattributes, h.attributes]

theorem Depicts.stop (h : c.Depicts x s) :
    c.Depicts (x.stop c.synthesize) { s with active := false } where
  state := by
    obtain ⟨i, hat, hname⟩ := h.state
    exact ⟨i, hat.congr rfl, hname⟩
  active := rfl
  idents := h.idents
  attributes := h.attributes

/-- Taking a transition leads to its target, also when it is where the machine already was. -/
theorem Depicts.take (h : c.Depicts x s) {t : Machine.Transition} (hat : c.At x t.source)
    {name : String} (hname : c.states[t.target]?.map (·.name.raw) = some name) :
    c.Depicts (x.take c.synthesize t) { s with state := name } := by
  rw [← h.active]
  rw [Execution.take_eq]
  split
  · rename_i hself
    exact h.enter hname (by rw [← hself, hat.current, c.valueOf_synthesize hat.lt]) rfl
  · exact h.enter hname rfl rfl

end Component

theorem lookup_override (entries : List (String × Value)) (ident : String) (value : Value)
    (key : String) :
    (entries.map fun (k, v) => (k, if k = ident then value else v)).lookup key =
      if key = ident then (entries.lookup ident).map fun _ => value else entries.lookup key := by
  induction entries with
  | nil => simp
  | cons entry entries ih =>
    obtain ⟨k, v⟩ := entry
    rw [List.map_cons, List.lookup_cons, List.lookup_cons, List.lookup_cons, ih]
    by_cases hkey : key = k
    · subst hkey
      by_cases hident : key = ident <;> simp [hident]
    · rw [beq_eq_false_iff_ne.2 hkey]
      by_cases hident : key = ident
      · subst hident
        rw [beq_eq_false_iff_ne.2 hkey]
      · simp [hident]

/-- Setting an attribute overrides its value, if it has one. -/
theorem Execution.attributes_set (x : Execution) (ident : String) (value : Value) :
    ((x.set? ident value).getD x).attributes.map (·.1) = x.attributes.map (·.1) ∧
      ∀ key, ((x.set? ident value).getD x).attributes.lookup key =
        if key = ident then (x.attributes.lookup ident).map fun _ => value
        else x.attributes.lookup key := by
  unfold set?
  split
  · refine ⟨?_, lookup_override x.attributes ident value⟩
    rw [Option.getD_some, List.map_map]
    rfl
  · rename_i hnone
    refine ⟨rfl, fun key => ?_⟩
    split
    · rename_i hkey
      rw [Option.not_isSome_iff_eq_none] at hnone
      rw [hkey, hnone]
      simp [hnone]
    · rfl

namespace Component

variable {c : Component} {x : Execution} {s : Situation}

theorem Depicts.set (h : c.Depicts x s) {name ident : String}
    (hname : ∀ f ∈ c.attributes, f.name.raw = name ↔ f.name.ident = ident) (value : Value) :
    c.Depicts ((x.set? ident value).getD x) { s with
      attributes := fun other =>
        if other = name then (s.attributes name).map fun _ => value else s.attributes other } := by
  obtain ⟨hidents, hlookup⟩ := x.attributes_set ident value
  have hset := x.set_eq ident value
  refine ⟨?_, ?_, hidents.trans h.idents, fun other => ?_⟩
  · obtain ⟨i, hat, hstate⟩ := h.state
    exact ⟨i, hat.congr (by rw [hset]), hstate⟩
  · rw [hset]
    exact h.active
  · have hother : (s.attributes other) = _ := h.attributes other
    cases hf : attribute? c.attributes other with
    | none =>
      rw [hf] at hother
      dsimp only
      split
      · rename_i heq
        rw [← heq, hother]
        rfl
      · exact hother
    | some f =>
      have hraw : f.name.raw = other := by simpa using List.find?_some hf
      have hiff := hname f (List.mem_of_find?_eq_some hf)
      rw [hf, Option.bind_some] at hother
      rw [Option.bind_some, hlookup, ← hraw]
      simp only [hiff]
      split
      · rename_i hident
        rw [← hiff.2 hident, hraw, hother, hident]
      · rw [hraw, hother]

end Component

namespace Component.Realizes

variable {d : Definition.Component} {c : Component} (h : c.Realizes d)
  (hsize : c.states.length < 2 ^ 32) {x : Execution} {s : Situation}

section Fire

variable {i : Nat} {trigger : Option String} {trigger' : Option Nat}

include h

/-- Each candidate of the definition is one of the machine, with the same ends, and agrees with it. -/
theorem forall₂_agrees (hx : c.Depicts x s) (hname : c.states[i]?.map (·.name.raw) = some s.state)
    (htrigger : Command.Resolves c.commands trigger trigger') :
    List.Forall₂ (fun t k => ∃ t', c.synthesize.transitions[k]? = some t' ∧
        (d.machine.Locates t.source t'.source ∧ d.machine.Locates t.target t'.target) ∧
        Agrees c.synthesize x s t t')
      (d.candidates s.state trigger) (c.leaving i trigger') := by
  refine (h.forall₂_candidates (h.locates_iff.2 hname) htrigger).imp fun t k ht => ?_
  obtain ⟨t', ht', hrealizes⟩ := ht
  obtain ⟨t'', ht'', hsource, htarget, hguard⟩ := c.getElem?_transitions ht'
  refine ⟨t'', ht'', ⟨?_, ?_⟩, hx.agrees hrealizes hguard⟩
  · rw [hsource]
    exact hrealizes.source
  · rw [htarget]
    exact hrealizes.target

/-- Firing what leaves the state is the reaction of the definition. -/
theorem fire_mirrors (hx : c.Depicts x s) (hactive : s.active = true) (hat : c.At x i)
    (hname : c.states[i]?.map (·.name.raw) = some s.state)
    (htrigger : Command.Resolves c.commands trigger trigger') :
    ∃ outcome s', d.Reacts s trigger outcome s' ∧
      c.Mirrors (x.fire c.synthesize (c.leaving i trigger')) outcome s' := by
  obtain ⟨hchoose, hall⟩ | ⟨before, t, after, t', hsplit, hbefore, ⟨hsource, htarget⟩, hdecides⟩ :=
    choose_of_agrees (h.forall₂_agrees hx hname htrigger)
  · refine ⟨_, _, .rest hactive hall, ?_⟩
    rw [Execution.fire, hchoose]
    exact ⟨rfl, hx⟩
  -- The state is the source of the transition, which matters when it is also the target.
  have hfrom : t'.source = i := by
    have ht : t ∈ d.candidates s.state trigger := by simp [hsplit]
    rw [(Definition.Component.mem_candidates.1 ht).2.1] at hsource
    exact Option.some.inj (hsource.symm.trans (h.locates_iff.2 hname))
  obtain ⟨hpermits, hchoose⟩ | ⟨e, hfails, hchoose⟩ := hdecides
  · refine ⟨_, _, .take hactive hsplit hbefore hpermits, ?_⟩
    rw [Execution.fire, hchoose]
    exact ⟨rfl, hx.take (hfrom ▸ hat) (h.locates_iff.1 htarget)⟩
  · refine ⟨_, _, .fail hactive hsplit hbefore hfails, ?_⟩
    rw [Execution.fire, hchoose]
    exact ⟨rfl, hx⟩

end Fire

include h

theorem start_depicts (hx : c.Depicts x s) :
    c.Depicts (x.start c.synthesize) { s with state := d.machine.initial, active := true } := by
  rw [Execution.start_eq]
  exact hx.enter (h.locates_iff.1 h.initial) rfl rfl

include hsize

theorem tick_mirrors (hx : c.Depicts x s) : ∃ outcome s', d.Step s .tick outcome s' ∧
    c.Mirrors (x.tick c.synthesize none) outcome s' := by
  cases hactive : s.active with
  | false =>
    refine ⟨_, _, .tick (.idle hactive), ?_⟩
    rw [Execution.tick, hx.active, hactive]
    exact ⟨rfl, hx⟩
  | true =>
    obtain ⟨i, hat, hname⟩ := hx.state
    obtain ⟨activities, htick⟩ := hat.tick c hsize (hx.active.trans hactive) none
    obtain ⟨invoked, hdispatch⟩ := Execution.dispatch_none ⟨i, activities, c.leaving i none⟩
    rw [htick, hdispatch]
    have hx' : c.Depicts { x with invoked } s := hx.congr rfl rfl rfl
    obtain ⟨outcome, s', hreacts, hmirrors⟩ :=
      h.fire_mirrors hx' hactive (hat.congr rfl) hname .absent
    exact ⟨outcome, s', .tick hreacts, hmirrors⟩

/-- The command of a signal makes the machine react, unless it is stopped. -/
theorem signal_mirrors (hx : c.Depicts x s) {k : Nat} {e : Command} {name : String}
    (hk : c.commands[k]? = some e) (he : e.kind = .trigger name) (opcode sequence : UInt32) :
    ∃ outcome s', d.Reacts s (some name) outcome s' ∧
      c.Mirrors (x.command c.synthesize e.mnemonic opcode sequence) outcome s' := by
  have hcommand := c.command?_of_getElem? h.mnemonics hk
  have hkind := (c.kind_machineCommand k e).trans he
  cases hactive : s.active with
  | false =>
    refine ⟨_, _, .idle hactive, ?_⟩
    rw [Execution.command_ok hcommand (Execution.obey_inactive hkind (hx.active.trans hactive))]
    exact ⟨rfl, hx.congr rfl rfl rfl⟩
  | true =>
    obtain ⟨i, hat, hname⟩ := hx.state
    have hobey := Execution.obey_active (m := c.synthesize) hkind (hx.active.trans hactive)
    rw [hat.trigger c hsize he] at hobey
    obtain ⟨outcome, s', hreacts, hresult, hdepicts⟩ :=
      h.fire_mirrors hx hactive hat hname (.present hk he)
    refine ⟨outcome, s', hreacts, ?_⟩
    rw [hresult] at hobey
    -- A command that fails is not answered, and the answer to one that succeeds is no change.
    cases outcome with
    | error error =>
      rw [Execution.command_error hcommand hobey]
      exact ⟨rfl, hdepicts⟩
    | ok _ =>
      rw [Execution.command_ok hcommand hobey]
      exact ⟨rfl, hdepicts.congr rfl rfl rfl⟩

theorem command_mirrors (hx : c.Depicts x s) {e : Command} (he : e ∈ c.commands)
    (opcode sequence : UInt32) : ∃ outcome s', d.Step s e.kind.stimulus outcome s' ∧
      c.Mirrors (x.command c.synthesize e.mnemonic opcode sequence) outcome s' := by
  obtain ⟨k, hk⟩ := List.mem_iff_getElem?.1 he
  have hcommand := c.command?_of_getElem? h.mnemonics hk
  have hkind := c.kind_machineCommand k e
  cases he : e.kind with
  | start =>
    refine ⟨_, _, .start, ?_⟩
    rw [Execution.command_ok hcommand (Execution.obey_start (hkind.trans he))]
    exact ⟨rfl, (h.start_depicts hx).congr rfl rfl rfl⟩
  | stop =>
    refine ⟨_, _, .stop, ?_⟩
    rw [Execution.command_ok hcommand (Execution.obey_stop (hkind.trans he))]
    exact ⟨rfl, hx.stop.congr rfl rfl rfl⟩
  | trigger name =>
    obtain ⟨outcome, s', hreacts, hmirrors⟩ := h.signal_mirrors hsize hx hk he opcode sequence
    exact ⟨outcome, s', .signal hreacts, hmirrors⟩

theorem perform_mirrors (hx : c.Depicts x s) {stimulus : Stimulus} {op : Machine.Operation}
    (hop : c.Conveys stimulus op) : ∃ outcome s', d.Step s stimulus outcome s' ∧
      c.Mirrors (x.perform c.synthesize none op) outcome s' := by
  cases hop with
  | start => exact ⟨_, _, .start, rfl, h.start_depicts hx⟩
  | stop => exact ⟨_, _, .stop, rfl, hx.stop⟩
  | tick => exact h.tick_mirrors hsize hx
  | command opcode sequence he => exact h.command_mirrors hsize hx he opcode sequence
  | @set name ident value hname => exact ⟨_, _, .set name value, rfl, hx.set hname value⟩

/-! ### Runs -/

/-- What an operation keeps, a run keeps. -/
theorem performAll_mirrors (hx : c.Depicts x s) {stimuli : List Stimulus}
    {ops : List Machine.Operation} (hops : List.Forall₂ c.Conveys stimuli ops) :
    ∃ outcomes s', d.Run s stimuli outcomes s' ∧
      (x.performAll c.synthesize none ops).1 = outcomes.map (·.mapError .ofEval) ∧
      c.Depicts (x.performAll c.synthesize none ops).2 s' := by
  induction hops generalizing x s with
  | nil => exact ⟨[], s, .nil s, rfl, hx⟩
  | cons hop _ ih =>
    obtain ⟨outcome, s', hstep, hresult, hx'⟩ := h.perform_mirrors hsize hx hop
    obtain ⟨outcomes, s'', hrun, hresults, hx''⟩ := ih hx'
    rw [Execution.performAll_cons, hresult, hresults]
    exact ⟨outcome :: outcomes, s'', .cons hstep hrun, rfl, hx''⟩

omit hsize

theorem new_depicts : c.Depicts (.new c.synthesize) d.initialSituation where
  state := ⟨c.initial, ⟨h.initial_lt, c.valueOf_synthesize h.initial_lt⟩, h.locates_iff.1 h.initial⟩
  active := rfl
  idents := by simp [Execution.new, synthesize]
  attributes name := by
    obtain ⟨hd, hc⟩ | ⟨f, f', hd, hc, -, hscalar⟩ :=
      find?_of_forall₂ h.attributes (p := (·.name = name)) (q := (·.name.raw = name))
        fun f f' hf => by rw [hf.1]
    · simp [Definition.Component.initialSituation, attribute?, hd, hc]
    · have hzero := lookup_zeroed h.attributeIdents (List.mem_of_find?_eq_some hc) ""
      simp only [Record.get?, Record.zeroed, List.map_map, Function.comp_def] at hzero
      simp [Definition.Component.initialSituation, attribute?, Execution.new, synthesize, hd, hc,
        Function.comp_def, hzero, hscalar]

theorem conveys_set {f : Field} (hf : f ∈ c.attributes) (value : Value) :
    c.Conveys (.set f.name.raw value) (.set f.name.ident value) := by
  refine .set value fun g hg => ⟨fun heq => ?_, fun heq => ?_⟩
  · rw [List.inj_on_of_nodup_map h.attributeRaws hg hf heq]
  · rw [List.inj_on_of_nodup_map h.attributeIdents hg hf heq]

/-- Every stimulus that the definition knows reaches the machine. -/
theorem exists_operation {stimulus : Stimulus} (hstimulus : d.Knows stimulus) :
    ∃ op, c.Conveys stimulus op := by
  cases hstimulus with
  | start => exact ⟨_, .start⟩
  | stop => exact ⟨_, .stop⟩
  | tick => exact ⟨_, .tick⟩
  | @signal t name ht hname =>
    obtain ⟨t', -, hrealizes⟩ := exists_of_forall₂ h.transitions ht
    have htrigger := hrealizes.trigger
    rw [hname] at htrigger
    generalize t'.trigger = index at htrigger
    cases htrigger with
    | @present _ _ e he hkind =>
      have hconveys : c.Conveys e.kind.stimulus _ := .command 0 0 (List.mem_of_getElem? he)
      rw [hkind] at hconveys
      exact ⟨_, hconveys⟩
  | @set f value hf =>
    obtain ⟨f', hf', hraw, -⟩ := exists_of_forall₂ h.attributes hf
    rw [← hraw]
    exact ⟨_, h.conveys_set hf' value⟩

/-- Every operation conveys a stimulus, unless it is a command that the component does not have. -/
theorem exists_stimulus {op : Machine.Operation} (hop : ∀ mnemonic opcode sequence,
    op = .command mnemonic opcode sequence → ∃ e ∈ c.commands, e.mnemonic = mnemonic) :
    ∃ stimulus, c.Conveys stimulus op := by
  cases op with
  | start => exact ⟨_, .start⟩
  | stop => exact ⟨_, .stop⟩
  | tick => exact ⟨_, .tick⟩
  | command mnemonic opcode sequence =>
    obtain ⟨e, he, rfl⟩ := hop mnemonic opcode sequence rfl
    exact ⟨_, .command opcode sequence he⟩
  | set ident value =>
    by_cases hident : ∃ f ∈ c.attributes, f.name.ident = ident
    · obtain ⟨f, hf, rfl⟩ := hident
      exact ⟨_, h.conveys_set hf value⟩
    · obtain ⟨name, hname⟩ := Infinite.exists_notMem_finset (c.attributes.map (·.name.raw)).toFinset
      refine ⟨.set name value, .set value fun f hf => ⟨?_, ?_⟩⟩
      · rintro rfl
        exact absurd (List.mem_toFinset.2 (List.mem_map_of_mem hf)) hname
      · intro heq
        exact absurd ⟨f, hf, heq⟩ hident

end Component.Realizes

/-- The machine of each built component follows its definition. Stimuli and operations stand for
one another, and along any run the results of the machine are the outcomes that the definition
has, and no others, and it ends in the situation to which the definition leads. -/
theorem performAll_simulates {definition : Definition} {model : Model}
    (hbuild : Model.build definition = .ok model) :
    List.Forall₂ (fun d c => d.machine.states.length < 2 ^ 32 →
        (∀ stimulus, d.Knows stimulus → ∃ op, c.Conveys stimulus op) ∧
        (∀ op, (∀ mnemonic opcode sequence, op = .command mnemonic opcode sequence →
          ∃ e ∈ c.commands, e.mnemonic = mnemonic) → ∃ stimulus, c.Conveys stimulus op) ∧
        ∀ stimuli ops, List.Forall₂ c.Conveys stimuli ops → ∃ outcomes s,
          d.Run d.initialSituation stimuli outcomes s ∧
          (∀ outcomes' s', d.Run d.initialSituation stimuli outcomes' s' →
            outcomes' = outcomes ∧ s' = s) ∧
          (Execution.performAll c.synthesize none (.new c.synthesize) ops).1 =
            outcomes.map (·.mapError .ofEval) ∧
          c.Depicts (Execution.performAll c.synthesize none (.new c.synthesize) ops).2 s)
      definition.components model.components := by
  refine (Model.realizes_of_build hbuild).imp fun d c h hsize =>
    ⟨fun _ => h.exists_operation, fun _ => h.exists_stimulus, fun stimuli ops hops => ?_⟩
  obtain ⟨outcomes, s, hrun, hmirrors⟩ :=
    h.performAll_mirrors (h.length_states ▸ hsize) h.new_depicts hops
  exact ⟨outcomes, s, hrun, fun _ _ hrun' => hrun'.unique hrun, hmirrors⟩

namespace Sample

/-- The switch holds the door shut: the first push takes the transition from shut to shut. -/
theorem performAll_simulates_door : ∃ d ∈ doorDefinition.components, ∃ outcomes s,
    d.Run d.initialSituation [.start, .set "switch" (.bool true), .signal "push",
      .set "switch" (.bool false), .signal "push"] outcomes s ∧ s.state = "Wide open" := by
  obtain ⟨d, hd, hdoor⟩ := exists_of_forall₂ (performAll_simulates build_doorDefinition).flip
    (List.mem_singleton_self door)
  cases List.mem_singleton.1 hd
  have hset : ∀ f ∈ door.attributes, f.name.raw = "switch" ↔ f.name.ident = "switch_" := by decide
  have hpush : ∀ sequence, door.Conveys (.signal "push") (.command "PUSH" 7 sequence) := fun sequence =>
    .command (e := ⟨"PUSH", .trigger "push"⟩) 7 sequence (by decide)
  obtain ⟨outcomes, s, hrun, -, -, hdepicts⟩ := (hdoor (by decide)).2.2 _ _ (.cons .start
    (.cons (.set (.bool true) hset) (.cons (hpush 1) (.cons (.set (.bool false) hset)
      (.cons (hpush 2) .nil)))))
  refine ⟨_, hd, outcomes, s, hrun, ?_⟩
  obtain ⟨i, hat, hname⟩ := hdepicts.state
  obtain rfl : i = 1 := Component.ofNat_injective (hat.lt.trans (by decide)) (by decide)
    (hat.current.symm.trans (by decide +kernel))
  exact (Option.some.inj hname).symm

end Sample

end FlightGen
