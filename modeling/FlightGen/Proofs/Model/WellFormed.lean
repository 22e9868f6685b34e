import FlightGen.Proofs.Model.Linked
import FlightGen.Proofs.Naming.Acceptance

/-! Well-formed definitions. What makes a definition sensible is told here by its texts alone:
names are unique where they share a scope and hold a letter or a digit, references name what
exists, and guards decide. Each search for a reference succeeds exactly if there is something
that the reference names. -/

namespace FlightGen

namespace Definition

/-! ### Activities -/

def Node.parameter? (n : Node) : Option String :=
  match n.action with
  | .parameter _ name _ _ => some name
  | _ => none

/-- What a node is called: the name of its parameter, else its own name, else its id. -/
def Node.text (n : Node) : String :=
  n.parameter?.getD (n.name.getD n.id)

/-- The name of an input parameter. -/
def Node.input? (n : Node) : Option String :=
  match n.action with
  | .parameter .input name _ _ => some name
  | _ => none

def Activity.inputs (a : Activity) : List String :=
  a.nodes.filterMap Node.input?

def Activity.ids (a : Activity) : List String :=
  a.nodes.map (·.id)

/-- An action has what a reference selects: the output of that name, or one value to choose. -/
def Action.Serves (action : Action) : Option String → Prop
  | some pin => ∃ outputs, action.outputs? = some outputs ∧ pin ∈ outputs.map (·.name)
  | none => action.outputs? = none ∨ ∃ pin, action.outputs? = some [pin]

/-- A reference names a value of the activity. -/
def Activity.Supplies (a : Activity) (ref : ValueRef) : Prop :=
  ∃ n ∈ a.nodes, n.id = ref.node ∧ n.action.Serves ref.pin

/-- All that an action refers to exists. Sources of inputs and of output pins do not count. -/
def Action.WellFormed (records : List String) (c : Component) (a : Activity) : Action → Prop
  | .opaqueAction _ _ inputs outputs =>
    (inputs.map (·.name)).Nodup ∧ (outputs.map (·.name)).Nodup ∧
      ∀ pin ∈ inputs, ∃ ref, pin.source = some ref ∧ a.Supplies ref
  | .call target arguments => ∃ callee ∈ c.activities, callee.name = target ∧
      ∀ argument ∈ arguments, argument.parameter ∈ callee.inputs ∧ a.Supplies argument.source
  | .read object _ => a.Supplies object
  | .write object _ value => a.Supplies object ∧ a.Supplies value
  | .fork nodes | .join nodes => ∀ id ∈ nodes, id ∈ a.ids
  | .create recordType => recordType ∈ records
  | .parameter direction _ type source =>
    (type ∈ records ∨ (Scalar.ofTypeName? type).isSome = true) ∧
      (direction = .output → ∀ ref ∈ source, a.Supplies ref)
  | .literal _ => True

structure Node.WellFormed (records : List String) (c : Component) (a : Activity) (n : Node) :
    Prop where
  text : Nameable n.text
  pins : ∀ pin ∈ n.action.pins, Nameable pin.name
  action : n.action.WellFormed records c a

structure Activity.WellFormed (records : List String) (c : Component) (a : Activity) : Prop where
  name : Nameable a.name
  ids : a.ids.Nodup
  parameters : (a.nodes.filterMap Node.parameter?).Nodup
  nodes : ∀ n ∈ a.nodes, n.WellFormed records c a
  edges : ∀ e ∈ a.edges, e.source ∈ a.ids ∧ e.target ∈ a.ids

/-! ### Components -/

/-- The names of fields are unique, and identifiers can be built from them. -/
structure FieldsWellFormed (fields : List Field) : Prop where
  unique : (fields.map (·.name)).Nodup
  names : ∀ f ∈ fields, Nameable f.name

/-- A guard is an expression over the attributes that yields a boolean, or one attribute that
is a boolean. -/
def Component.Decides (c : Component) (source : String) : Prop :=
  ∃ e, Expr.parse source = .ok e ∧ (∀ v ∈ e.occurrences, v ∈ c.attributes.map (·.name)) ∧
    (e.isBoolean = true ∨ ∃ f ∈ c.attributes, e = .var f.name ∧ f.scalar = .bool)

def Machine.stateNames (m : Machine) : List String :=
  m.states.map (·.name)

/-- The activities of a state exist and take no input. -/
structure State.WellFormed (c : Component) (s : State) : Prop where
  name : Nameable s.name
  activities : ∀ name ∈ s.activities, ∃ a ∈ c.activities, a.name = name ∧ a.inputs = []

structure Transition.WellFormed (c : Component) (t : Transition) : Prop where
  source : t.source ∈ c.machine.stateNames
  target : t.target ∈ c.machine.stateNames
  guard : ∀ source ∈ t.guard, c.Decides source
  trigger : ∀ signal ∈ t.trigger, Nameable signal

structure Machine.WellFormed (c : Component) (m : Machine) : Prop where
  name : Nameable m.name
  nonempty : m.states ≠ []
  unique : m.stateNames.Nodup
  states : ∀ s ∈ m.states, s.WellFormed c
  initial : m.initial ∈ m.stateNames
  transitions : ∀ t ∈ m.transitions, t.WellFormed c

structure Component.WellFormed (records : List String) (c : Component) : Prop where
  name : Nameable c.name
  attributes : FieldsWellFormed c.attributes
  machine : c.machine.WellFormed c
  unique : (c.activities.map (·.name)).Nodup
  activities : ∀ a ∈ c.activities, a.WellFormed records c

structure RecordType.WellFormed (r : RecordType) : Prop where
  name : Nameable r.name
  fields : FieldsWellFormed r.fields

end Definition

structure Definition.WellFormed (d : Definition) : Prop where
  recordNames : (d.recordTypes.map (·.name)).Nodup
  records : ∀ r ∈ d.recordTypes, r.WellFormed
  componentNames : (d.components.map (·.name)).Nodup
  components : ∀ c ∈ d.components, c.WellFormed (d.recordTypes.map (·.name))

/-! ### Searches -/

/-- Among elements with different names, the first one of a name is the only one. -/
theorem exists_located_iff {α : Type} {key : α → String} {xs : List α} (h : (xs.map key).Nodup)
    {name : String} {P : α → Prop} :
    (∃ i x, xs.findIdx? (key · = name) = some i ∧ xs[i]? = some x ∧ P x) ↔
      ∃ x ∈ xs, key x = name ∧ P x := by
  constructor
  · rintro ⟨i, x, hi, hx, hP⟩
    obtain ⟨x', hx', hname⟩ := exists_of_findIdx? hi
    cases hx.symm.trans hx'
    exact ⟨x, List.mem_of_getElem? hx, of_decide_eq_true hname, hP⟩
  · rintro ⟨x, hx, rfl, hP⟩
    obtain ⟨i, hi⟩ : ∃ i, xs.findIdx? (key · = key x) = some i :=
      exists_findIdx?_iff.2 ⟨x, hx, decide_eq_true rfl⟩
    obtain ⟨x', hx', hname⟩ := exists_of_findIdx? hi
    cases List.inj_on_of_nodup_map h (List.mem_of_getElem? hx') hx (of_decide_eq_true hname)
    exact ⟨i, x, hi, hx', hP⟩

theorem exists_findIdx?_name {α : Type} {key : α → String} {xs : List α} {name : String} :
    (∃ i, xs.findIdx? (key · = name) = some i) ↔ name ∈ xs.map key := by
  simp [exists_findIdx?_iff]

namespace Definition

theorem Action.exists_offers_iff {action : Action} {selection : Option String} :
    (∃ index, action.Offers selection index) ↔ action.Serves selection := by
  constructor
  · rintro ⟨index, h⟩
    cases h with
    | named houtputs hindex => exact ⟨_, houtputs, exists_findIdx?_name.1 ⟨_, hindex⟩⟩
    | only houtputs => exact .inr ⟨_, houtputs⟩
    | value houtputs => exact .inl houtputs
  · intro h
    cases selection with
    | some pin =>
      obtain ⟨outputs, houtputs, hpin⟩ := h
      obtain ⟨index, hindex⟩ := exists_findIdx?_name.2 hpin
      exact ⟨some index, .named houtputs hindex⟩
    | none =>
      obtain houtputs | ⟨pin, houtputs⟩ := h
      · exact ⟨none, .value houtputs⟩
      · exact ⟨some 0, .only houtputs⟩

theorem Activity.exists_leads_iff {a : Activity} (h : a.ids.Nodup) {ref : ValueRef} :
    (∃ o, a.Leads ref o) ↔ a.Supplies ref := by
  rw [Activity.Supplies, ← exists_located_iff h]
  simp only [← Action.exists_offers_iff]
  constructor
  · rintro ⟨o, hnode, n, hn, hoffers⟩
    exact ⟨o.node, n, hnode, hn, o.pin, hoffers⟩
  · rintro ⟨i, n, hnode, hn, pin, hoffers⟩
    exact ⟨⟨i, pin⟩, hnode, n, hn, hoffers⟩

theorem Node.text_eq (n : Node) : n.text = variableText n := by
  rw [text, parameter?, variableText]
  cases n.action <;> rfl

theorem Node.isInput_iff {n : Node} {name : String} :
    n.isInput name = true ↔ n.input? = some name := by
  unfold Node.isInput Node.input?
  split <;> simp [*]

theorem Activity.exists_input_iff {a : Activity} {name : String} :
    (∃ i, a.nodes.findIdx? (Node.isInput name) = some i) ↔ name ∈ a.inputs := by
  simp [exists_findIdx?_iff, Node.isInput_iff, Activity.inputs]

end Definition

theorem ParameterType.exists_resolves_iff {records : List RecordType} {name : String} :
    (∃ type : ParameterType, type.Resolves records name) ↔
      name ∈ records.map (·.name.raw) ∨ (Scalar.ofTypeName? name).isSome = true := by
  constructor
  · rintro ⟨type, h⟩
    cases h with
    | record hindex => exact .inl (exists_findIdx?_name.1 ⟨_, hindex⟩)
    | scalar _ hs => exact .inr (by simp [hs])
  · intro h
    by_cases hrecord : name ∈ records.map (·.name.raw)
    · obtain ⟨index, hindex⟩ := exists_findIdx?_name.2 hrecord
      exact ⟨.record index, .record hindex⟩
    · obtain ⟨s, hs⟩ := Option.isSome_iff_exists.1 (h.resolve_left hrecord)
      refine ⟨.scalar s, .scalar (fun r hr heq => hrecord ?_) hs⟩
      exact List.mem_map.2 ⟨r, hr, heq⟩

/-! ### Actions -/

theorem Pin.exists_resolves_iff {a : Definition.Activity} (h : a.ids.Nodup)
    (idents : List (String × String)) {d : Definition.Pin} :
    (∃ pin, Pin.Resolves a idents d pin) ↔ ∃ ref, d.source = some ref ∧ a.Supplies ref := by
  simp only [← Definition.Activity.exists_leads_iff h, Pin.Resolves]
  constructor
  · rintro ⟨_, ref, o, href, ho, -⟩
    exact ⟨ref, href, o, ho⟩
  · rintro ⟨ref, href, o, ho⟩
    exact ⟨_, ref, o, href, ho, rfl⟩

theorem Argument.exists_resolves_iff {a callee : Definition.Activity} (h : a.ids.Nodup)
    {d : Definition.Argument} : (∃ argument, Argument.Resolves a callee d argument) ↔
      d.parameter ∈ callee.inputs ∧ a.Supplies d.source := by
  rw [← Definition.Activity.exists_leads_iff h, ← Definition.Activity.exists_input_iff]
  constructor
  · rintro ⟨argument, hparameter, hsource⟩
    exact ⟨⟨_, hparameter⟩, _, hsource⟩
  · rintro ⟨⟨i, hi⟩, o, ho⟩
    exact ⟨⟨i, o⟩, hi, ho⟩

/-- An action resolves exactly if it is well-formed. A search ends at the first element of a
name, which is the only one. -/
theorem Action.exists_resolves_iff {s : ActivityScope} {ident : String}
    {idents : List (String × String)} (hids : s.activity.ids.Nodup)
    (hnames : (s.component.activities.map (·.name)).Nodup) (d : Definition.Action) :
    (∃ action : Action, action.Resolves s ident idents d) ↔
      d.WellFormed (s.records.map (·.name.raw)) s.component s.activity := by
  have hleads : ∀ ref, (∃ o, s.activity.Leads ref o) ↔ s.activity.Supplies ref :=
    fun ref => Definition.Activity.exists_leads_iff hids
  have hlocates : ∀ ids : List String, (∃ nodes, List.Forall₂ s.activity.Locates ids nodes) ↔
      ∀ id ∈ ids, id ∈ s.activity.ids :=
    fun ids => exists_forall₂_iff.trans (forall₂_congr fun _ _ => exists_findIdx?_name)
  cases d with
  | opaqueAction body language inputs outputs =>
    simp only [Definition.Action.WellFormed, ← Pin.exists_resolves_iff hids idents,
      ← exists_forall₂_iff]
    constructor
    · rintro ⟨_, h⟩
      cases h with
      | opaqueAction hinputs houtputs hpins => exact ⟨hinputs, houtputs, _, hpins⟩
    · rintro ⟨hinputs, houtputs, pins, hpins⟩
      exact ⟨_, .opaqueAction hinputs houtputs hpins⟩
  | call target arguments =>
    rw [Definition.Action.WellFormed, ← exists_located_iff hnames]
    simp only [← Argument.exists_resolves_iff hids, ← exists_forall₂_iff]
    constructor
    · rintro ⟨_, h⟩
      cases h with
      | call hindex hcallee hargs => exact ⟨_, _, hindex, hcallee, _, hargs⟩
    · rintro ⟨index, callee, hindex, hcallee, resolved, hargs⟩
      exact ⟨_, .call hindex hcallee hargs⟩
  | read object feature =>
    rw [Definition.Action.WellFormed, ← hleads]
    constructor
    · rintro ⟨_, h⟩
      cases h with
      | read ho => exact ⟨_, ho⟩
    · rintro ⟨o, ho⟩
      exact ⟨_, .read ho⟩
  | write object feature value =>
    rw [Definition.Action.WellFormed, ← hleads, ← hleads]
    constructor
    · rintro ⟨_, h⟩
      cases h with
      | write ho hv => exact ⟨⟨_, ho⟩, _, hv⟩
    · rintro ⟨⟨o, ho⟩, v, hv⟩
      exact ⟨_, .write ho hv⟩
  | fork branches =>
    rw [Definition.Action.WellFormed, ← hlocates]
    constructor
    · rintro ⟨_, h⟩
      cases h with
      | fork hnodes => exact ⟨_, hnodes⟩
    · rintro ⟨nodes, hnodes⟩
      exact ⟨_, .fork hnodes⟩
  | join inputs =>
    rw [Definition.Action.WellFormed, ← hlocates]
    constructor
    · rintro ⟨_, h⟩
      cases h with
      | join hnodes => exact ⟨_, hnodes⟩
    · rintro ⟨nodes, hnodes⟩
      exact ⟨_, .join hnodes⟩
  | create recordType =>
    rw [Definition.Action.WellFormed, ← exists_findIdx?_name]
    constructor
    · rintro ⟨_, h⟩
      cases h with
      | create hindex => exact ⟨_, hindex⟩
    · rintro ⟨index, hindex⟩
      exact ⟨_, .create hindex⟩
  | parameter direction name type source =>
    rw [Definition.Action.WellFormed, ← ParameterType.exists_resolves_iff]
    cases direction with
    | input =>
      constructor
      · rintro ⟨_, h⟩
        cases h with
        | input htype => exact ⟨⟨_, htype⟩, by simp⟩
      · rintro ⟨⟨resolved, htype⟩, -⟩
        exact ⟨_, .input htype⟩
    | output =>
      constructor
      · rintro ⟨_, h⟩
        cases h with
        | output htype hsource =>
          refine ⟨⟨_, htype⟩, fun _ ref href => ?_⟩
          cases hsource with
          | none => cases href
          | some ho =>
            cases href
            exact (hleads ref).1 ⟨_, ho⟩
      · rintro ⟨⟨resolved, htype⟩, hsource⟩
        cases source with
        | none => exact ⟨_, .output htype .none⟩
        | some ref =>
          obtain ⟨o, ho⟩ := (hleads ref).2 (hsource rfl ref rfl)
          exact ⟨_, .output htype (.some ho)⟩
  | literal value => exact ⟨fun _ => trivial, fun _ => ⟨_, .literal⟩⟩

end FlightGen
