import FlightGen.Model.Build
import FlightGen.Proofs.Fallible

/-! References and what they lead to. Ids, pins, activities and types are found by name, and
an action resolves if all of its references do; here each search is told as a relation, which
the search computes. -/

namespace FlightGen

/-! ### Checks and searches -/

theorem checkUniqueAfter_eq_ok {path : String} {element : Element} {seen names : List String} :
    checkUniqueAfter path element seen names = .ok () ↔
      names.Nodup ∧ ∀ name ∈ names, name ∉ seen := by
  induction names generalizing seen with
  | nil => simp [checkUniqueAfter]
  | cons name names ih =>
    rw [checkUniqueAfter]
    split
    · rename_i hseen
      simp [hseen]
    · rename_i hseen
      rw [ih, List.nodup_cons, List.forall_mem_cons]
      constructor
      · rintro ⟨hnodup, hnames⟩
        exact ⟨⟨fun h => hnames name h List.mem_cons_self, hnodup⟩, hseen,
          fun n hn h => hnames n hn (List.mem_cons_of_mem _ h)⟩
      · rintro ⟨⟨hname, hnodup⟩, -, hnames⟩
        refine ⟨hnodup, fun n hn h => ?_⟩
        obtain rfl | h := List.mem_cons.1 h
        · exact hname hn
        · exact hnames n hn h

theorem checkUnique_eq_ok {path : String} {element : Element} {names : List String} :
    checkUnique path element names = .ok () ↔ names.Nodup := by
  simp [checkUnique, checkUniqueAfter_eq_ok]

theorem found_eq_ok {path reference : String} {element : Element} {index? : Option Nat} {i : Nat} :
    found path element reference index? = .ok i ↔ index? = some i := by
  cases index? <;> simp [found]

theorem lt_of_findIdx? {α : Type} {p : α → Bool} {xs : List α} {i : Nat}
    (h : xs.findIdx? p = some i) : i < xs.length := by
  obtain ⟨hi, -⟩ := List.findIdx?_eq_some_iff_getElem.1 h
  exact hi

theorem exists_of_findIdx? {α : Type} {p : α → Bool} {xs : List α} {i : Nat}
    (h : xs.findIdx? p = some i) : ∃ x, xs[i]? = some x ∧ p x = true := by
  obtain ⟨hi, hp, -⟩ := List.findIdx?_eq_some_iff_getElem.1 h
  exact ⟨xs[i], List.getElem?_eq_getElem hi, hp⟩

/-- A search succeeds if there is something to find. -/
theorem exists_findIdx?_iff {α : Type} {p : α → Bool} {xs : List α} :
    (∃ i, xs.findIdx? p = some i) ↔ ∃ x ∈ xs, p x = true := by
  rw [← Option.isSome_iff_exists, List.findIdx?_isSome, List.any_eq_true]

/-! ### States, nodes and outlets -/

namespace Definition

/-- The position of a state that a definition names. -/
def Machine.Locates (m : Machine) (name : String) (index : Nat) : Prop :=
  m.states.findIdx? (·.name = name) = some index

theorem Machine.Locates.lt {m : Machine} {name : String} {i : Nat} (h : m.Locates name i) :
    i < m.states.length :=
  lt_of_findIdx? h

/-- The position of the node with an id. -/
def Activity.Locates (a : Activity) (id : String) (index : Nat) : Prop :=
  a.nodes.findIdx? (·.id = id) = some index

/-- The outputs that a reference has to choose from. -/
def Action.outputs? : Action → Option (List Pin)
  | .opaqueAction _ _ _ outputs => some outputs
  | _ => none

/-- The output that a selection picks: one by its name, the only one, or none of an action
that has just one value. -/
inductive Action.Offers (action : Action) : Option String → Option Nat → Prop
  | named {outputs : List Pin} {pin : String} {index : Nat} : action.outputs? = some outputs →
      outputs.findIdx? (·.name = pin) = some index → Offers action (some pin) (some index)
  | only {pin : Pin} : action.outputs? = some [pin] → Offers action none (some 0)
  | value : action.outputs? = none → Offers action none none

theorem Action.Offers.exists_outputs {action : Action} {selection : Option String} {index : Nat}
    (h : action.Offers selection (some index)) : ∃ outputs, action.outputs? = some outputs := by
  cases h with
  | named houtputs => exact ⟨_, houtputs⟩
  | only houtputs => exact ⟨_, houtputs⟩

theorem Action.Offers.eq_none {action : Action} {selection : Option String}
    (h : action.Offers selection none) : selection = none ∧ action.outputs? = none := by
  cases h with
  | value houtputs => exact ⟨rfl, houtputs⟩

/-- The outlet that a reference stands for. -/
structure Activity.Leads (a : Activity) (ref : ValueRef) (o : Outlet) : Prop where
  node : a.Locates ref.node o.node
  pin : ∃ n, a.nodes[o.node]? = some n ∧ n.action.Offers ref.pin o.pin

theorem node_eq_ok {a : Activity} {path id : String} {i : Nat} :
    a.node path id = .ok i ↔ a.Locates id i :=
  found_eq_ok

theorem Activity.Locates.lt {a : Activity} {id : String} {i : Nat} (h : a.Locates id i) :
    i < a.nodes.length :=
  lt_of_findIdx? h

theorem outputPin_eq_ok {path : String} {ref : ValueRef} {action : Action} {outputs : List Pin}
    {i : Nat} (houtputs : action.outputs? = some outputs) :
    outputPin path ref outputs = .ok i ↔ action.Offers ref.pin (some i) := by
  constructor
  · intro h
    unfold outputPin at h
    split at h
    · rename_i hpin
      rw [hpin]
      exact .named houtputs (found_eq_ok.1 h)
    · rename_i hpin
      cases h
      rw [hpin]
      exact .only houtputs
    · cases h
  · intro h
    unfold outputPin
    generalize ref.pin = pin at h
    cases h with
    | named houtputs' hpin =>
      cases houtputs.symm.trans houtputs'
      exact found_eq_ok.2 hpin
    | only houtputs' =>
      cases houtputs.symm.trans houtputs'
      rfl

theorem Action.outputs?_eq_some {action : Action} {outputs : List Pin} :
    action.outputs? = some outputs ↔
      ∃ body language inputs, action = .opaqueAction body language inputs outputs := by
  cases action <;> simp [Action.outputs?]

theorem Action.outputs?_eq_none {action : Action} : action.outputs? = none ↔
    ∀ body language inputs outputs, action ≠ .opaqueAction body language inputs outputs := by
  cases action <;> simp [Action.outputs?]

theorem outlet_eq_ok {a : Activity} {path : String} {ref : ValueRef} {o : Outlet} :
    a.outlet path ref = .ok o ↔ a.Leads ref o := by
  unfold Activity.outlet
  rw [bind_eq_ok]
  constructor
  · rintro ⟨index, hindex, h⟩
    have hnode := node_eq_ok.1 hindex
    obtain ⟨n, hn, -⟩ := exists_of_findIdx? hnode
    rw [Activity.action?, hn, Option.map_some] at h
    split at h
    · rename_i haction
      obtain ⟨pin, hpin, h⟩ := bind_eq_ok.1 h
      cases h
      have houtputs := Action.outputs?_eq_some.2 ⟨_, _, _, Option.some.inj haction⟩
      exact ⟨hnode, n, hn, (outputPin_eq_ok houtputs).1 hpin⟩
    · cases h
    · rename_i hpin hother
      cases h
      refine ⟨hnode, n, hn, hpin ▸ .value (Action.outputs?_eq_none.2 ?_)⟩
      intro body language inputs outputs haction
      exact hother body language inputs outputs (congrArg some haction)
  · rintro ⟨hnode, n, hn, hoffers⟩
    refine ⟨o.node, node_eq_ok.2 hnode, ?_⟩
    rw [Activity.action?, hn, Option.map_some]
    obtain ⟨node, pin⟩ := o
    cases pin with
    | some index =>
      obtain ⟨outputs, houtputs⟩ := hoffers.exists_outputs
      obtain ⟨body, language, inputs, haction⟩ := Action.outputs?_eq_some.1 houtputs
      rw [haction]
      exact bind_eq_ok.2 ⟨index, (outputPin_eq_ok houtputs).2 hoffers, rfl⟩
    | none =>
      obtain ⟨hpin, houtputs⟩ := hoffers.eq_none
      rw [hpin]
      split
      · rename_i haction
        exact absurd (Option.some.inj haction) (Action.outputs?_eq_none.1 houtputs _ _ _ _)
      · contradiction
      · rfl

end Definition

/-! ### Types -/

/-- The type that a name stands for. Record types come before primitive types. -/
inductive ParameterType.Resolves (records : List RecordType) (name : String) : ParameterType → Prop
  | record {index : Nat} : records.findIdx? (·.name.raw = name) = some index →
      Resolves records name (.record index)
  | scalar {s : Scalar} : (∀ r ∈ records, r.name.raw ≠ name) → Scalar.ofTypeName? name = some s →
      Resolves records name (.scalar s)

theorem parameterType_eq_ok {records : List RecordType} {path name : String} {type : ParameterType} :
    parameterType records path name = .ok type ↔ type.Resolves records name := by
  unfold parameterType
  cases hrecord : records.findIdx? (·.name.raw = name) with
  | some index =>
    constructor
    · intro h
      cases h
      exact .record hrecord
    · intro h
      cases h with
      | record hrecord' =>
        cases hrecord.symm.trans hrecord'
        rfl
      | scalar hother =>
        obtain ⟨r, hr, hname⟩ := exists_of_findIdx? hrecord
        exact absurd (by simpa using hname) (hother r (List.mem_of_getElem? hr))
  | none =>
    have hother : ∀ r ∈ records, r.name.raw ≠ name := by
      simpa using List.findIdx?_eq_none_iff.1 hrecord
    constructor
    · intro h
      dsimp only at h
      split at h
      · rename_i hs
        cases h
        exact .scalar hother hs
      · cases h
    · intro h
      cases h with
      | record hrecord' => cases hrecord.symm.trans hrecord'
      | scalar _ hs =>
        dsimp only
        rw [hs]

/-! ### Actions -/

/-- What an input pin of an opaque action becomes; it has to have a source. -/
def Pin.Resolves (a : Definition.Activity) (idents : List (String × String)) (d : Definition.Pin)
    (pin : Pin) : Prop :=
  ∃ ref o, d.source = some ref ∧ a.Leads ref o ∧ pin = ⟨pinName idents d.name, d.scalar, some o⟩

/-- What an argument of a call becomes: it goes to an input parameter of the callee. -/
structure Argument.Resolves (a callee : Definition.Activity) (d : Definition.Argument)
    (argument : Argument) : Prop where
  parameter : callee.nodes.findIdx? (Definition.Node.isInput d.parameter) = some argument.parameter
  source : a.Leads d.source argument.source

/-- What an action becomes, in a node whose variable is `ident` and whose pins have the
identifiers `idents`. -/
inductive Action.Resolves (s : ActivityScope) (ident : String) (idents : List (String × String)) :
    Definition.Action → Action → Prop
  | opaqueAction {body : String} {language : Option String} {inputs outputs : List Definition.Pin}
      {pins : List Pin} : (inputs.map (·.name)).Nodup → (outputs.map (·.name)).Nodup →
      List.Forall₂ (Pin.Resolves s.activity idents) inputs pins →
      Resolves s ident idents (.opaqueAction body language inputs outputs)
        (.opaqueAction body language pins
          (outputs.map fun pin => ⟨pinName idents pin.name, pin.scalar, none⟩))
  | call {target : String} {index : Nat} {callee : Definition.Activity}
      {arguments : List Definition.Argument} {resolved : List Argument} :
      s.component.activities.findIdx? (·.name = target) = some index →
      s.component.activities[index]? = some callee →
      List.Forall₂ (Argument.Resolves s.activity callee) arguments resolved →
      Resolves s ident idents (.call target arguments) (.call index resolved)
  | read {object : Definition.ValueRef} {feature : String} {o : Outlet} :
      s.activity.Leads object o → Resolves s ident idents (.read object feature) (.read o feature)
  | write {object value : Definition.ValueRef} {feature : String} {o v : Outlet} :
      s.activity.Leads object o → s.activity.Leads value v →
      Resolves s ident idents (.write object feature value) (.write o feature v)
  | fork {branches : List String} {nodes : List Nat} :
      List.Forall₂ s.activity.Locates branches nodes →
      Resolves s ident idents (.fork branches) (.fork nodes)
  | join {inputs : List String} {nodes : List Nat} :
      List.Forall₂ s.activity.Locates inputs nodes →
      Resolves s ident idents (.join inputs) (.join nodes)
  | create {recordType : String} {index : Nat} :
      s.records.findIdx? (·.name.raw = recordType) = some index →
      Resolves s ident idents (.create recordType) (.create index)
  | input {name type : String} {source : Option Definition.ValueRef} {resolved : ParameterType} :
      resolved.Resolves s.records type →
      Resolves s ident idents (.parameter .input name type source)
        (.parameter .input ⟨name, ident⟩ resolved none)
  | output {name type : String} {source : Option Definition.ValueRef} {resolved : ParameterType}
      {o : Option Outlet} : resolved.Resolves s.records type →
      Option.Rel s.activity.Leads source o →
      Resolves s ident idents (.parameter .output name type source)
        (.parameter .output ⟨name, ident⟩ resolved o)
  | literal {value : Value} : Resolves s ident idents (.literal value) (.literal value)

theorem inputPin_eq_ok {s : ActivityScope} {path : String} {idents : List (String × String)}
    {d : Definition.Pin} {pin : Pin} :
    s.inputPin path idents d = .ok pin ↔ Pin.Resolves s.activity idents d pin := by
  unfold ActivityScope.inputPin Pin.Resolves
  cases hsource : d.source with
  | none => simp
  | some ref =>
    dsimp only
    rw [bind_eq_ok]
    constructor
    · rintro ⟨o, ho, h⟩
      cases h
      exact ⟨ref, o, rfl, Definition.outlet_eq_ok.1 ho, rfl⟩
    · rintro ⟨_, o, heq, ho, rfl⟩
      cases heq
      exact ⟨o, Definition.outlet_eq_ok.2 ho, rfl⟩

theorem argument_eq_ok {s : ActivityScope} {path : String} {callee : Definition.Activity}
    {d : Definition.Argument} {argument : Argument} :
    s.argument path callee d = .ok argument ↔ Argument.Resolves s.activity callee d argument := by
  unfold ActivityScope.argument
  rw [bind_eq_ok]
  constructor
  · rintro ⟨parameter, hparameter, h⟩
    obtain ⟨o, ho, h⟩ := bind_eq_ok.1 h
    cases h
    exact ⟨found_eq_ok.1 hparameter, Definition.outlet_eq_ok.1 ho⟩
  · rintro ⟨hparameter, hsource⟩
    exact ⟨_, found_eq_ok.2 hparameter, bind_eq_ok.2 ⟨_, Definition.outlet_eq_ok.2 hsource, rfl⟩⟩

/-- Resolution succeeds with what an action becomes, and only with that. -/
theorem resolveAction_eq_ok {s : ActivityScope} {path ident : String}
    {idents : List (String × String)} {d : Definition.Action} {action : Action} :
    s.resolveAction path ident idents d = .ok action ↔ Action.Resolves s ident idents d action := by
  constructor
  · intro h
    cases d with
    | opaqueAction body language inputs outputs =>
      obtain ⟨_, hinputs, h⟩ := bind_eq_ok.1 h
      obtain ⟨_, houtputs, h⟩ := bind_eq_ok.1 h
      obtain ⟨pins, hpins, h⟩ := bind_eq_ok.1 h
      cases h
      exact .opaqueAction (checkUnique_eq_ok.1 hinputs) (checkUnique_eq_ok.1 houtputs)
        ((mapM_eq_ok_iff fun _ _ => inputPin_eq_ok).1 hpins)
    | call target arguments =>
      obtain ⟨index, hindex, h⟩ := bind_eq_ok.1 h
      split at h
      · rename_i callee hcallee
        obtain ⟨resolved, hargs, h⟩ := bind_eq_ok.1 h
        cases h
        exact .call (found_eq_ok.1 hindex) hcallee ((mapM_eq_ok_iff fun _ _ => argument_eq_ok).1 hargs)
      · cases h
    | read object feature =>
      obtain ⟨o, ho, h⟩ := bind_eq_ok.1 h
      cases h
      exact .read (Definition.outlet_eq_ok.1 ho)
    | write object feature value =>
      obtain ⟨o, ho, h⟩ := bind_eq_ok.1 h
      obtain ⟨v, hv, h⟩ := bind_eq_ok.1 h
      cases h
      exact .write (Definition.outlet_eq_ok.1 ho) (Definition.outlet_eq_ok.1 hv)
    | fork branches =>
      obtain ⟨nodes, hnodes, h⟩ := bind_eq_ok.1 h
      cases h
      exact .fork ((mapM_eq_ok_iff fun _ _ => Definition.node_eq_ok).1 hnodes)
    | join inputs =>
      obtain ⟨nodes, hnodes, h⟩ := bind_eq_ok.1 h
      cases h
      exact .join ((mapM_eq_ok_iff fun _ _ => Definition.node_eq_ok).1 hnodes)
    | create recordType =>
      obtain ⟨index, hindex, h⟩ := bind_eq_ok.1 h
      cases h
      exact .create (found_eq_ok.1 hindex)
    | parameter direction name type source =>
      obtain ⟨resolved, htype, h⟩ := bind_eq_ok.1 h
      have htype := parameterType_eq_ok.1 htype
      cases direction with
      | input =>
        cases h
        exact .input htype
      | output =>
        cases source with
        | none =>
          cases h
          exact .output htype .none
        | some ref =>
          obtain ⟨source?, hsource, h⟩ := bind_eq_ok.1 h
          obtain ⟨o, ho, rfl⟩ := map_eq_ok.1 hsource
          cases h
          exact .output htype (.some (Definition.outlet_eq_ok.1 ho))
    | literal value =>
      cases h
      exact .literal
  · intro h
    cases h with
    | opaqueAction hinputs houtputs hpins =>
      refine bind_eq_ok.2 ⟨(), checkUnique_eq_ok.2 hinputs, ?_⟩
      refine bind_eq_ok.2 ⟨(), checkUnique_eq_ok.2 houtputs, ?_⟩
      exact bind_eq_ok.2 ⟨_, (mapM_eq_ok_iff fun _ _ => inputPin_eq_ok).2 hpins, rfl⟩
    | call hindex hcallee hargs =>
      refine bind_eq_ok.2 ⟨_, found_eq_ok.2 hindex, ?_⟩
      rw [hcallee]
      exact bind_eq_ok.2 ⟨_, (mapM_eq_ok_iff fun _ _ => argument_eq_ok).2 hargs, rfl⟩
    | read ho => exact bind_eq_ok.2 ⟨_, Definition.outlet_eq_ok.2 ho, rfl⟩
    | write ho hv =>
      refine bind_eq_ok.2 ⟨_, Definition.outlet_eq_ok.2 ho, ?_⟩
      exact bind_eq_ok.2 ⟨_, Definition.outlet_eq_ok.2 hv, rfl⟩
    | fork hnodes =>
      exact bind_eq_ok.2 ⟨_, (mapM_eq_ok_iff fun _ _ => Definition.node_eq_ok).2 hnodes, rfl⟩
    | join hnodes =>
      exact bind_eq_ok.2 ⟨_, (mapM_eq_ok_iff fun _ _ => Definition.node_eq_ok).2 hnodes, rfl⟩
    | create hindex => exact bind_eq_ok.2 ⟨_, found_eq_ok.2 hindex, rfl⟩
    | input htype => exact bind_eq_ok.2 ⟨_, parameterType_eq_ok.2 htype, rfl⟩
    | output htype hsource =>
      refine bind_eq_ok.2 ⟨_, parameterType_eq_ok.2 htype, ?_⟩
      cases hsource with
      | none => rfl
      | some ho => exact bind_eq_ok.2 ⟨_, map_eq_ok.2 ⟨_, Definition.outlet_eq_ok.2 ho, rfl⟩, rfl⟩
    | literal => rfl

/-! ### Edges -/

theorem buildEdge_eq_ok {s : ActivityScope} {e : Definition.Edge} {edge : Nat × Nat} :
    s.buildEdge e = .ok edge ↔
      s.activity.Locates e.source edge.1 ∧ s.activity.Locates e.target edge.2 := by
  unfold ActivityScope.buildEdge
  rw [bind_eq_ok]
  constructor
  · rintro ⟨source, hsource, h⟩
    obtain ⟨target, htarget, h⟩ := bind_eq_ok.1 h
    cases h
    exact ⟨Definition.node_eq_ok.1 hsource, Definition.node_eq_ok.1 htarget⟩
  · rintro ⟨hsource, htarget⟩
    refine ⟨_, Definition.node_eq_ok.2 hsource, ?_⟩
    exact bind_eq_ok.2 ⟨_, Definition.node_eq_ok.2 htarget, rfl⟩

/-! ### Activities of states -/

theorem Activity.firstInput?_eq_none {a : Activity} : a.firstInput? = none ↔
    ∀ n ∈ a.nodes, ∀ name type source, n.action ≠ .parameter .input name type source := by
  rw [firstInput?, List.findSome?_eq_none_iff]
  refine forall₂_congr fun n _ => ?_
  split
  · rename_i haction
    simp [haction]
  · rename_i hother
    exact ⟨fun _ => hother, fun _ => rfl⟩

/-- The position of an activity that a state runs. Nothing is passed to it. -/
structure State.Runs (d : Definition.Component) (activities : List Activity)
    (name : String) (index : Nat) : Prop where
  activity : d.activities.findIdx? (·.name = name) = some index
  input : activities[index]?.bind (·.firstInput?) = none

theorem stateActivity_eq_ok {d : Definition.Component} {activities : List Activity}
    {path name : String} {index : Nat} :
    stateActivity d activities path name = .ok index ↔ State.Runs d activities name index := by
  unfold stateActivity
  rw [bind_eq_ok]
  constructor
  · rintro ⟨index, hindex, h⟩
    split at h
    · cases h
    · rename_i hinput
      cases h
      exact ⟨found_eq_ok.1 hindex, hinput⟩
  · rintro ⟨hindex, hinput⟩
    refine ⟨index, found_eq_ok.2 hindex, ?_⟩
    rw [hinput]
    rfl

end FlightGen
