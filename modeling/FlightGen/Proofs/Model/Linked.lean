import FlightGen.Proofs.Model.Wiring

/-! Links. A position in a built model is always that of an element which exists, and which
bears the name that stands at this place in the definition: nodes their ids, outputs and
parameters, activities, record types, states and commands their names. -/

namespace FlightGen

/-! ### Nodes and outlets -/

/-- The node at a position has an id. -/
def Activity.HasNode (a : Activity) (id : String) (index : Nat) : Prop :=
  ∃ n, a.nodes[index]? = some n ∧ n.id = id

/-- The node at a position is an input parameter of a name. -/
def Activity.HasInput (a : Activity) (name : String) (index : Nat) : Prop :=
  ∃ n parameter type source, a.nodes[index]? = some n ∧
    n.action = .parameter .input parameter type source ∧ parameter.raw = name

/-- The outputs that an outlet has to choose from. -/
def Action.outputs? : Action → Option (List Pin)
  | .opaqueAction _ _ _ outputs => some outputs
  | _ => none

/-- What a selection picks of an action: of an opaque action the output with a name, or the only
one, and of any other action its value. -/
inductive Action.Offers (action : Action) : Option String → Option Nat → Prop
  | named {outputs : List Pin} {pin : Pin} {name : String} {index : Nat} :
      action.outputs? = some outputs → outputs[index]? = some pin → pin.name.raw = name →
      Offers action (some name) (some index)
  | only {pin : Pin} : action.outputs? = some [pin] → Offers action none (some 0)
  | value : action.outputs? = none → Offers action none none

/-- An outlet is the one that a reference names. -/
def Activity.Denotes (a : Activity) (ref : Definition.ValueRef) (o : Outlet) : Prop :=
  ∃ n, a.nodes[o.node]? = some n ∧ n.id = ref.node ∧ n.action.Offers ref.pin o.pin

namespace Action.Resolves

variable {s : ActivityScope} {ident : String} {idents : List (String × String)}
  {d : Definition.Action} {action : Action} (h : action.Resolves s ident idents d)

include h

theorem map_outputs? : action.outputs?.map (List.map (·.name.raw)) =
    d.outputs?.map (List.map (·.name)) := by
  cases h <;> simp [outputs?, Definition.Action.outputs?, pinName]

/-- Outputs stay in their places. -/
theorem offers {selection : Option String} {index : Option Nat} (ho : d.Offers selection index) :
    action.Offers selection index := by
  have houts := h.map_outputs?
  cases ho with
  | named houtputs hindex =>
    rw [houtputs] at houts
    obtain ⟨outs, heq, hnames⟩ := Option.map_eq_some_iff.1 houts
    obtain ⟨d, hd, hname⟩ := exists_of_findIdx? hindex
    obtain ⟨pin, hpin, hraw⟩ := getElem?_of_map_eq hnames hd
    exact .named heq hpin (hraw.trans (of_decide_eq_true hname))
  | only houtputs =>
    rw [houtputs] at houts
    obtain ⟨outs, heq, hnames⟩ := Option.map_eq_some_iff.1 houts
    obtain ⟨pin, rfl⟩ := List.length_eq_one_iff.1 (by simpa using congrArg List.length hnames)
    exact .only heq
  | value houtputs =>
    rw [houtputs] at houts
    exact .value (Option.map_eq_none_iff.1 houts)

theorem eq_input {name type : String} {source : Option Definition.ValueRef}
    (hd : d = .parameter .input name type source) :
    ∃ resolved, action = .parameter .input ⟨name, ident⟩ resolved none := by
  subst hd
  cases h with
  | input => exact ⟨_, rfl⟩

theorem not_input (hd : ∀ name type source, d ≠ .parameter .input name type source) (name : Name)
    (type : ParameterType) (source : Option Outlet) :
    action ≠ .parameter .input name type source := by
  cases h with
  | input => exact absurd rfl (hd _ _ _)
  | _ => simp

end Action.Resolves

/-! ### Activities -/

/-- An activity with the name of its definition, and with its nodes and edges resolved. -/
structure Activity.Realizes (s : ActivityScope) (a : Activity) : Prop where
  name : a.name.raw = s.activity.name
  nodes : List.Forall₂ (Node.Realizes s) s.activity.nodes a.nodes
  edges : List.Forall₂ (fun e edge => s.activity.Locates e.source edge.1 ∧
    s.activity.Locates e.target edge.2) s.activity.edges a.edges

namespace Activity.Realizes

variable {s : ActivityScope} {a : Activity} (h : a.Realizes s)

include h

/-- Nodes stay in their places. -/
theorem hasNode {id : String} {index : Nat} (hl : s.activity.Locates id index) :
    a.HasNode id index := by
  obtain ⟨d, hd, hid⟩ := exists_of_findIdx? hl
  obtain ⟨n, hn, hrealizes⟩ := getElem?_of_forall₂ h.nodes hd
  exact ⟨n, hn, hrealizes.id.trans (of_decide_eq_true hid)⟩

theorem denotes {ref : Definition.ValueRef} {o : Outlet} (hl : s.activity.Leads ref o) :
    a.Denotes ref o := by
  obtain ⟨n, hn, hid⟩ := h.hasNode hl.node
  obtain ⟨d, hd, hoffers⟩ := hl.pin
  obtain ⟨n', hn', hrealizes⟩ := getElem?_of_forall₂ h.nodes hd
  cases hn.symm.trans hn'
  obtain ⟨idents, haction⟩ := hrealizes.action
  exact ⟨n, hn, hid, haction.offers hoffers⟩

theorem hasInput {name : String} {index : Nat}
    (hl : s.activity.nodes.findIdx? (Definition.Node.isInput name) = some index) :
    a.HasInput name index := by
  obtain ⟨d, hd, hinput⟩ := exists_of_findIdx? hl
  obtain ⟨n, hn, hrealizes⟩ := getElem?_of_forall₂ h.nodes hd
  obtain ⟨idents, haction⟩ := hrealizes.action
  unfold Definition.Node.isInput at hinput
  split at hinput
  · rename_i hd
    obtain ⟨type, heq⟩ := haction.eq_input hd
    exact ⟨n, _, type, none, hn, heq, of_decide_eq_true hinput⟩
  · cases hinput

end Activity.Realizes

theorem Activity.parameters_eq_nil {a : Activity} (h : a.firstInput? = none) :
    a.parameters .input = [] := by
  refine List.filter_eq_nil_iff.2 fun i hi hp => ?_
  have hlt := List.mem_range.1 hi
  rw [isParameter, action, List.getElem?_eq_getElem hlt, Option.map_some, Option.getD_some] at hp
  split at hp
  · rename_i haction
    cases of_decide_eq_true hp
    exact firstInput?_eq_none.1 h _ (List.getElem_mem hlt) _ _ _ haction
  · cases hp

theorem ActivitiesStages.realizes {records : List RecordType} {d : Definition.Component}
    {activities : List Activity} {t t' : NameTable} (S : ActivitiesStages d records t activities t') :
    List.Forall₂ (fun da (a : Activity) => a.Realizes ⟨records, d, da, d.name ++ "::" ++ da.name⟩)
      d.activities activities := by
  have hnames : List.Forall₂ (fun da a => a.name.raw = da.name) d.activities activities := by
    have hraws := S.listed.raws
    rw [List.map_map, eq_comm, ← List.forall₂_eq_eq_eq, List.forall₂_map_left_iff,
      List.forall₂_map_right_iff] at hraws
    exact hraws.imp fun _ _ h => h.symm
  refine hnames.mp (fun da a hname hrun => ?_) S.runs
  obtain ⟨_, _, _, ⟨A⟩⟩ := hrun
  exact ⟨hname, A.nodes, A.edges⟩

theorem ComponentStages.realizes_activities {records : List RecordType} {d : Definition.Component}
    {c : Component} {t t' : NameTable} (S : ComponentStages records d t c t') :
    List.Forall₂ (fun da (a : Activity) => a.Realizes ⟨records, d, da, d.name ++ "::" ++ da.name⟩)
      d.activities c.activities := by
  obtain ⟨A⟩ := exists_activitiesStages S.activities_eq
  exact A.realizes

/-! ### Actions -/

/-- An input of an opaque action has the source that is named for it. -/
structure Pin.Linked (a : Activity) (d : Definition.Pin) (pin : Pin) : Prop where
  name : pin.name.raw = d.name
  source : ∃ ref o, d.source = some ref ∧ pin.source = some o ∧ a.Denotes ref o

/-- An argument goes to the input of the callee that is named for it. -/
structure Argument.Linked (a callee : Activity) (d : Definition.Argument) (argument : Argument) :
    Prop where
  parameter : callee.HasInput d.parameter argument.parameter
  source : a.Denotes d.source argument.source

/-- A type is the record type of a name, or a primitive one. -/
inductive ParameterType.Linked (records : List RecordType) (name : String) : ParameterType → Prop
  | record {index : Nat} {r : RecordType} : records[index]? = some r → r.name.raw = name →
      Linked records name (.record index)
  | scalar {s : Scalar} : Scalar.ofTypeName? name = some s → Linked records name (.scalar s)

/-- An action of `a` refers to what is named in its definition. -/
inductive Action.Linked (records : List RecordType) (activities : List Activity) (a : Activity) :
    Definition.Action → Action → Prop
  | opaqueAction {body : String} {language : Option String} {inputs outputs : List Definition.Pin}
      {ins outs : List Pin} : List.Forall₂ (Pin.Linked a) inputs ins →
      outs.map (·.name.raw) = outputs.map (·.name) →
      Linked records activities a (.opaqueAction body language inputs outputs)
        (.opaqueAction body language ins outs)
  | call {target : String} {index : Nat} {callee : Activity} {arguments : List Definition.Argument}
      {resolved : List Argument} : activities[index]? = some callee → callee.name.raw = target →
      List.Forall₂ (Argument.Linked a callee) arguments resolved →
      Linked records activities a (.call target arguments) (.call index resolved)
  | read {object : Definition.ValueRef} {feature : String} {o : Outlet} : a.Denotes object o →
      Linked records activities a (.read object feature) (.read o feature)
  | write {object value : Definition.ValueRef} {feature : String} {o v : Outlet} :
      a.Denotes object o → a.Denotes value v →
      Linked records activities a (.write object feature value) (.write o feature v)
  | fork {branches : List String} {nodes : List Nat} : List.Forall₂ a.HasNode branches nodes →
      Linked records activities a (.fork branches) (.fork nodes)
  | join {inputs : List String} {nodes : List Nat} : List.Forall₂ a.HasNode inputs nodes →
      Linked records activities a (.join inputs) (.join nodes)
  | create {recordType : String} {index : Nat} {r : RecordType} : records[index]? = some r →
      r.name.raw = recordType → Linked records activities a (.create recordType) (.create index)
  | input {name ident type : String} {source : Option Definition.ValueRef}
      {resolved : ParameterType} : resolved.Linked records type →
      Linked records activities a (.parameter .input name type source)
        (.parameter .input ⟨name, ident⟩ resolved none)
  | output {name ident type : String} {source : Option Definition.ValueRef}
      {resolved : ParameterType} {o : Option Outlet} : resolved.Linked records type →
      Option.Rel a.Denotes source o →
      Linked records activities a (.parameter .output name type source)
        (.parameter .output ⟨name, ident⟩ resolved o)
  | literal {value : Value} : Linked records activities a (.literal value) (.literal value)

structure Node.Linked (records : List RecordType) (activities : List Activity) (a : Activity)
    (d : Definition.Node) (n : Node) : Prop where
  id : n.id = d.id
  action : n.action.Linked records activities a d.action

structure Activity.Linked (records : List RecordType) (activities : List Activity)
    (d : Definition.Activity) (a : Activity) : Prop where
  name : a.name.raw = d.name
  nodes : List.Forall₂ (Node.Linked records activities a) d.nodes a.nodes
  edges : List.Forall₂ (fun e edge => a.HasNode e.source edge.1 ∧ a.HasNode e.target edge.2)
    d.edges a.edges

theorem ParameterType.Resolves.linked {records : List RecordType} {name : String}
    {type : ParameterType} (h : type.Resolves records name) : type.Linked records name := by
  cases h with
  | record hindex =>
    obtain ⟨r, hr, hname⟩ := exists_of_findIdx? hindex
    exact .record hr (of_decide_eq_true hname)
  | scalar _ hs => exact .scalar hs

/-- Where all activities of a component are resolved, all their references are links. -/
theorem Action.Resolves.linked {s : ActivityScope} {a : Activity} {activities : List Activity}
    {ident : String} {idents : List (String × String)} {d : Definition.Action} {action : Action}
    (h : action.Resolves s ident idents d) (ha : a.Realizes s)
    (hactivities : List.Forall₂ (fun da (a : Activity) =>
      a.Realizes ⟨s.records, s.component, da, s.component.name ++ "::" ++ da.name⟩)
      s.component.activities activities) : action.Linked s.records activities a d := by
  cases h with
  | opaqueAction _ _ hpins =>
    refine .opaqueAction (hpins.imp ?_) (by simp [pinName])
    rintro d pin ⟨ref, o, href, ho, rfl⟩
    exact ⟨rfl, ref, o, href, rfl, ha.denotes ho⟩
  | call hindex hcallee hargs =>
    obtain ⟨callee, hget, hrealizes⟩ := getElem?_of_forall₂ hactivities hcallee
    obtain ⟨callee', hcallee', hname⟩ := exists_of_findIdx? hindex
    cases hcallee.symm.trans hcallee'
    refine .call hget (hrealizes.name.trans (of_decide_eq_true hname)) (hargs.imp ?_)
    exact fun _ _ harg => ⟨hrealizes.hasInput harg.parameter, ha.denotes harg.source⟩
  | read ho => exact .read (ha.denotes ho)
  | write ho hv => exact .write (ha.denotes ho) (ha.denotes hv)
  | fork hnodes => exact .fork (hnodes.imp fun _ _ hn => ha.hasNode hn)
  | join hnodes => exact .join (hnodes.imp fun _ _ hn => ha.hasNode hn)
  | create hindex =>
    obtain ⟨r, hr, hname⟩ := exists_of_findIdx? hindex
    exact .create hr (of_decide_eq_true hname)
  | input htype => exact .input htype.linked
  | output htype hsource =>
    refine .output htype.linked ?_
    cases hsource with
    | none => exact .none
    | some ho => exact .some (ha.denotes ho)
  | literal => exact .literal

theorem ComponentStages.linked_activities {records : List RecordType} {d : Definition.Component}
    {c : Component} {t t' : NameTable} (S : ComponentStages records d t c t') :
    List.Forall₂ (Activity.Linked records c.activities) d.activities c.activities := by
  refine S.realizes_activities.imp fun da a ha => ⟨ha.name, ha.nodes.imp ?_, ha.edges.imp ?_⟩
  · rintro dn n ⟨hid, idents, haction⟩
    exact ⟨hid, haction.linked ha S.realizes_activities⟩
  · rintro e edge ⟨hsource, htarget⟩
    exact ⟨ha.hasNode hsource, ha.hasNode htarget⟩

/-! ### State machines -/

/-- The state at a position has a name. -/
def Component.HasState (c : Component) (name : String) (index : Nat) : Prop :=
  ∃ s, c.states[index]? = some s ∧ s.name.raw = name

/-- A state runs the activities that are named for it, and these take no input. -/
structure State.Linked (activities : List Activity) (d : Definition.State) (s : State) : Prop where
  name : s.name.raw = d.name
  activities : List.Forall₂ (fun name index => ∃ a, activities[index]? = some a ∧
    a.name.raw = name ∧ a.parameters .input = []) d.activities s.activities

structure Transition.Linked (c : Component) (d : Definition.Transition) (t : Transition) : Prop where
  source : c.HasState d.source t.source
  target : c.HasState d.target t.target
  trigger : Command.Resolves c.commands d.trigger t.trigger

structure Component.Linked (records : List RecordType) (d : Definition.Component) (c : Component) :
    Prop where
  name : c.name.raw = d.name
  nonempty : c.states ≠ []
  states : List.Forall₂ (State.Linked c.activities) d.machine.states c.states
  initial : c.HasState d.machine.initial c.initial
  transitions : List.Forall₂ (Transition.Linked c) d.machine.transitions c.transitions
  /-- No command of a signal is idle. -/
  carried : ∀ k command signal, c.commands[k]? = some command → command.kind = .trigger signal →
    ∃ t ∈ c.transitions, t.trigger = some k
  activities : List.Forall₂ (Activity.Linked records c.activities) d.activities c.activities

theorem linked_of_buildState {d : Definition.Component} {activities : List Activity} {path : String}
    {ds : Definition.State} {s : State} {t t' : NameTable}
    (hactivities : List.Forall₂ (fun da a => a.name.raw = da.name) d.activities activities)
    (h : buildState d activities path ds t = .ok (s, t')) : s.Linked activities ds := by
  obtain ⟨indices, _, hlift, h⟩ := Naming.bind_eq_ok.1 h
  obtain ⟨hindices, rfl⟩ := Naming.lift_eq_ok.1 hlift
  obtain ⟨ident, t₁, hident, h⟩ := Naming.bind_eq_ok.1 h
  obtain ⟨rfl, rfl⟩ := Naming.pure_eq_ok.1 h
  refine ⟨rfl, ((mapM_eq_ok_iff fun _ _ => stateActivity_eq_ok).1 hindices).imp ?_⟩
  rintro name index ⟨hindex, hinput⟩
  obtain ⟨da, hda, hname⟩ := exists_of_findIdx? hindex
  obtain ⟨a, ha, hraw⟩ := getElem?_of_forall₂ hactivities hda
  rw [ha, Option.bind_some] at hinput
  exact ⟨a, ha, hraw.trans (of_decide_eq_true hname), Activity.parameters_eq_nil hinput⟩

/-- A new command is that of the transition at hand. -/
theorem buildTrigger_carries {scope : String} {commands commands' : List Command}
    {signal : Option String} {trigger : Option Nat} {t t' : NameTable}
    (h : buildTrigger scope commands signal t = .ok ((trigger, commands'), t')) {k : Nat}
    (hk : k < commands'.length) : k < commands.length ∨ trigger = some k := by
  cases signal with
  | none =>
    obtain ⟨heq, -⟩ := Naming.pure_eq_ok.1 h
    cases heq
    exact .inl hk
  | some signal =>
    obtain ⟨ident, t₁, -, h⟩ := Naming.bind_eq_ok.1 h
    obtain ⟨heq, -⟩ := Naming.pure_eq_ok.1 h
    cases heq
    cases hindex : commands.findIdx? (·.kind = .trigger signal) with
    | some index =>
      simp only [hindex] at hk
      exact .inl hk
    | none =>
      simp only [hindex, List.length_append, List.length_singleton] at hk ⊢
      by_cases hlt : k < commands.length
      · exact .inl hlt
      · exact .inr (congrArg some (by omega))

theorem TransitionRun.carries {d : Definition.Component} {attributes : List Field} {path : String}
    {commands commands' : List Command} {ds : List Definition.Transition} {ts : List Transition}
    {t t' : NameTable} (h : TransitionRun d attributes path commands t ds ts commands' t') {k : Nat}
    (hk : k < commands'.length) : k < commands.length ∨ ∃ t ∈ ts, t.trigger = some k := by
  induction h with
  | nil => exact .inl hk
  | cons _ _ _ htrigger _ ih =>
    obtain hk | ⟨t, ht, hcarried⟩ := ih hk
    · refine (buildTrigger_carries htrigger hk).imp_right fun heq => ?_
      exact ⟨_, List.mem_cons_self, heq⟩
    · exact .inr ⟨t, List.mem_cons_of_mem _ ht, hcarried⟩

theorem Component.Realizes.hasState {d : Definition.Component} {c : Component} (h : c.Realizes d)
    {name : String} {index : Nat} (hl : d.machine.Locates name index) : c.HasState name index := by
  obtain ⟨ds, hds, hname⟩ := exists_of_findIdx? hl
  obtain ⟨s, hs, hraw⟩ := getElem?_of_map_eq h.states hds
  exact ⟨s, hs, hraw.trans (of_decide_eq_true hname)⟩

theorem ComponentRun.linked {records : List RecordType} {d : Definition.Component} {c : Component}
    {t' : NameTable} (R : ComponentRun records t' d c) : c.Linked records d := by
  have hrealizes := R.realizes
  obtain ⟨-, hlifecycle, htransitions⟩ := R.commands_named
  refine ⟨R.stages.raw_eq, ?_, ?_, hrealizes.hasState hrealizes.initial, htransitions.imp ?_, ?_,
    R.stages.linked_activities⟩
  · intro hnil
    exact R.stages.nonempty (List.length_eq_zero_iff.1 (by rw [← hrealizes.length_states, hnil]; rfl))
  · refine (Naming.forall₂_mapM R.stages.states_eq).imp fun ds s ⟨_, _, hs⟩ => ?_
    exact linked_of_buildState (R.stages.realizes_activities.imp fun _ _ ha => ha.name) hs
  · exact fun _ _ ht => ⟨hrealizes.hasState ht.source, hrealizes.hasState ht.target, ht.trigger⟩
  · intro k command signal hk hkind
    obtain ⟨hlt, hget⟩ := List.getElem?_eq_some_iff.1 hk
    refine (R.stages.transitionRun.carries hlt).resolve_left fun hlife => ?_
    -- The commands before the first transition start and stop.
    obtain ⟨more, hmore⟩ := hlifecycle
    rw [← hmore, List.getElem?_append_left hlife] at hk
    have hmem := List.mem_of_getElem? hk
    simp only [lifecycleCommands, List.mem_cons, List.not_mem_nil, or_false] at hmem
    obtain rfl | rfl := hmem <;> cases hkind

/-! ### Models -/

structure Model.Linked (d : Definition) (m : Model) : Prop where
  records : m.recordTypes.map (·.name.raw) = d.recordTypes.map (·.name)
  components : List.Forall₂ (Component.Linked m.recordTypes) d.components m.components

theorem ModelStages.linked {d : Definition} {m : Model} (S : ModelStages d m) : m.Linked d := by
  refine ⟨?_, S.componentRuns.imp fun _ _ ⟨R⟩ => R.linked⟩
  have hraws := S.records.raws
  rwa [List.map_map] at hraws

end FlightGen
