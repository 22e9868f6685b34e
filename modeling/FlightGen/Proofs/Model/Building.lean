import FlightGen.Proofs.Model.Resolution
import FlightGen.Proofs.Naming.Effect

/-! The stages of building. What succeeds as a whole succeeds stage by stage, with one name
table after each of them; and each stage names only in scopes of its own. -/

namespace FlightGen

open Naming (Within)

/-! ### Where names are given -/

section Within

variable {P : String → NameKind → Prop}

theorem within_buildField {scope : String} (h : P scope .field) (d : Definition.Field) :
    (buildField scope d).Within P :=
  (Within.assign d.name h).bind fun _ => .pure _

theorem within_buildFields {scope : String} (h : P scope .field) (ds : List Definition.Field) :
    (buildFields scope ds).Within P :=
  (Within.lift _).bind fun _ => .mapM (within_buildField h) ds

theorem within_buildRecordType (hrecord : P "" .recordType)
    (hfield : ∀ name, P ("record " ++ name) .field) (d : Definition.RecordType) :
    (buildRecordType d).Within P :=
  (Within.assign d.name hrecord).bind fun _ =>
    (within_buildFields (hfield _) d.fields).bind fun _ => .pure _

theorem within_namePins (h : ∀ scope, P scope .localVar) (path : String) (n : Definition.Node) :
    (namePins path n).Within P := by
  unfold namePins
  split
  · exact .mapM (fun _ => (Within.assign _ (h _)).bind fun _ => .pure _) _
  · exact .pure _

theorem within_buildNode {s : ActivityScope} (h : P s.path .localVar) (n : Definition.Node)
    (idents : List (String × String)) : (s.buildNode n idents).Within P :=
  (Within.assignFresh _ h).bind fun _ => (Within.lift _).bind fun _ => .pure _

theorem within_buildActivity (h : ∀ scope, P scope .localVar) (s : ActivityScope)
    (classNames : List String) (name : Name) : (buildActivity s classNames name).Within P := by
  refine (Within.lift _).bind fun _ => (Within.reserveAll _ (h _)).bind fun _ => ?_
  refine (Within.mapM (within_namePins h _) _).bind fun _ => ?_
  refine (Within.reserveAll _ (h _)).bind fun _ => ?_
  refine Within.bind (.mapM (fun p => ?_) _) fun _ => ?_
  · exact within_buildNode (h _) p.1 p.2
  · exact (Within.lift _).bind fun _ => (Within.lift _).bind fun _ => .pure _

theorem within_buildActivityName {scope : String} (h : P scope .activity) (a : Definition.Activity) :
    (buildActivityName scope a).Within P :=
  (Within.assign a.name h).bind fun _ => .pure _

theorem within_buildActivities {d : Definition.Component} (hactivity : P d.name .activity)
    (hlocal : ∀ scope, P scope .localVar) (records : List RecordType) :
    (buildActivities d records).Within P := by
  refine (Within.reserveAll _ hactivity).bind fun _ => ?_
  refine (Within.mapM (within_buildActivityName hactivity) _).bind fun _ => ?_
  refine .mapM (fun p => ?_) _
  exact within_buildActivity hlocal _ _ _

theorem within_buildState {path : String} (h : P path .state) (d : Definition.Component)
    (activities : List Activity) (s : Definition.State) :
    (buildState d activities path s).Within P :=
  (Within.lift _).bind fun _ => (Within.assign s.name h).bind fun _ => .pure _

theorem within_buildTrigger {scope : String} (h : P scope .command) (commands : List Command)
    (signal : Option String) : (buildTrigger scope commands signal).Within P := by
  cases signal with
  | none => exact .pure _
  | some signal => exact (Within.assign signal h).bind fun _ => .pure _

theorem within_buildTransitions {d : Definition.Component} (h : P d.name .command)
    (attributes : List Field) (path : String) (commands : List Command)
    (ts : List Definition.Transition) :
    (buildTransitions d attributes path commands ts).Within P := by
  induction ts generalizing commands with
  | nil => exact .pure _
  | cons t ts ih =>
    refine (Within.lift _).bind fun _ => (Within.lift _).bind fun _ => ?_
    refine (Within.lift _).bind fun _ => (within_buildTrigger h _ _).bind fun _ => ?_
    exact (ih _).bind fun _ => .pure _

/-- A component names its activities, commands and attributes in its own scope. -/
theorem within_buildComponent {d : Definition.Component} (hactivity : P d.name .activity)
    (hcommand : P d.name .command) (hfield : P d.name .field)
    (hother : ∀ scope kind, kind ≠ .activity → kind ≠ .command → kind ≠ .field → P scope kind)
    (records : List RecordType) : (buildComponent records d).Within P := by
  have hlocal : ∀ scope, P scope .localVar := fun _ => hother _ _ (by simp) (by simp) (by simp)
  refine (Within.assign _ (hother _ _ (by simp) (by simp) (by simp))).bind fun _ => ?_
  refine (Within.reserveAll _ hfield).bind fun _ => ?_
  refine (within_buildFields hfield _).bind fun attributes => ?_
  dsimp only
  split
  · exact .fail_bind _ _
  refine (Within.lift _).bind fun _ => (Within.lift _).bind fun _ => ?_
  refine (within_buildActivities hactivity hlocal _).bind fun activities => ?_
  refine (Within.mapM (within_buildState (hother _ _ (by simp) (by simp) (by simp)) _ _) _).bind
    fun _ => ?_
  refine (Within.lift _).bind fun _ => (Within.reserveAll _ hcommand).bind fun _ => ?_
  refine (within_buildTransitions hcommand _ _ _ _).bind fun _ => ?_
  exact (Within.assign _ (hother _ _ (by simp) (by simp) (by simp))).bind fun _ => .pure _

end Within

/-! ### Activities -/

/-- How an activity comes about: the identifiers of its pins, and the tables in between. -/
structure ActivityStages (s : ActivityScope) (classNames : List String) (name : Name)
    (t : NameTable) (a : Activity) (t' : NameTable) where
  afterClass : NameTable
  afterPins : NameTable
  beforeNodes : NameTable
  pins : List (List (String × String))
  name_eq : a.name = name
  ids : (s.activity.nodes.map (·.id)).Nodup
  class_eq : Naming.reserveAll s.path .localVar classNames t = .ok ((), afterClass)
  pins_eq : s.activity.nodes.mapM (namePins s.path) afterClass = .ok (pins, afterPins)
  reserve_eq : Naming.reserveAll s.path .localVar (pins.flatten.map (·.2)) afterPins =
    .ok ((), beforeNodes)
  nodes_eq : (s.activity.nodes.zip pins).mapM (fun p => s.buildNode p.1 p.2) beforeNodes =
    .ok (a.nodes, t')
  parameterNames : s.activity.parameterNames.Nodup
  edges_eq : s.buildEdges = .ok a.edges

theorem exists_activityStages {s : ActivityScope} {classNames : List String} {name : Name}
    {t t' : NameTable} {a : Activity} (h : buildActivity s classNames name t = .ok (a, t')) :
    Nonempty (ActivityStages s classNames name t a t') := by
  obtain ⟨_, _, hlift, h⟩ := Naming.bind_eq_ok.1 h
  obtain ⟨hids, rfl⟩ := Naming.lift_eq_ok.1 hlift
  obtain ⟨_, afterClass, hclass, h⟩ := Naming.bind_eq_ok.1 h
  obtain ⟨pins, afterPins, hpins, h⟩ := Naming.bind_eq_ok.1 h
  obtain ⟨_, beforeNodes, hreserve, h⟩ := Naming.bind_eq_ok.1 h
  obtain ⟨nodes, afterNodes, hnodes, h⟩ := Naming.bind_eq_ok.1 h
  obtain ⟨_, _, hlift, h⟩ := Naming.bind_eq_ok.1 h
  obtain ⟨hparameters, rfl⟩ := Naming.lift_eq_ok.1 hlift
  obtain ⟨edges, _, hlift, h⟩ := Naming.bind_eq_ok.1 h
  obtain ⟨hedges, rfl⟩ := Naming.lift_eq_ok.1 hlift
  obtain ⟨rfl, rfl⟩ := Naming.pure_eq_ok.1 h
  exact ⟨⟨afterClass, afterPins, beforeNodes, pins, rfl, checkUnique_eq_ok.1 hids, hclass, hpins,
    hreserve, hnodes, checkUnique_eq_ok.1 hparameters, hedges⟩⟩

/-- How the activities of a component come about: all names, then all nodes. -/
structure ActivitiesStages (d : Definition.Component) (records : List RecordType)
    (t : NameTable) (activities : List Activity) (t' : NameTable) where
  afterMethods : NameTable
  afterNames : NameTable
  names : List Name
  methods_eq : Naming.reserveAll d.name .activity (fixedMethods ++
    (List.range (d.machine.transitions.countP (·.guard.isSome))).map guardMethod) t =
      .ok ((), afterMethods)
  names_eq : d.activities.mapM (buildActivityName d.name) afterMethods = .ok (names, afterNames)
  activities_eq : (d.activities.zip names).mapM (fun p =>
    buildActivity ⟨records, d, p.1, d.name ++ "::" ++ p.1.name⟩
      (classScopeNames (d.machine.transitions.countP (·.guard.isSome)) (names.map (·.ident))
        (records.map (·.name.ident))) p.2) afterNames = .ok (activities, t')

theorem exists_activitiesStages {d : Definition.Component} {records : List RecordType}
    {t t' : NameTable} {activities : List Activity}
    (h : buildActivities d records t = .ok (activities, t')) :
    Nonempty (ActivitiesStages d records t activities t') := by
  obtain ⟨_, afterMethods, hmethods, h⟩ := Naming.bind_eq_ok.1 h
  obtain ⟨names, afterNames, hnames, h⟩ := Naming.bind_eq_ok.1 h
  exact ⟨⟨afterMethods, afterNames, names, hmethods, hnames, h⟩⟩

/-! ### Transitions -/

/-- How transitions come about one after the other, with the commands found and the tables. -/
inductive TransitionRun (d : Definition.Component) (attributes : List Field) (path : String) :
    List Command → NameTable → List Definition.Transition → List Transition → List Command →
      NameTable → Prop
  | nil {commands : List Command} {t : NameTable} :
      TransitionRun d attributes path commands t [] [] commands t
  | cons {commands commands₁ commands' : List Command} {t t₁ t' : NameTable} {source target : Nat}
      {guard : Option Guard} {trigger : Option Nat} {transition : Definition.Transition}
      {ds : List Definition.Transition} {ts : List Transition} :
      d.machine.Locates transition.source source → d.machine.Locates transition.target target →
      resolveGuard? (path ++ "::transition '" ++ transition.source ++ " -> " ++ transition.target ++ "'")
        attributes transition.guard = .ok guard →
      buildTrigger d.name commands transition.trigger t = .ok ((trigger, commands₁), t₁) →
      TransitionRun d attributes path commands₁ t₁ ds ts commands' t' →
      TransitionRun d attributes path commands t (transition :: ds)
        (⟨source, target, guard, trigger⟩ :: ts) commands' t'

theorem transitionRun_of_build {d : Definition.Component} {attributes : List Field} {path : String}
    {commands commands' : List Command} {ds : List Definition.Transition} {ts : List Transition}
    {t t' : NameTable}
    (h : buildTransitions d attributes path commands ds t = .ok ((ts, commands'), t')) :
    TransitionRun d attributes path commands t ds ts commands' t' := by
  induction ds generalizing commands t ts with
  | nil =>
    obtain ⟨heq, rfl⟩ := Naming.pure_eq_ok.1 h
    cases heq
    exact .nil
  | cons transition ds ih =>
    obtain ⟨source, _, hlift, h⟩ := Naming.bind_eq_ok.1 h
    obtain ⟨hsource, rfl⟩ := Naming.lift_eq_ok.1 hlift
    obtain ⟨target, _, hlift, h⟩ := Naming.bind_eq_ok.1 h
    obtain ⟨htarget, rfl⟩ := Naming.lift_eq_ok.1 hlift
    obtain ⟨guard, _, hlift, h⟩ := Naming.bind_eq_ok.1 h
    obtain ⟨hguard, rfl⟩ := Naming.lift_eq_ok.1 hlift
    obtain ⟨⟨trigger, commands₁⟩, t₁, htrigger, h⟩ := Naming.bind_eq_ok.1 h
    obtain ⟨⟨rest, commands₂⟩, t₂, hrest, h⟩ := Naming.bind_eq_ok.1 h
    obtain ⟨heq, rfl⟩ := Naming.pure_eq_ok.1 h
    cases heq
    exact .cons (found_eq_ok.1 hsource) (found_eq_ok.1 htarget) hguard htrigger (ih hrest)

/-! ### Components -/

/-- How a component comes about, with the tables in between. -/
structure ComponentStages (records : List RecordType) (d : Definition.Component) (t : NameTable)
    (c : Component) (t' : NameTable) where
  afterName : NameTable
  afterMembers : NameTable
  afterAttributes : NameTable
  afterActivities : NameTable
  afterStates : NameTable
  afterLifecycle : NameTable
  afterTransitions : NameTable
  raw_eq : c.name.raw = d.name
  machineRaw_eq : c.machine.raw = d.machine.name
  name_eq : t.assign "" .component d.name = .ok (c.name.ident, afterName)
  members_eq : Naming.reserveAll d.name .field fixedMembers afterName = .ok ((), afterMembers)
  attributes_eq : buildFields d.name d.attributes afterMembers = .ok (c.attributes, afterAttributes)
  nonempty : d.machine.states ≠ []
  stateNames : (d.machine.states.map (·.name)).Nodup
  activityNames : (d.activities.map (·.name)).Nodup
  activities_eq : buildActivities d records afterAttributes = .ok (c.activities, afterActivities)
  states_eq : d.machine.states.mapM (buildState d c.activities (d.name ++ "::" ++ d.machine.name))
    afterActivities = .ok (c.states, afterStates)
  initial_eq : d.machine.Locates d.machine.initial c.initial
  lifecycle_eq : Naming.reserveAll d.name .command (lifecycleCommands.map (·.mnemonic)) afterStates =
    .ok ((), afterLifecycle)
  transitions_eq : buildTransitions d c.attributes (d.name ++ "::" ++ d.machine.name)
    lifecycleCommands d.machine.transitions afterLifecycle =
      .ok ((c.transitions, c.commands), afterTransitions)
  machine_eq : afterTransitions.assign d.name .component d.machine.name = .ok (c.machine.ident, t')

theorem exists_componentStages {records : List RecordType} {d : Definition.Component} {c : Component}
    {t t' : NameTable} (h : buildComponent records d t = .ok (c, t')) :
    Nonempty (ComponentStages records d t c t') := by
  obtain ⟨ident, t₁, hident, h⟩ := Naming.bind_eq_ok.1 h
  obtain ⟨_, t₂, hmembers, h⟩ := Naming.bind_eq_ok.1 h
  obtain ⟨attributes, t₃, hattributes, h⟩ := Naming.bind_eq_ok.1 h
  dsimp only at h
  split at h
  · obtain ⟨_, _, hfail, -⟩ := Naming.bind_eq_ok.1 h
    cases hfail
  rename_i hnonempty
  obtain ⟨_, _, hlift, h⟩ := Naming.bind_eq_ok.1 h
  obtain ⟨hstateNames, rfl⟩ := Naming.lift_eq_ok.1 hlift
  obtain ⟨_, _, hlift, h⟩ := Naming.bind_eq_ok.1 h
  obtain ⟨hactivityNames, rfl⟩ := Naming.lift_eq_ok.1 hlift
  obtain ⟨activities, t₄, hactivities, h⟩ := Naming.bind_eq_ok.1 h
  obtain ⟨states, t₅, hstates, h⟩ := Naming.bind_eq_ok.1 h
  obtain ⟨initial, _, hlift, h⟩ := Naming.bind_eq_ok.1 h
  obtain ⟨hinitial, rfl⟩ := Naming.lift_eq_ok.1 hlift
  obtain ⟨_, t₆, hlifecycle, h⟩ := Naming.bind_eq_ok.1 h
  obtain ⟨⟨transitions, commands⟩, t₇, htransitions, h⟩ := Naming.bind_eq_ok.1 h
  obtain ⟨machine, t₈, hmachine, h⟩ := Naming.bind_eq_ok.1 h
  obtain ⟨rfl, rfl⟩ := Naming.pure_eq_ok.1 h
  exact ⟨⟨t₁, t₂, t₃, t₄, t₅, t₆, t₇, rfl, rfl, hident, hmembers, hattributes,
    by simpa using hnonempty, checkUnique_eq_ok.1 hstateNames, checkUnique_eq_ok.1 hactivityNames,
    hactivities, hstates, found_eq_ok.1 hinitial, hlifecycle, htransitions, hmachine⟩⟩

namespace ComponentStages

variable {records : List RecordType} {d : Definition.Component} {c : Component} {t t' : NameTable}
  (S : ComponentStages records d t c t')

include S

theorem transitionRun : TransitionRun d c.attributes (d.name ++ "::" ++ d.machine.name)
    lifecycleCommands S.afterLifecycle d.machine.transitions c.transitions c.commands
      S.afterTransitions :=
  transitionRun_of_build S.transitions_eq

/-! From each table on, the rest of the stages lead to the last one. -/

theorem afterTransitions_reaches : S.afterTransitions.Reaches t' :=
  Within.assign d.machine.name trivial _ _ _ S.machine_eq

theorem afterLifecycle_reaches : S.afterLifecycle.Reaches t' :=
  (within_buildTransitions trivial _ _ _ _ _ _ _ S.transitions_eq).trans S.afterTransitions_reaches

theorem afterStates_reaches : S.afterStates.Reaches t' :=
  (Within.reserveAll _ trivial _ _ _ S.lifecycle_eq).trans S.afterLifecycle_reaches

theorem afterActivities_reaches : S.afterActivities.Reaches t' :=
  (Within.mapM (within_buildState trivial _ _) _ _ _ _ S.states_eq).trans S.afterStates_reaches

theorem afterAttributes_reaches : S.afterAttributes.Reaches t' :=
  (within_buildActivities trivial (fun _ => trivial) _ _ _ _ S.activities_eq).trans
    S.afterActivities_reaches

theorem afterName_reaches : S.afterName.Reaches t' :=
  (Within.reserveAll _ trivial _ _ _ S.members_eq).trans <|
    (within_buildFields trivial _ _ _ _ S.attributes_eq).trans S.afterAttributes_reaches

theorem reaches : t.Reaches t' :=
  (Within.assign d.name trivial _ _ _ S.name_eq).trans S.afterName_reaches

/-! Activities and commands are named in late stages only. -/

theorem trail_afterAttributes {P : String → NameKind → Prop}
    (h : ∀ scope kind, kind = .component ∨ kind = .field → P scope kind) :
    t.Trail P S.afterAttributes :=
  (Within.assign d.name (h _ _ (.inl rfl)) _ _ _ S.name_eq).trans <|
    (Within.reserveAll _ (h _ _ (.inr rfl)) _ _ _ S.members_eq).trans <|
    within_buildFields (h _ _ (.inr rfl)) _ _ _ _ S.attributes_eq

theorem names_afterAttributes :
    S.afterAttributes.names d.name .activity = t.names d.name .activity :=
  (S.trail_afterAttributes (P := fun _ kind => kind ≠ .activity) (by grind)).names_eq (by simp)

theorem names_afterStates : S.afterStates.names d.name .command = t.names d.name .command := by
  have hactivities := within_buildActivities (P := fun _ kind => kind ≠ .command) (by simp)
    (by simp) _ _ _ _ S.activities_eq
  have hstates := Within.mapM (within_buildState (P := fun _ kind => kind ≠ .command) (by simp) _ _)
    _ _ _ _ S.states_eq
  have htrail := (S.trail_afterAttributes (by grind)).trans (hactivities.trans hstates)
  exact NameTable.Trail.names_eq htrail (by simp)

end ComponentStages

/-- How a component comes about within a model. Nothing in its own scope has been named before,
unless this is also the scope of a record type, and `t'` is the last table of all. -/
structure ComponentRun (records : List RecordType) (t' : NameTable) (d : Definition.Component)
    (c : Component) where
  before : NameTable
  after : NameTable
  stages : ComponentStages records d before c after
  valid : before.Valid
  rendered : before.Rendered
  activities : before.names d.name .activity = {}
  commands : before.names d.name .command = {}
  fields : (∀ name, d.name ≠ "record " ++ name) → before.names d.name .field = {}
  onward : after.Reaches t'

/-- Components have different names, so that each one finds its scope untouched. -/
theorem forall₂_componentRun {records : List RecordType} {ds : List Definition.Component}
    {cs : List Component} {t t' : NameTable} (ht : t.Valid) (hrendered : t.Rendered)
    (hnames : (ds.map (·.name)).Nodup)
    (hactivities : ∀ d ∈ ds, t.names d.name .activity = {})
    (hcommands : ∀ d ∈ ds, t.names d.name .command = {})
    (hfields : ∀ d ∈ ds, (∀ name, d.name ≠ "record " ++ name) → t.names d.name .field = {})
    (h : ds.mapM (buildComponent records) t = .ok (cs, t')) :
    List.Forall₂ (fun d c => Nonempty (ComponentRun records t' d c)) ds cs := by
  induction ds generalizing t cs with
  | nil =>
    obtain ⟨rfl, -⟩ := Naming.pure_eq_ok.1 h
    exact .nil
  | cons d ds ih =>
    obtain ⟨c, cs', t₁, hc, hcs, rfl⟩ := Naming.mapM_cons_eq_ok.1 h
    obtain ⟨hname, hnames⟩ := List.nodup_cons.1 hnames
    obtain ⟨hactivity, hactivities⟩ := List.forall_mem_cons.1 hactivities
    obtain ⟨hcommand, hcommands⟩ := List.forall_mem_cons.1 hcommands
    obtain ⟨hfield, hfields⟩ := List.forall_mem_cons.1 hfields
    obtain ⟨S⟩ := exists_componentStages hc
    have hother : ∀ d' ∈ ds, ∀ kind, kind = .activity ∨ kind = .command ∨ kind = .field →
        t₁.names d'.name kind = t.names d'.name kind := by
      intro d' hd' kind hkind
      have hne : d'.name ≠ d.name := fun heq => hname (List.mem_map.2 ⟨d', hd', heq⟩)
      refine (within_buildComponent (P := fun scope kind => scope = d.name ∨
        (kind ≠ .activity ∧ kind ≠ .command ∧ kind ≠ .field)) (.inl rfl) (.inl rfl) (.inl rfl)
          (by grind) records _ _ _ hc).names_eq ?_
      grind
    refine .cons ⟨⟨t, t₁, S, ht, hrendered, hactivity, hcommand, hfield, ?_⟩⟩
      (ih (S.reaches.grows.valid ht) (S.reaches.rendered hrendered) hnames ?_ ?_ ?_ hcs)
    · exact Within.mapM (fun d => within_buildComponent trivial trivial trivial (by simp) _) ds _ _ _
        hcs
    · exact fun d' hd' => (hother d' hd' _ (.inl rfl)).trans (hactivities d' hd')
    · exact fun d' hd' => (hother d' hd' _ (.inr (.inl rfl))).trans (hcommands d' hd')
    · exact fun d' hd' hd => (hother d' hd' _ (.inr (.inr rfl))).trans (hfields d' hd' hd)

/-! ### Models -/

/-- How a model comes about: the record types, then the components. -/
structure ModelStages (d : Definition) (m : Model) where
  afterRecords : NameTable
  afterComponents : NameTable
  recordNames : (d.recordTypes.map (·.name)).Nodup
  componentNames : (d.components.map (·.name)).Nodup
  records_eq : d.recordTypes.mapM buildRecordType {} = .ok (m.recordTypes, afterRecords)
  components_eq : d.components.mapM (buildComponent m.recordTypes) afterRecords =
    .ok (m.components, afterComponents)

theorem exists_modelStages {d : Definition} {m : Model} (h : Model.build d = .ok m) :
    Nonempty (ModelStages d m) := by
  obtain ⟨⟨_, t⟩, h, hm⟩ := bind_eq_ok.1 h
  cases hm
  obtain ⟨_, _, hlift, h⟩ := Naming.bind_eq_ok.1 h
  obtain ⟨hrecordNames, rfl⟩ := Naming.lift_eq_ok.1 hlift
  obtain ⟨_, _, hlift, h⟩ := Naming.bind_eq_ok.1 h
  obtain ⟨hcomponentNames, rfl⟩ := Naming.lift_eq_ok.1 hlift
  obtain ⟨records, t₁, hrecords, h⟩ := Naming.bind_eq_ok.1 h
  obtain ⟨components, t₂, hcomponents, h⟩ := Naming.bind_eq_ok.1 h
  obtain ⟨rfl, rfl⟩ := Naming.pure_eq_ok.1 h
  exact ⟨⟨t₁, t₂, checkUnique_eq_ok.1 hrecordNames, checkUnique_eq_ok.1 hcomponentNames, hrecords,
    hcomponents⟩⟩

namespace ModelStages

variable {d : Definition} {m : Model} (S : ModelStages d m)

include S

theorem trail_afterRecords {P : String → NameKind → Prop} (hrecord : P "" .recordType)
    (hfield : ∀ name, P ("record " ++ name) .field) : NameTable.Trail P {} S.afterRecords :=
  Within.mapM (within_buildRecordType hrecord hfield) _ _ _ _ S.records_eq

theorem valid_afterRecords : S.afterRecords.Valid :=
  (S.trail_afterRecords (P := fun _ _ => True) trivial (fun _ => trivial)).grows.valid
    NameTable.valid_empty

theorem rendered_afterRecords : S.afterRecords.Rendered :=
  (S.trail_afterRecords (P := fun _ _ => True) trivial (fun _ => trivial)).rendered
    NameTable.rendered_empty

theorem componentRuns : List.Forall₂
    (fun d c => Nonempty (ComponentRun m.recordTypes S.afterComponents d c)) d.components
      m.components := by
  have hnone : ∀ scope kind, kind ≠ .recordType → kind ≠ .field →
      S.afterRecords.names scope kind = {} := by
    intro scope kind hrecord hfield
    exact (S.trail_afterRecords (P := fun _ kind => kind = .recordType ∨ kind = .field) (by simp)
      (by simp)).names_eq (by simp [hrecord, hfield])
  have hfields : ∀ d' ∈ d.components, (∀ name, d'.name ≠ "record " ++ name) →
      S.afterRecords.names d'.name .field = {} := by
    intro d' _ hd'
    refine (S.trail_afterRecords (P := fun scope kind => kind = .recordType ∨
      ∃ name, scope = "record " ++ name) (.inl rfl) (fun name => .inr ⟨name, rfl⟩)).names_eq ?_
    rintro (hkind | ⟨name, hname⟩)
    · cases hkind
    · exact hd' name hname
  exact forall₂_componentRun S.valid_afterRecords S.rendered_afterRecords S.componentNames
    (fun _ _ => hnone _ _ (by simp) (by simp)) (fun _ _ => hnone _ _ (by simp) (by simp))
    hfields S.components_eq

theorem afterRecords_reaches : S.afterRecords.Reaches S.afterComponents :=
  Within.mapM (fun _ => within_buildComponent trivial trivial trivial (by simp) _) _ _ _ _
    S.components_eq

theorem valid_afterComponents : S.afterComponents.Valid :=
  S.afterRecords_reaches.grows.valid S.valid_afterRecords

theorem rendered_afterComponents : S.afterComponents.Rendered :=
  S.afterRecords_reaches.rendered S.rendered_afterRecords

end ModelStages

end FlightGen
