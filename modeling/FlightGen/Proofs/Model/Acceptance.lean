import FlightGen.Proofs.Model.WellFormed

/-! What building accepts. Each stage succeeds exactly on the part of a well-formed definition
that it reads, whatever has been named before it; together they accept the well-formed
definitions and no others. -/

namespace FlightGen

open Naming (Accepts)

theorem accepts_checkUnique (path : String) (element : Element) (names : List String) :
    Accepts names.Nodup (liftM (checkUnique path element names)) :=
  .lift ⟨fun ⟨_, h⟩ => checkUnique_eq_ok.1 h, fun h => ⟨(), checkUnique_eq_ok.2 h⟩⟩

theorem accepts_found {α : Type} {key : α → String} {xs : List α} (path : String)
    (element : Element) (name : String) :
    Accepts (name ∈ xs.map key) (liftM (found path element name (xs.findIdx? (key · = name)))) :=
  .lift (by simp [found_eq_ok, exists_findIdx?_name])

/-! ### Fields -/

theorem accepts_buildField (scope : String) (f : Definition.Field) :
    Accepts (Nameable f.name) (buildField scope f) :=
  (Accepts.assign scope .field f.name).bind_pure _

theorem accepts_buildFields (scope : String) (fields : List Definition.Field) :
    Accepts (Definition.FieldsWellFormed fields) (buildFields scope fields) := by
  refine Accepts.congr (P := (fields.map (·.name)).Nodup ∧ ∀ f ∈ fields, Nameable f.name) ?_
    ⟨fun ⟨hunique, hnames⟩ => ⟨hunique, hnames⟩, fun h => ⟨h.unique, h.names⟩⟩
  exact (accepts_checkUnique _ _ _).bind fun _ _ _ _ _ =>
    .mapM fun f _ => accepts_buildField scope f

theorem accepts_buildRecordType (r : Definition.RecordType) :
    Accepts r.WellFormed (buildRecordType r) := by
  refine Accepts.congr (P := Nameable r.name ∧ Definition.FieldsWellFormed r.fields) ?_
    ⟨fun ⟨hname, hfields⟩ => ⟨hname, hfields⟩, fun h => ⟨h.name, h.fields⟩⟩
  exact (Accepts.assign _ _ _).bind fun _ _ _ _ _ => (accepts_buildFields _ _).bind_pure _

/-! ### Activities -/

theorem accepts_namePins (path : String) (n : Definition.Node) :
    Accepts (∀ pin ∈ n.action.pins, Nameable pin.name) (namePins path n) := by
  unfold namePins
  split
  · rename_i haction
    rw [haction]
    exact .mapM fun pin _ => (Accepts.assign _ _ _).bind_pure _
  · rename_i hother
    have hnone : n.action.pins = [] := by
      unfold Definition.Action.pins
      split
      · rename_i haction
        exact absurd haction (hother _ _ _ _)
      · rfl
    exact (Accepts.pure []).congr (by simp [hnone])

theorem accepts_buildNode {s : ActivityScope} (hids : s.activity.ids.Nodup)
    (hnames : (s.component.activities.map (·.name)).Nodup) (n : Definition.Node)
    (idents : List (String × String)) :
    Accepts (Nameable n.text ∧
      n.action.WellFormed (s.records.map (·.name.raw)) s.component s.activity)
      (s.buildNode n idents) := by
  rw [Definition.Node.text_eq]
  refine (Accepts.assignFresh _ _).bind fun _ ident _ _ _ => Accepts.bind_pure (.lift ?_) _
  simp only [resolveAction_eq_ok]
  exact Action.exists_resolves_iff hids hnames n.action

theorem accepts_buildEdges (s : ActivityScope) :
    Accepts (∀ e ∈ s.activity.edges, e.source ∈ s.activity.ids ∧ e.target ∈ s.activity.ids)
      (liftM s.buildEdges) := by
  refine .lift ?_
  rw [ActivityScope.buildEdges]
  simp only [mapM_eq_ok_iff fun _ _ => buildEdge_eq_ok, exists_forall₂_iff, Prod.exists]
  refine forall₂_congr fun e _ => ?_
  simp only [exists_and_left, exists_and_right]
  exact and_congr exists_findIdx?_name exists_findIdx?_name

/-- The condition on one element of a list does not depend on what it is paired with. -/
theorem forall_mem_zip_iff {α β : Type} {xs : List α} {ys : List β} (h : xs.length = ys.length)
    {P : α → Prop} : (∀ p ∈ xs.zip ys, P p.1) ↔ ∀ x ∈ xs, P x := by
  conv_rhs => rw [← List.map_fst_zip h.le]
  rw [List.forall_mem_map]

theorem accepts_buildActivity {s : ActivityScope}
    (hnames : (s.component.activities.map (·.name)).Nodup) (hname : Nameable s.activity.name)
    (classNames : List String) (name : Name) :
    Accepts (s.activity.WellFormed (s.records.map (·.name.raw)) s.component)
      (buildActivity s classNames name) := by
  refine Accepts.congr (P := s.activity.ids.Nodup ∧
    (∀ n ∈ s.activity.nodes, ∀ pin ∈ n.action.pins, Nameable pin.name) ∧
    (∀ n ∈ s.activity.nodes, Nameable n.text ∧
      n.action.WellFormed (s.records.map (·.name.raw)) s.component s.activity) ∧
    (s.activity.nodes.filterMap Definition.Node.parameter?).Nodup ∧
    ∀ e ∈ s.activity.edges, e.source ∈ s.activity.ids ∧ e.target ∈ s.activity.ids) ?_ ?_
  · refine (accepts_checkUnique _ _ _).bind fun _ _ _ hids _ => ?_
    refine (Accepts.reserveAll _ _ _).bind_of_true fun _ _ _ _ => ?_
    refine (Accepts.mapM fun n _ => accepts_namePins _ n).bind fun _ pins _ _ hpins => ?_
    refine (Accepts.reserveAll _ _ _).bind_of_true fun _ _ _ _ => ?_
    have hlength := (Naming.forall₂_mapM hpins).length_eq
    refine Accepts.bind ?_ fun _ _ _ _ _ => ?_
    · exact (Accepts.mapM fun p _ => accepts_buildNode hids hnames p.1 p.2).congr
        (forall_mem_zip_iff hlength)
    · exact (accepts_checkUnique _ _ _).bind fun _ _ _ _ _ => (accepts_buildEdges s).bind_pure _
  · constructor
    · rintro ⟨hids, hpins, hnodes, hparameters, hedges⟩
      exact ⟨hname, hids, hparameters,
        fun n hn => ⟨(hnodes n hn).1, hpins n hn, (hnodes n hn).2⟩, hedges⟩
    · intro h
      exact ⟨h.ids, fun n hn => (h.nodes n hn).pins,
        fun n hn => ⟨(h.nodes n hn).text, (h.nodes n hn).action⟩, h.parameters, h.edges⟩

theorem accepts_buildActivities {d : Definition.Component}
    (hnames : (d.activities.map (·.name)).Nodup) (records : List RecordType) :
    Accepts (∀ a ∈ d.activities, a.WellFormed (records.map (·.name.raw)) d)
      (buildActivities d records) := by
  refine Accepts.congr (P := (∀ a ∈ d.activities, Nameable a.name) ∧
    ∀ a ∈ d.activities, a.WellFormed (records.map (·.name.raw)) d) ?_
    ⟨And.right, fun h => ⟨fun a ha => (h a ha).name, h⟩⟩
  refine (Accepts.reserveAll _ _ _).bind_of_true fun _ _ _ _ => ?_
  refine (Accepts.mapM fun a _ => (Accepts.assign _ _ _).bind_pure _).bind
    fun _ names _ hnameable heq => ?_
  have hlength := (Naming.forall₂_mapM heq).length_eq
  refine Accepts.congr (Accepts.mapM fun p hp => ?_) (forall_mem_zip_iff hlength)
  exact accepts_buildActivity (s := ⟨records, d, p.1, _⟩) hnames
    (hnameable p.1 (List.of_mem_zip hp).1) _ p.2

/-! ### Transitions -/

theorem accepts_buildTrigger (scope : String) (commands : List Command) (trigger : Option String) :
    Accepts (∀ signal ∈ trigger, Nameable signal) (buildTrigger scope commands trigger) := by
  cases trigger with
  | none => exact (Accepts.pure _).congr (by simp)
  | some signal => exact ((Accepts.assign _ _ _).bind_pure _).congr (by simp)

section Transition

variable {d : Definition.Component} {attributes : List Field}
  (hfields : List.Forall₂ (fun f f' => f'.name.raw = f.name ∧ f'.scalar = f.scalar) d.attributes
    attributes)

include hfields

theorem exists_attribute?_iff {name : String} :
    (∃ f, attribute? attributes name = some f) ↔ name ∈ d.attributes.map (·.name) := by
  have hraws := map_raw_eq Field.name hfields fun _ _ hf => hf.1
  rw [← hraws, ← Option.isSome_iff_exists, attribute?, List.find?_isSome]
  simp

theorem any_attribute?_iff (hnames : (d.attributes.map (·.name)).Nodup) {name : String}
    {scalar : Scalar} : (attribute? attributes name).any (·.scalar = scalar) = true ↔
      ∃ f ∈ d.attributes, f.name = name ∧ f.scalar = scalar := by
  have hfind := find?_of_forall₂ hfields (p := (·.name = name)) (q := (·.name.raw = name))
    fun f f' h => by simp [h.1]
  rw [attribute?]
  obtain ⟨hnone, hnone'⟩ | ⟨f, f', hsome, hsome', -, hscalar⟩ := hfind
  · have hother : ∀ f ∈ d.attributes, f.name ≠ name := by simpa using hnone
    rw [hnone']
    simpa using fun f hf hname _ => hother f hf hname
  · have hname : f.name = name := by simpa using List.find?_some hsome
    have hmem := List.mem_of_find?_eq_some hsome
    rw [hsome', Option.any_some, decide_eq_true_iff, hscalar]
    constructor
    · intro h
      exact ⟨f, hmem, hname, h⟩
    · rintro ⟨g, hg, hgname, h⟩
      cases List.inj_on_of_nodup_map hnames hg hmem (hgname.trans hname.symm)
      exact h

theorem isCondition_iff (hnames : (d.attributes.map (·.name)).Nodup) {e : Expr} :
    isCondition attributes e = true ↔
      e.isBoolean = true ∨ ∃ f ∈ d.attributes, e = .var f.name ∧ f.scalar = .bool := by
  cases e with
  | var name =>
    rw [isCondition, any_attribute?_iff hfields hnames]
    simp [Expr.isBoolean, eq_comm (a := name)]
  | literal v => simp [isCondition]
  | unary op e => simp [isCondition]
  | binary op e₁ e₂ => simp [isCondition]

theorem accepts_resolveGuard? (hnames : (d.attributes.map (·.name)).Nodup) (path : String)
    (guard : Option String) :
    Accepts (∀ source ∈ guard, d.Decides source) (liftM (resolveGuard? path attributes guard)) := by
  refine .lift ?_
  cases guard with
  | none => simp [resolveGuard?]
  | some source =>
    simp only [resolveGuard?, map_eq_ok, resolveGuard_eq_ok, exists_attribute?_iff hfields,
      isCondition_iff hfields hnames]
    constructor
    · rintro ⟨_, _, ⟨e, he, hvars, hcondition, -⟩, -⟩ _ ⟨⟩
      exact ⟨e, he, hvars, hcondition⟩
    · intro h
      obtain ⟨e, he, hvars, hcondition⟩ := h source rfl
      exact ⟨_, _, ⟨e, he, hvars, hcondition, rfl⟩, rfl⟩

theorem accepts_buildTransitions (hnames : (d.attributes.map (·.name)).Nodup) (path : String)
    (commands : List Command) (ts : List Definition.Transition) :
    Accepts (∀ t ∈ ts, t.WellFormed d) (buildTransitions d attributes path commands ts) := by
  induction ts generalizing commands with
  | nil => exact (Accepts.pure _).congr (by simp)
  | cons t ts ih =>
    refine Accepts.congr (P := t.source ∈ d.machine.stateNames ∧ t.target ∈ d.machine.stateNames ∧
      (∀ source ∈ t.guard, d.Decides source) ∧ (∀ signal ∈ t.trigger, Nameable signal) ∧
      ∀ t ∈ ts, t.WellFormed d) ?_ ?_
    · refine (accepts_found _ _ _).bind fun _ _ _ _ _ => ?_
      refine (accepts_found _ _ _).bind fun _ _ _ _ _ => ?_
      refine (accepts_resolveGuard? hfields hnames _ _).bind fun _ _ _ _ _ => ?_
      exact (accepts_buildTrigger _ _ _).bind fun _ _ _ _ _ => (ih _).bind_pure _
    · rw [List.forall_mem_cons]
      constructor
      · rintro ⟨hsource, htarget, hguard, htrigger, hrest⟩
        exact ⟨⟨hsource, htarget, hguard, htrigger⟩, hrest⟩
      · rintro ⟨h, hrest⟩
        exact ⟨h.source, h.target, h.guard, h.trigger, hrest⟩

end Transition

/-! ### States -/

theorem Definition.Node.input?_eq_none {n : Definition.Node} : n.input? = none ↔
    ∀ name type source, n.action ≠ .parameter .input name type source := by
  unfold input?
  split
  · rename_i haction
    simp [haction]
  · rename_i hother
    exact ⟨fun _ => hother, fun _ => rfl⟩

theorem Activity.Realizes.firstInput?_eq_none {s : ActivityScope} {a : Activity}
    (h : a.Realizes s) : a.firstInput? = none ↔ s.activity.inputs = [] := by
  rw [Activity.firstInput?_eq_none, Definition.Activity.inputs, List.filterMap_eq_nil_iff]
  simp only [Definition.Node.input?_eq_none]
  constructor
  · intro hnone d hd name type source heq
    obtain ⟨n, hn, hrealizes⟩ := exists_of_forall₂ h.nodes hd
    obtain ⟨idents, haction⟩ := hrealizes.action
    obtain ⟨resolved, hinput⟩ := haction.eq_input heq
    exact hnone n hn _ _ _ hinput
  · intro hnone n hn
    obtain ⟨d, hd, hrealizes⟩ := exists_of_forall₂ h.nodes.flip hn
    obtain ⟨idents, haction⟩ := hrealizes.action
    exact haction.not_input (hnone d hd)

section State

variable {d : Definition.Component} {activities : List Activity}
  (hnames : (d.activities.map (·.name)).Nodup)
  (hinputs : List.Forall₂ (fun da (a : Activity) => a.firstInput? = none ↔ da.inputs = [])
    d.activities activities)

include hnames hinputs

theorem accepts_stateActivities (path : String) (names : List String) :
    Accepts (∀ name ∈ names, ∃ a ∈ d.activities, a.name = name ∧ a.inputs = [])
      (liftM (stateActivities d activities path names)) := by
  refine .lift ?_
  rw [stateActivities]
  simp only [mapM_eq_ok_iff fun _ _ => stateActivity_eq_ok, exists_forall₂_iff]
  refine forall₂_congr fun name _ => ?_
  rw [← exists_located_iff hnames]
  refine exists_congr fun index => ?_
  constructor
  · rintro ⟨hindex, hnone⟩
    obtain ⟨da, hda, -⟩ := exists_of_findIdx? hindex
    obtain ⟨a, ha, hinput⟩ := getElem?_of_forall₂ hinputs hda
    rw [ha, Option.bind_some] at hnone
    exact ⟨da, hindex, hda, hinput.1 hnone⟩
  · rintro ⟨da, hindex, hda, hnone⟩
    obtain ⟨a, ha, hinput⟩ := getElem?_of_forall₂ hinputs hda
    exact ⟨hindex, by rw [ha, Option.bind_some, hinput.2 hnone]⟩

theorem accepts_buildState (path : String) (s : Definition.State) :
    Accepts (s.WellFormed d) (buildState d activities path s) := by
  refine Accepts.congr (P := (∀ name ∈ s.activities, ∃ a ∈ d.activities,
    a.name = name ∧ a.inputs = []) ∧ Nameable s.name) ?_
    ⟨fun ⟨hactivities, hname⟩ => ⟨hname, hactivities⟩, fun h => ⟨h.activities, h.name⟩⟩
  exact (accepts_stateActivities hnames hinputs _ _).bind fun _ _ _ _ _ =>
    (Accepts.assign _ _ _).bind_pure _

end State

/-! ### Components -/

/-- A stage reads what the stages before it have built, and all of that follows the definition. -/
theorem accepts_buildComponent (records : List RecordType) (d : Definition.Component) :
    Accepts (d.WellFormed (records.map (·.name.raw))) (buildComponent records d) := by
  refine Accepts.congr (P := Nameable d.name ∧ Definition.FieldsWellFormed d.attributes ∧
    d.machine.states ≠ [] ∧ d.machine.stateNames.Nodup ∧ (d.activities.map (·.name)).Nodup ∧
    (∀ a ∈ d.activities, a.WellFormed (records.map (·.name.raw)) d) ∧
    (∀ s ∈ d.machine.states, s.WellFormed d) ∧ d.machine.initial ∈ d.machine.stateNames ∧
    (∀ t ∈ d.machine.transitions, t.WellFormed d) ∧ Nameable d.machine.name) ?_ ?_
  · refine (Accepts.assign _ _ _).bind fun _ _ _ _ _ => ?_
    refine (Accepts.reserveAll _ _ _).bind_of_true fun _ _ _ _ => ?_
    refine (accepts_buildFields _ _).bind fun _ attributes _ _ hattributes => ?_
    obtain ⟨hunique, hfields⟩ := buildFields_eq_ok hattributes
    dsimp only
    split
    · rename_i hempty
      exact (Accepts.fail_bind _ _).congr (by simp [List.isEmpty_iff.1 hempty])
    rename_i hempty
    refine Accepts.congr ?_ (and_iff_right (by simpa using hempty)).symm
    refine (accepts_checkUnique _ _ _).bind fun _ _ _ _ _ => ?_
    refine (accepts_checkUnique _ _ _).bind fun _ _ _ hnames _ => ?_
    refine (accepts_buildActivities hnames _).bind fun _ activities _ _ hactivities => ?_
    obtain ⟨S⟩ := exists_activitiesStages hactivities
    have hinputs := S.realizes.imp fun _ _ h => h.firstInput?_eq_none
    refine (Accepts.mapM fun s _ => accepts_buildState hnames hinputs _ s).bind fun _ _ _ _ _ => ?_
    refine (accepts_found _ _ _).bind fun _ _ _ _ _ => ?_
    refine (Accepts.reserveAll _ _ _).bind_of_true fun _ _ _ _ => ?_
    refine (accepts_buildTransitions hfields hunique _ _ _).bind fun _ _ _ _ _ => ?_
    exact (Accepts.assign _ _ _).bind_pure _
  · constructor
    · rintro ⟨hname, hattributes, hstates, hunique, hnames, hactivities, hstate, hinitial,
        htransitions, hmachine⟩
      exact ⟨hname, hattributes, ⟨hmachine, hstates, hunique, hstate, hinitial, htransitions⟩,
        hnames, hactivities⟩
    · intro h
      exact ⟨h.name, h.attributes, h.machine.nonempty, h.machine.unique, h.unique, h.activities,
        h.machine.states, h.machine.initial, h.machine.transitions, h.machine.name⟩

/-! ### Models -/

theorem accepts_buildModel (d : Definition) : Accepts d.WellFormed (buildModel d) := by
  refine Accepts.congr (P := (d.recordTypes.map (·.name)).Nodup ∧
    (d.components.map (·.name)).Nodup ∧ (∀ r ∈ d.recordTypes, r.WellFormed) ∧
    ∀ c ∈ d.components, c.WellFormed (d.recordTypes.map (·.name))) ?_
    ⟨fun ⟨hrecords, hcomponents, hrecord, hcomponent⟩ =>
      ⟨hrecords, hrecord, hcomponents, hcomponent⟩,
     fun h => ⟨h.recordNames, h.componentNames, h.records, h.components⟩⟩
  refine (accepts_checkUnique _ _ _).bind fun _ _ _ _ _ => ?_
  refine (accepts_checkUnique _ _ _).bind fun _ _ _ _ _ => ?_
  refine (Accepts.mapM fun r _ => accepts_buildRecordType r).bind fun _ records _ _ hrecords => ?_
  have hraws : records.map (·.name.raw) = d.recordTypes.map (·.name) := by
    have hraws := map_raw_eq RecordType.name (Naming.forall₂_mapM hrecords)
      fun _ _ ⟨_, _, h⟩ => (buildRecordType_eq_ok h).1.1
    rwa [List.map_map] at hraws
  rw [← hraws]
  exact (Accepts.mapM fun c _ => accepts_buildComponent records c).bind_pure _

/-- Building accepts the well-formed definitions, and no others. -/
theorem Model.build_accepts_iff (d : Definition) : (∃ m, Model.build d = .ok m) ↔ d.WellFormed := by
  rw [← (accepts_buildModel d).succeeds {} NameTable.rendered_empty]
  simp only [Model.build, bind_eq_ok, Prod.exists, pure_eq_ok, StateT.run]
  constructor
  · rintro ⟨m, _, t, h, rfl⟩
    exact ⟨_, t, h⟩
  · rintro ⟨m, t, h⟩
    exact ⟨m, m, t, h, rfl⟩

end FlightGen
