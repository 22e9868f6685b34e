import FlightGen.Proofs.Model.Resolved

/-! Built models are well formed: all activities are resolved, and elements which share a
scope have different identifiers, so that qualified names tell all activities apart, and
variables differ from all that an emitted class declares. -/

namespace FlightGen

open Identifier (IsWord isWordChar)

/-! ### Names -/

namespace NameTable

/-- The table records that a text has its identifier. -/
def Holds (t : NameTable) (scope : String) (kind : NameKind) (n : Name) : Prop :=
  t.lookup scope kind n.raw = some n.ident

/-- The table holds names for all of the texts. -/
structure Lists (t : NameTable) (scope : String) (kind : NameKind) (raws : List String)
    (names : List Name) : Prop where
  raws : names.map (·.raw) = raws
  held : ∀ n ∈ names, t.Holds scope kind n

variable {t t' : NameTable} {scope : String} {kind : NameKind} {raws : List String}
  {names : List Name}

theorem Holds.reaches {n : Name} (h : t.Holds scope kind n) (hk : kind ≠ .localVar)
    (ht : t.Reaches t') : t'.Holds scope kind n :=
  ht.grows.lookup scope kind n.raw n.ident hk h

theorem Lists.reaches (h : t.Lists scope kind raws names) (hk : kind ≠ .localVar)
    (ht : t.Reaches t') : t'.Lists scope kind raws names :=
  ⟨h.raws, fun n hn => (h.held n hn).reaches hk ht⟩

/-- Different texts have identifiers that do not collide. -/
theorem Lists.nodup_keys (h : t.Lists scope kind raws names) (ht : t.Valid) (hraws : raws.Nodup) :
    (names.map fun n => kind.key n.ident).Nodup := by
  rw [← h.raws] at hraws
  refine hraws.of_map.map_on fun n hn n' hn' heq => List.inj_on_of_nodup_map hraws hn hn' ?_
  exact (ht scope kind).injective _ _ _ _ (h.held n hn) (h.held n' hn') heq

theorem Lists.nodup_idents (h : t.Lists scope kind raws names) (ht : t.Valid) (hraws : raws.Nodup) :
    (names.map (·.ident)).Nodup := by
  have hkeys := h.nodup_keys ht hraws
  refine hkeys.of_map.map_on fun n hn n' hn' heq => ?_
  exact List.inj_on_of_nodup_map hkeys hn hn' (congrArg kind.key heq)

end NameTable

/-- Elements named in turn bear the texts they were named from. -/
theorem map_raw_eq {α β : Type} {raw : α → String} (name : β → Name) {R : α → β → Prop}
    {xs : List α} {ys : List β} (h : List.Forall₂ R xs ys)
    (hR : ∀ x y, R x y → (name y).raw = raw x) :
    (ys.map name).map (·.raw) = xs.map raw := by
  rw [List.map_map]
  exact map_eq_of_forall₂ h hR

/-- What is named in turn is listed at the end. -/
theorem Naming.lists_of_mapM {α β : Type} {f : α → Naming β} {raw : α → String} (name : β → Name)
    {scope : String} {kind : NameKind} {A : String → NameKind → Prop} (hk : kind ≠ .localVar)
    (hwithin : ∀ x, (f x).Within A)
    (hf : ∀ x t y t', f x t = .ok (y, t') → (name y).raw = raw x ∧ t'.Holds scope kind (name y))
    {xs : List α} {ys : List β} {t t' : NameTable} (h : xs.mapM f t = .ok (ys, t')) :
    t'.Lists scope kind (xs.map raw) (ys.map name) := by
  have hbuilt := Naming.forall₂_of_mapM hwithin h
  constructor
  · exact map_raw_eq name hbuilt fun x y ⟨s, s', _, hy, _⟩ => (hf x s y s' hy).1
  · refine List.forall_mem_map.2 (forall_of_forall₂ hbuilt ?_)
    rintro x y ⟨s, s', -, hy, hs'⟩
    exact (hf x s y s' hy).2.reaches hk hs'

/-! ### Record types -/

theorem lists_buildFields {scope : String} {ds : List Definition.Field} {fields : List Field}
    {t t' : NameTable} (h : buildFields scope ds t = .ok (fields, t')) :
    t'.Lists scope .field (ds.map (·.name)) (fields.map (·.name)) := by
  obtain ⟨_, _, hlift, h⟩ := Naming.bind_eq_ok.1 h
  obtain ⟨-, rfl⟩ := Naming.lift_eq_ok.1 hlift
  refine Naming.lists_of_mapM Field.name (by simp) (within_buildField (P := fun _ _ => True) trivial) ?_ h
  intro d t field t' hfield
  obtain ⟨ident, t₁, hident, hfield⟩ := Naming.bind_eq_ok.1 hfield
  obtain ⟨rfl, rfl⟩ := Naming.pure_eq_ok.1 hfield
  exact ⟨rfl, NameTable.lookup_assign hident⟩

theorem buildFields_eq_ok {scope : String} {ds : List Definition.Field} {fields : List Field}
    {t t' : NameTable} (h : buildFields scope ds t = .ok (fields, t')) :
    (ds.map (·.name)).Nodup ∧
      List.Forall₂ (fun f f' => f'.name.raw = f.name ∧ f'.scalar = f.scalar) ds fields := by
  obtain ⟨_, _, hlift, h⟩ := Naming.bind_eq_ok.1 h
  obtain ⟨hunique, rfl⟩ := Naming.lift_eq_ok.1 hlift
  refine ⟨checkUnique_eq_ok.1 hunique, (Naming.forall₂_mapM h).imp ?_⟩
  rintro f f' ⟨t, t', hf⟩
  obtain ⟨ident, t₁, -, hf⟩ := Naming.bind_eq_ok.1 hf
  obtain ⟨rfl, rfl⟩ := Naming.pure_eq_ok.1 hf
  exact ⟨rfl, rfl⟩

theorem buildRecordType_eq_ok {d : Definition.RecordType} {r : RecordType} {t t' : NameTable}
    (h : buildRecordType d t = .ok (r, t')) :
    (r.name.raw = d.name ∧ t'.Holds "" .recordType r.name) ∧ (d.fields.map (·.name)).Nodup ∧
      t'.Lists ("record " ++ d.name) .field (d.fields.map (·.name)) (r.fields.map (·.name)) := by
  obtain ⟨ident, t₁, hident, h⟩ := Naming.bind_eq_ok.1 h
  obtain ⟨fields, t₂, hfields, h⟩ := Naming.bind_eq_ok.1 h
  obtain ⟨rfl, rfl⟩ := Naming.pure_eq_ok.1 h
  have hholds : t₁.Holds "" .recordType ⟨d.name, ident⟩ := NameTable.lookup_assign hident
  refine ⟨⟨rfl, hholds.reaches (by simp) ?_⟩, (buildFields_eq_ok hfields).1, lists_buildFields hfields⟩
  exact within_buildFields trivial _ _ _ _ hfields

namespace ModelStages

variable {d : Definition} {m : Model} (S : ModelStages d m)

include S

theorem records : S.afterRecords.Lists "" .recordType (d.recordTypes.map (·.name))
    (m.recordTypes.map (·.name)) :=
  Naming.lists_of_mapM RecordType.name (by simp)
    (within_buildRecordType (P := fun _ _ => True) trivial (fun _ => trivial))
    (fun _ _ _ _ h => (buildRecordType_eq_ok h).1) S.records_eq

theorem fields : List.Forall₂ (fun d r => (d.fields.map (·.name)).Nodup ∧
    S.afterRecords.Lists ("record " ++ d.name) .field (d.fields.map (·.name)) (r.fields.map (·.name)))
    d.recordTypes m.recordTypes := by
  refine (Naming.forall₂_of_mapM (within_buildRecordType (P := fun _ _ => True) trivial
    (fun _ => trivial)) S.records_eq).imp ?_
  rintro d r ⟨s, s', -, hr, hs'⟩
  obtain ⟨-, hnodup, hlists⟩ := buildRecordType_eq_ok hr
  exact ⟨hnodup, hlists.reaches (by simp) hs'⟩

end ModelStages

/-! ### Activities -/

structure Component.Resolved (records : Nat) (c : Component) : Prop where
  activities : ∀ a ∈ c.activities, a.Resolved records
  calls : ∀ a ∈ c.activities, a.CallsBelow c.activities.length
  idents : (c.activities.map (·.name.ident)).Nodup

/-- The names that the class of a component declares, and those of the types it uses. -/
def Component.classNames (records : List RecordType) (c : Component) : List String :=
  classScopeNames c.guardCount (c.activities.map (·.name.ident)) (records.map (·.name.ident))

theorem buildActivityName_eq_ok {scope : String} {a : Definition.Activity} {n : Name}
    {t t' : NameTable} (h : buildActivityName scope a t = .ok (n, t')) :
    n.raw = a.name ∧ t'.Holds scope .activity n := by
  obtain ⟨ident, t₁, hident, h⟩ := Naming.bind_eq_ok.1 h
  obtain ⟨rfl, rfl⟩ := Naming.pure_eq_ok.1 h
  exact ⟨rfl, NameTable.lookup_assign hident⟩

/-- The stages in which one activity of a component comes about. -/
abbrev ActivityRun (records : List RecordType) (d : Definition.Component) (classNames : List String)
    (da : Definition.Activity) (a : Activity) : Prop :=
  ∃ name t t', Nonempty
    (ActivityStages ⟨records, d, da, d.name ++ "::" ++ da.name⟩ classNames name t a t')

namespace ActivitiesStages

variable {d : Definition.Component} {records : List RecordType} {t t' : NameTable}
  {activities : List Activity} (S : ActivitiesStages d records t activities t')

include S

theorem names_reach : S.afterNames.Reaches t' :=
  Naming.Within.mapM (fun _ => within_buildActivity (fun _ => trivial) _ _ _) _ _ _ _ S.activities_eq

theorem methods_reach : S.afterMethods.Reaches t' :=
  (Naming.Within.mapM (within_buildActivityName trivial) _ _ _ _ S.names_eq).trans S.names_reach

theorem names_listed : S.afterNames.Lists d.name .activity (d.activities.map (·.name)) S.names := by
  have hlists := Naming.lists_of_mapM id (by simp)
    (within_buildActivityName (P := fun _ _ => True) trivial)
    (fun _ _ _ _ => buildActivityName_eq_ok) S.names_eq
  rwa [List.map_id] at hlists

theorem length_names : d.activities.length = S.names.length := by
  simpa using (congrArg List.length S.names_listed.raws).symm

theorem map_name : activities.map (·.name) = S.names := by
  have hsnd := List.map_snd_zip S.length_names.ge
  rw [← hsnd]
  refine map_eq_of_forall₂ (Naming.forall₂_mapM S.activities_eq) ?_
  rintro p a ⟨_, _, h⟩
  obtain ⟨A⟩ := exists_activityStages h
  exact A.name_eq

theorem map_ident : activities.map (·.name.ident) = S.names.map (·.ident) := by
  rw [← S.map_name, List.map_map]
  rfl

theorem listed : t'.Lists d.name .activity (d.activities.map (·.name)) (activities.map (·.name)) :=
  S.map_name ▸ S.names_listed.reaches (by simp) S.names_reach

theorem runs : List.Forall₂ (ActivityRun records d (classScopeNames
    (d.machine.transitions.countP (·.guard.isSome)) (activities.map (·.name.ident))
    (records.map (·.name.ident)))) d.activities activities := by
  have hfst := List.map_fst_zip S.length_names.le
  rw [S.map_ident, ← hfst, List.forall₂_map_left_iff]
  exact (Naming.forall₂_mapM S.activities_eq).imp fun p a ⟨s, s', h⟩ =>
    ⟨p.2, s, s', exists_activityStages h⟩

end ActivitiesStages

/-! ### Components -/

theorem isSome_resolveGuard? {path : String} {attributes : List Field} {source : Option String}
    {guard : Option Guard} (h : resolveGuard? path attributes source = .ok guard) :
    guard.isSome = source.isSome := by
  cases source with
  | none =>
    cases h
    rfl
  | some source =>
    obtain ⟨_, -, rfl⟩ := map_eq_ok.1 h
    rfl

/-- Transitions keep their guards. -/
theorem TransitionRun.countP_guard {d : Definition.Component} {attributes : List Field}
    {path : String} {commands commands' : List Command} {ds : List Definition.Transition}
    {ts : List Transition} {t t' : NameTable}
    (h : TransitionRun d attributes path commands t ds ts commands' t') :
    ts.countP (·.guard.isSome) = ds.countP (·.guard.isSome) := by
  induction h with
  | nil => rfl
  | cons _ _ hguard _ _ ih => rw [List.countP_cons, List.countP_cons, isSome_resolveGuard? hguard, ih]

namespace ComponentStages

variable {records : List RecordType} {d : Definition.Component} {c : Component} {t t' : NameTable}
  (S : ComponentStages records d t c t')

include S

theorem holds_name : t'.Holds "" .component c.name := by
  have hholds : S.afterName.Holds "" .component c.name := by
    rw [NameTable.Holds, S.raw_eq]
    exact NameTable.lookup_assign S.name_eq
  exact hholds.reaches (by simp) S.afterName_reaches

theorem attributes : t'.Lists d.name .field (d.attributes.map (·.name)) (c.attributes.map (·.name)) :=
  (lists_buildFields S.attributes_eq).reaches (by simp) S.afterAttributes_reaches

theorem activities : t'.Lists d.name .activity (d.activities.map (·.name))
    (c.activities.map (·.name)) := by
  obtain ⟨A⟩ := exists_activitiesStages S.activities_eq
  exact A.listed.reaches (by simp) S.afterActivities_reaches

theorem runs : List.Forall₂ (ActivityRun records d (c.classNames records)) d.activities
    c.activities := by
  obtain ⟨A⟩ := exists_activitiesStages S.activities_eq
  have hruns := A.runs
  rwa [← S.transitionRun.countP_guard] at hruns

theorem resolved (ht : t.Valid) : c.Resolved records.length := by
  refine ⟨forall_of_forall₂ S.runs fun _ _ ⟨_, _, _, ⟨A⟩⟩ => A.resolved, ?_, ?_⟩
  · rw [← S.runs.length_eq]
    exact forall_of_forall₂ S.runs fun _ _ ⟨_, _, _, ⟨A⟩⟩ => A.callsBelow
  · have hidents := S.activities.nodup_idents (S.reaches.grows.valid ht) S.activityNames
    rwa [List.map_map] at hidents

theorem apart : ∀ a ∈ c.activities, a.Apart (c.classNames records) :=
  forall_of_forall₂ S.runs fun _ _ ⟨_, _, _, ⟨A⟩⟩ => A.apart

end ComponentStages

/-! ### Models -/

/-- What holds of every built model. -/
structure Model.Resolved (m : Model) : Prop where
  recordIdents : (m.recordTypes.map (·.name.ident)).Nodup
  fieldIdents : ∀ r ∈ m.recordTypes, (r.fields.map (·.name.ident)).Nodup
  components : ∀ c ∈ m.components, c.Resolved m.recordTypes.length
  apart : ∀ c ∈ m.components, ∀ a ∈ c.activities, a.Apart (c.classNames m.recordTypes)
  componentIdents : (m.components.map (·.name.ident)).Nodup
  componentWords : ∀ c ∈ m.components, IsWord c.name.ident

theorem ModelStages.components {d : Definition} {m : Model} (S : ModelStages d m) :
    S.afterComponents.Lists "" .component (d.components.map (·.name)) (m.components.map (·.name)) := by
  constructor
  · exact map_raw_eq Component.name S.componentRuns fun _ _ ⟨R⟩ => R.stages.raw_eq
  · refine List.forall_mem_map.2 (forall_of_forall₂ S.componentRuns ?_)
    rintro d c ⟨R⟩
    exact R.stages.holds_name.reaches (by simp) R.onward

theorem Model.resolved_of_build {d : Definition} {m : Model} (h : Model.build d = .ok m) :
    m.Resolved := by
  obtain ⟨S⟩ := exists_modelStages h
  refine ⟨?_, ?_, forall_of_forall₂ S.componentRuns fun _ _ ⟨R⟩ => R.stages.resolved R.valid,
    forall_of_forall₂ S.componentRuns fun _ _ ⟨R⟩ => R.stages.apart, ?_, ?_⟩
  · have hidents := S.records.nodup_idents S.valid_afterRecords S.recordNames
    rwa [List.map_map] at hidents
  · refine forall_of_forall₂ S.fields ?_
    rintro d r ⟨hnodup, hlists⟩
    have hidents := hlists.nodup_idents S.valid_afterRecords hnodup
    rwa [List.map_map] at hidents
  · have hidents := S.components.nodup_idents S.valid_afterComponents S.componentNames
    rwa [List.map_map] at hidents
  · intro c hc
    have hholds := S.components.held c.name (List.mem_map.2 ⟨c, hc, rfl⟩)
    exact (S.valid_afterComponents "" .component).word c.name.raw _ hholds

/-! ### A sample model

`Mark` writes to both features of its argument, `Use` calls it, and the nodes of `Loop`
wait for each other. -/

namespace Sample

def definition : Definition where
  recordTypes := [⟨"Pose", [⟨"ready", .bool⟩, ⟨"armed", .bool⟩]⟩]
  components := [{
    name := "Nav"
    attributes := []
    machine := ⟨"Cycle", "Idle", [⟨"Idle", []⟩], []⟩
    activities := [
      ⟨"Mark", [
        ⟨"p", none, .parameter .input "pose" "Pose" none⟩,
        ⟨"t", none, .literal (.bool true)⟩,
        ⟨"w", none, .write ⟨"p", none⟩ "ready" ⟨"t", none⟩⟩,
        ⟨"v", none, .write ⟨"p", none⟩ "armed" ⟨"t", none⟩⟩,
        ⟨"r", none, .parameter .output "marked" "Pose" (some ⟨"p", none⟩)⟩], []⟩,
      ⟨"Use", [
        ⟨"p", none, .parameter .input "pose" "Pose" none⟩,
        ⟨"c", none, .call "Mark" [⟨"pose", ⟨"p", none⟩⟩]⟩,
        ⟨"g", none, .read ⟨"c", none⟩ "ready"⟩,
        ⟨"r", none, .parameter .output "ready" "bool" (some ⟨"g", none⟩)⟩], []⟩,
      ⟨"Loop", [⟨"a", none, .literal (.bool true)⟩, ⟨"b", none, .literal (.bool false)⟩],
        [⟨"a", "b"⟩, ⟨"b", "a"⟩]⟩] }]

def mark : Activity where
  name := ⟨"Mark", "Mark"⟩
  nodes := [
    ⟨"p", "pose", .parameter .input ⟨"pose", "pose"⟩ (.record 0) none⟩,
    ⟨"t", "t", .literal (.bool true)⟩,
    ⟨"w", "w", .write ⟨0, none⟩ "ready" ⟨1, none⟩⟩,
    ⟨"v", "v", .write ⟨0, none⟩ "armed" ⟨1, none⟩⟩,
    ⟨"r", "marked", .parameter .output ⟨"marked", "marked"⟩ (.record 0) (some ⟨0, none⟩)⟩]
  edges := []

def use : Activity where
  name := ⟨"Use", "Use"⟩
  nodes := [
    ⟨"p", "pose", .parameter .input ⟨"pose", "pose"⟩ (.record 0) none⟩,
    ⟨"c", "c", .call 0 [⟨0, ⟨0, none⟩⟩]⟩,
    ⟨"g", "g", .read ⟨1, none⟩ "ready"⟩,
    ⟨"r", "ready", .parameter .output ⟨"ready", "ready"⟩ (.scalar .bool) (some ⟨2, none⟩)⟩]
  edges := []

def loop : Activity where
  name := ⟨"Loop", "Loop"⟩
  nodes := [⟨"a", "a", .literal (.bool true)⟩, ⟨"b", "b", .literal (.bool false)⟩]
  edges := [(0, 1), (1, 0)]

def component : Component where
  name := ⟨"Nav", "Nav"⟩
  machine := ⟨"Cycle", "Cycle"⟩
  states := [⟨⟨"Idle", "Idle"⟩, []⟩]
  initial := 0
  transitions := []
  activities := [mark, use, loop]
  attributes := []
  commands := [⟨"START_STATE_MACHINE", .start⟩, ⟨"STOP_STATE_MACHINE", .stop⟩]

def model : Model where
  recordTypes := [⟨⟨"Pose", "Pose"⟩, [⟨⟨"ready", "ready"⟩, .bool⟩, ⟨⟨"armed", "armed"⟩, .bool⟩]⟩]
  components := [component]

theorem build_definition : Model.build definition = .ok model := by
  decide +kernel

end Sample

/-! ### Qualified names -/

theorem takeWhile_isWordChar {word : String} (h : IsWord word) (rest : String) :
    (word ++ "::" ++ rest).toList.takeWhile isWordChar = word.toList := by
  have hrest : (word ++ "::" ++ rest).toList = word.toList ++ ':' :: ':' :: rest.toList := by
    simp
  rw [hrest, List.takeWhile_append_of_pos fun c hc => h c hc]
  simp [isWordChar]

/-- The part before the colons is a word, so that it can be read off. -/
theorem Model.Resolved.qualified_injective {m : Model} (hm : m.Resolved) {c c' : Component}
    (hc : c ∈ m.components) (hc' : c' ∈ m.components) {i j : Nat} (hi : i < c.activities.length)
    (hj : j < c'.activities.length) (h : c.qualified i = c'.qualified j) : c = c' ∧ i = j := by
  have hident : c.name.ident = c'.name.ident := by
    have htake := congrArg (·.toList.takeWhile isWordChar) h
    simp only [Component.qualified, takeWhile_isWordChar (hm.componentWords c hc),
      takeWhile_isWordChar (hm.componentWords c' hc')] at htake
    exact String.toList_inj.1 htake
  have hcc : c = c' := List.inj_on_of_nodup_map hm.componentIdents hc hc' hident
  subst hcc
  refine ⟨rfl, ?_⟩
  have hactivity : c.activityIdent i = c.activityIdent j := by
    simpa [Component.qualified] using h
  have hnodup := (hm.components c hc).idents
  rw [Component.activityIdent, Component.activityIdent, ← List.getElem?_map, ← List.getElem?_map,
    List.getElem?_eq_getElem (by simpa using hi), List.getElem?_eq_getElem (by simpa using hj)]
    at hactivity
  exact (List.Nodup.getElem_inj_iff hnodup).1 hactivity

end FlightGen
