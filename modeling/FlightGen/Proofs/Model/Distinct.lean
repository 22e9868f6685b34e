import FlightGen.Machine.Synthesis
import FlightGen.Proofs.Model.Wiring
import FlightGen.Proofs.Naming.Spelling

/-! The names of a built model do not collide. Identifiers that share a scope of the emitted
code differ, also where they are written in upper case and where the code has names of its
own, and all of them are spelled as identifiers. -/

namespace FlightGen

/-- The methods that the class of a component declares. -/
def Component.methods (c : Component) : List String :=
  fixedMethods ++ c.synthesize.guards.map (·.method) ++ c.activities.map (·.name.ident)

/-- What a component names differs from what it names beside it. -/
structure Component.Distinct (c : Component) : Prop where
  attributes : (c.attributes.map (·.name.ident)).Nodup
  states : (c.synthesize.states.map (·.constant)).Nodup
  lifecycle : lifecycleCommands <+: c.commands
  commands : (c.commands.map (·.mnemonic)).Nodup
  upper : ∀ command ∈ c.commands, command.mnemonic.toUpper = command.mnemonic
  methods : c.methods.Nodup

def Component.names (c : Component) : List String :=
  c.attributes.map (·.name.ident) ++ c.synthesize.states.map (·.constant) ++
    c.commands.map (·.mnemonic) ++ c.methods

def Model.names (m : Model) : List String :=
  m.recordTypes.map (·.name.ident) ++ m.recordTypes.flatMap (·.fields.map (·.name.ident)) ++
    m.components.map (·.name.ident) ++ m.components.flatMap (·.names)

/-- The activities of all components, as caches and libraries tell them apart. -/
def Model.qualifiedNames (m : Model) : List String :=
  m.components.flatMap fun c => (List.range c.activities.length).map c.qualified

/-- Names differ in each scope of a model, and over all of it once they are qualified. -/
structure Model.Distinct (m : Model) : Prop where
  recordTypes : (m.recordTypes.map (·.name.ident)).Nodup
  fields : ∀ r ∈ m.recordTypes, (r.fields.map (·.name.ident)).Nodup
  components : (m.components.map (·.name.ident)).Nodup
  within : ∀ c ∈ m.components, c.Distinct
  qualified : m.qualifiedNames.Nodup
  identifiers : ∀ name ∈ m.names, IsIdentifier name

/-! ### Constants and methods -/

theorem map_constant (c : Component) :
    c.synthesize.states.map (·.constant) = c.states.map fun s => "STATE_" ++ s.name.ident.toUpper := by
  show (c.states.zipIdx.map _).map _ = _
  conv_rhs => rw [← List.zipIdx_map_fst 0 c.states, List.map_map]
  rw [List.map_map]
  rfl

theorem map_method (c : Component) :
    c.synthesize.guards.map (·.method) = (List.range c.guardCount).map guardMethod := by
  show ((c.transitions.filterMap (·.guard)).zipIdx.map _).map _ = _
  rw [Component.guardCount, ← List.length_filterMap_eq_countP, List.range_eq_range',
    ← List.zipIdx_map_snd, List.map_map, List.map_map]
  rfl

theorem isIdentifier_constant {s : State} (h : IsIdentifier s.name.ident) :
    IsIdentifier ("STATE_" ++ s.name.ident.toUpper) := by
  have hname : IsName "STATE_" := by decide +kernel
  exact (hname.append h.1.toUpper.isWord).isIdentifier (by simp)

theorem isIdentifier_guardMethod (n : Nat) : IsIdentifier (guardMethod n) := by
  have hname : IsName "guard_" := by decide +kernel
  exact (hname.append (Identifier.isWord_toString n)).isIdentifier (by simp)

theorem guardMethod_injective : Function.Injective guardMethod := by
  intro i j h
  have h := congrArg String.toList h
  simp only [guardMethod, String.toList_append, List.append_cancel_left_eq] at h
  exact toDigits_injective (by simpa [toString, Nat.repr] using h)

theorem guardMethod_notMem (n : Nat) : guardMethod n ∉ fixedMethods := by
  have hstart : ∀ method ∈ fixedMethods, ¬ "guard_".toList <+: method.toList := by decide +kernel
  intro hmem
  exact hstart _ hmem (by simp [guardMethod])

/-! ### Components -/

theorem NameTable.Lists.isIdentifier {t : NameTable} {scope : String} {kind : NameKind}
    {raws : List String} {names : List Name} (h : t.Lists scope kind raws names) (ht : t.Rendered) :
    ∀ n ∈ names, IsIdentifier n.ident :=
  fun n hn => ht.isIdentifier (h.held n hn)

namespace ComponentRun

variable {records : List RecordType} {d : Definition.Component} {c : Component} {t' : NameTable}
  (R : ComponentRun records t' d c)

include R

theorem rendered_after : R.after.Rendered :=
  R.stages.reaches.rendered R.rendered

theorem nodup_constants : (c.synthesize.states.map (·.constant)).Nodup := by
  have hkeys := R.stages.states.nodup_keys R.valid_after R.stages.stateNames
  have hmap : c.synthesize.states.map (·.constant) = ((c.states.map (·.name)).map fun n =>
      NameKind.key .state n.ident).map ("STATE_" ++ ·) := by
    rw [map_constant, List.map_map, List.map_map]
    rfl
  rw [hmap]
  exact hkeys.map fun s s' h => by simpa using h

/-- The methods are reserved before any activity has a name. -/
theorem reserves_methods : R.after.Reserves d.name .activity
    (fixedMethods ++ c.synthesize.guards.map (·.method)) := by
  obtain ⟨A⟩ := exists_activitiesStages R.stages.activities_eq
  have hempty := R.stages.names_afterAttributes.trans R.activities
  have hreserves := Naming.reserves_reserveAll hempty A.methods_eq
  have hkey : NameKind.key .activity = id := rfl
  rw [hkey, List.map_id, ← R.stages.transitionRun.countP_guard] at hreserves
  rw [map_method]
  exact (A.methods_reach.trans R.stages.afterActivities_reaches).reserves hreserves

theorem nodup_methods : c.methods.Nodup := by
  have hidents := R.stages.activities.nodup_idents R.valid_after R.stages.activityNames
  rw [List.map_map] at hidents
  refine List.Nodup.append ?_ hidents ?_
  · rw [map_method]
    refine List.Nodup.append (by decide +kernel) (List.nodup_range.map guardMethod_injective) ?_
    intro method hfixed hguard
    obtain ⟨n, -, rfl⟩ := List.mem_map.1 hguard
    exact guardMethod_notMem n hfixed
  · intro method hmethod hactivity
    obtain ⟨a, ha, rfl⟩ := List.mem_map.1 hactivity
    have hholds := R.stages.activities.held a.name (List.mem_map.2 ⟨a, ha, rfl⟩)
    exact R.reserves_methods.free _ _ hholds hmethod

theorem mnemonic_cases {command : Command} (h : command ∈ c.commands) :
    command ∈ lifecycleCommands ∨ ∃ ident, IsIdentifier ident ∧ command.mnemonic = ident.toUpper := by
  obtain ⟨hnamed, -, -⟩ := R.commands_named
  obtain hlife | ⟨signal, ident, hident, rfl⟩ := hnamed.named command h
  · exact .inl hlife
  · exact .inr ⟨ident, R.rendered_after.isIdentifier hident, rfl⟩

theorem distinct : c.Distinct := by
  obtain ⟨hnamed, hlifecycle, -⟩ := R.commands_named
  refine ⟨R.realizes.attributeIdents, R.nodup_constants, hlifecycle, R.realizes.mnemonics, ?_,
    R.nodup_methods⟩
  intro command hcommand
  obtain hlife | ⟨ident, -, hmnemonic⟩ := R.mnemonic_cases hcommand
  · have hupper : ∀ command ∈ lifecycleCommands, command.mnemonic.toUpper = command.mnemonic := by
      decide +kernel
    exact hupper command hlife
  · rw [hmnemonic, toUpper_toUpper]

theorem isIdentifier_names : ∀ name ∈ c.names, IsIdentifier name := by
  have hrendered := R.rendered_after
  intro name hname
  simp only [Component.names, Component.methods, map_constant, map_method, List.mem_append,
    List.mem_map] at hname
  obtain ((⟨f, hf, rfl⟩ | ⟨s, hs, rfl⟩) | ⟨command, hcommand, rfl⟩) |
    (hfixed | ⟨n, -, rfl⟩) | ⟨a, ha, rfl⟩ := hname
  · exact R.stages.attributes.isIdentifier hrendered _ (List.mem_map.2 ⟨f, hf, rfl⟩)
  · exact isIdentifier_constant (R.stages.states.isIdentifier hrendered _ (List.mem_map.2 ⟨s, hs, rfl⟩))
  · obtain hlife | ⟨ident, hident, hmnemonic⟩ := R.mnemonic_cases hcommand
    · have hlifecycle : ∀ command ∈ lifecycleCommands, IsIdentifier command.mnemonic := by
        decide +kernel
      exact hlifecycle command hlife
    · rw [hmnemonic]
      exact hident.toUpper
  · have hmethods : ∀ method ∈ fixedMethods, IsIdentifier method := by decide +kernel
    exact hmethods name hfixed
  · exact isIdentifier_guardMethod n
  · exact R.stages.activities.isIdentifier hrendered _ (List.mem_map.2 ⟨a, ha, rfl⟩)

end ComponentRun

/-! ### Models -/

theorem Model.Resolved.nodup_qualifiedNames {m : Model} (hm : m.Resolved) : m.qualifiedNames.Nodup := by
  refine List.nodup_flatMap.2 ⟨fun c hc => ?_, ?_⟩
  · refine List.nodup_range.map_on fun i hi j hj h => ?_
    exact (hm.qualified_injective hc hc (List.mem_range.1 hi) (List.mem_range.1 hj) h).2
  · refine hm.componentIdents.of_map.imp_of_mem fun {c c'} hc hc' hne name hname hname' => ?_
    obtain ⟨i, hi, rfl⟩ := List.mem_map.1 hname
    obtain ⟨j, hj, heq⟩ := List.mem_map.1 hname'
    exact hne (hm.qualified_injective hc hc' (List.mem_range.1 hi) (List.mem_range.1 hj) heq.symm).1

theorem ModelStages.isIdentifier_names {d : Definition} {m : Model} (S : ModelStages d m) :
    ∀ name ∈ m.names, IsIdentifier name := by
  intro name hname
  simp only [Model.names, List.mem_append, List.mem_map, List.mem_flatMap] at hname
  obtain ((⟨r, hr, rfl⟩ | ⟨r, hr, f, hf, rfl⟩) | ⟨c, hc, rfl⟩) | ⟨c, hc, hname⟩ := hname
  · exact S.records.isIdentifier S.rendered_afterRecords _ (List.mem_map.2 ⟨r, hr, rfl⟩)
  · obtain ⟨d, -, -, hlists⟩ := exists_of_forall₂ S.fields.flip hr
    exact hlists.isIdentifier S.rendered_afterRecords _ (List.mem_map.2 ⟨f, hf, rfl⟩)
  · exact S.components.isIdentifier S.rendered_afterComponents _ (List.mem_map.2 ⟨c, hc, rfl⟩)
  · obtain ⟨d, -, ⟨R⟩⟩ := exists_of_forall₂ S.componentRuns.flip hc
    exact R.isIdentifier_names name hname

/-! ### A sample of near collisions

Texts that make the same identifier, that differ in case alone, and that make names which the
emitted class has anyway. -/

namespace Sample

def twinsDefinition : Definition where
  recordTypes := [⟨"Pose", [⟨"new", .bool⟩, ⟨"new_", .bool⟩]⟩, ⟨"Pose!", []⟩]
  components := [
    { name := "Arm"
      attributes := [⟨"current state", .bool⟩, ⟨"currentState", .bool⟩]
      machine := {
        name := "Cycle"
        initial := "on"
        states := [⟨"on", []⟩, ⟨"ON", []⟩]
        transitions := [
          ⟨"on", "ON", some "currentState", some "start state machine"⟩,
          ⟨"ON", "on", none, some "Start-State-Machine"⟩] }
      activities := [⟨"guard 0", [], []⟩] },
    { name := "Arm."
      attributes := []
      machine := ⟨"Cycle", "on", [⟨"on", []⟩], []⟩
      activities := [⟨"guard 0", [], []⟩] }]

theorem exists_build_twinsDefinition : ∃ m, Model.build twinsDefinition = .ok m :=
  exists_of_isOk (by decide +kernel)

end Sample

/-- Whatever the texts of a definition are, the names of the model that it gives are distinct
identifiers. -/
theorem Model.distinct_of_build {d : Definition} {m : Model} (h : Model.build d = .ok m) :
    m.Distinct := by
  obtain ⟨S⟩ := exists_modelStages h
  have hm := Model.resolved_of_build h
  exact ⟨hm.recordIdents, hm.fieldIdents, hm.componentIdents,
    forall_of_forall₂ S.componentRuns fun _ _ ⟨R⟩ => R.distinct, hm.nodup_qualifiedNames,
    S.isIdentifier_names⟩

theorem Sample.distinct_twins : ∃ m, Model.build twinsDefinition = .ok m ∧ m.Distinct := by
  obtain ⟨m, hm⟩ := exists_build_twinsDefinition
  exact ⟨m, hm, Model.distinct_of_build hm⟩

end FlightGen
