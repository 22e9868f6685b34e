import FlightGen.Proofs.Artifact.Closure
import FlightGen.Proofs.Generation

/-! What is gathered for a component of a built model. Once the activities of its states are
compiled, no routine is missing. All routines are of the component itself, each call among them is
of a routine that is there too, and the record types that they name are those of the model. -/

namespace FlightGen

/-! ### Compiled activities -/

section

variable {m : Model} {c : Component} {s : Compilation} {indices : List Nat}

theorem grows_compileActivities (hs : s.Of m) (hc : c ∈ m.components) :
    s.Grows (compileActivities m c s indices).2 := by
  induction indices generalizing s with
  | nil => exact .refl s
  | cons i indices ih =>
    rw [compileActivities_cons]
    exact (grows_compile hs.stack i).trans (ih (.request hs hc i))

/-- If none of some activities fails, there is a routine for each of them. -/
theorem exists_routine_of_compileActivities (hs : s.Of m) (hc : c ∈ m.components)
    (hindices : ∀ i ∈ indices, i < c.activities.length)
    (h : (compileActivities m c s indices).1 = []) :
    ∀ i ∈ indices, ∃ r,
      (compileActivities m c s indices).2.library.find? (c.qualified i) = some r := by
  induction indices generalizing s with
  | nil => simp
  | cons i indices ih =>
    have hnext : ((compile m c i).run.run s).2.Of m := .request hs hc i
    obtain ⟨hi, hindices⟩ := List.forall_mem_cons.1 hindices
    have hlookup := hs.lookup_compile hc hi
    rw [compileActivities_cons] at h ⊢
    obtain ⟨hfirst, hrest⟩ := List.append_eq_nil_iff.1 h
    refine List.forall_mem_cons.2 ⟨?_, ih hnext hindices hrest⟩
    cases hanswer : ((compile m c i).run.run s).1 with
    | error e =>
      rw [hanswer] at hfirst
      cases hfirst
    | ok r =>
      -- The routine was there right after the request, and results stay.
      rw [hanswer] at hlookup
      have hgrows : ((compile m c i).run.run s).2.Grows
          (compileActivities m c ((compile m c i).run.run s).2 indices).2 :=
        grows_compileActivities hnext hc
      have hstays := lookup_of_isPrefix hgrows.results hlookup
      exact ⟨r, (compileActivities_of hnext hc).find?_library.2 (mem_of_lookup hstays)⟩

end

namespace Compilation.Of

variable {m : Model} {c : Component} {s : Compilation} {name : String} {r : Routine}

/-- Calls lead from the activities of a component to activities of the same component. -/
theorem exists_index (hs : s.Of m) (hm : m.Resolved) (hc : c ∈ m.components)
    (hrequests : ∀ i ∈ c.stateActivities, i < c.activities.length)
    (h : s.library.LeadsTo c.synthesize.referenced name) :
    ∃ i < c.activities.length, name = c.qualified i := by
  refine h.induction (P := fun name => ∃ i < c.activities.length, name = c.qualified i)
    (fun name hname => ?_) ?_
  · obtain ⟨i, hi, rfl⟩ := mem_referenced hname
    exact ⟨i, hrequests i hi, rfl⟩
  · rintro name r ⟨i, hi, rfl⟩ hr name' hname'
    obtain ⟨c', hc', j, hj, hname, -, hcalls⟩ := hs.exists_activity hm hr
    obtain ⟨rfl, rfl⟩ := hm.qualified_injective hc hc' hi hj hname
    obtain ⟨k, hk, hname', -⟩ := hcalls name' hname'
    exact ⟨k, hk, hname'⟩

/-- If there is a routine for each activity of the states, there is one for each name that calls
lead to. -/
theorem not_lacks (hs : s.Of m) (hm : m.Resolved)
    (hstates : ∀ i ∈ c.stateActivities, ∃ r, s.library.find? (c.qualified i) = some r) :
    ¬ s.library.Lacks c.synthesize.referenced name := by
  rintro ⟨hleads, hnone⟩
  have hsome : ∃ r, s.library.find? name = some r := by
    refine hleads.induction (P := fun name => ∃ r, s.library.find? name = some r)
      (fun name hname => ?_) fun name r _ hr name' hname' => ?_
    · obtain ⟨i, hi, rfl⟩ := mem_referenced hname
      exact hstates i hi
    · obtain ⟨c', -, i, -, -, -, hcalls⟩ := hs.exists_activity hm hr
      obtain ⟨j, -, -, -, hr'⟩ := hcalls name' hname'
      exact hr'
  obtain ⟨r, hr⟩ := hsome
  cases hnone.symm.trans hr

/-- The routine under the name of an activity was lowered from it. -/
theorem exists_flow (hs : s.Of m) (hm : m.Resolved) (hc : c ∈ m.components) {i : Nat}
    (hi : i < c.activities.length) (hr : s.library.find? (c.qualified i) = some r) :
    ∃ f : Flow, f.Compiled m s.results (c.qualified i) r ∧ f.component = c ∧
      c.activities[i]? = some f.activity := by
  obtain ⟨f, hf⟩ := hs.sound.compiled (hs.find?_library.1 hr)
  obtain ⟨j, hactivity, hname⟩ := hf.name
  obtain ⟨rfl, rfl⟩ := hm.qualified_injective hc hf.of.component hi
    (List.getElem?_eq_some_iff.1 hactivity).1 hname
  exact ⟨f, hf, rfl, hactivity⟩

end Compilation.Of

/-! ### Calls -/

/-- A call is of a routine among the results, by its name and its method. -/
theorem Flow.Compiled.exists_callee {f : Flow} {m : Model} {results : Results} {name : String}
    {r : Routine} (hf : f.Compiled m results name r) (hm : m.Resolved) {s : Step} (hs : s ∈ r.steps)
    {result : Option (String × DataType)} {target method : String} {arguments : List String}
    (h : s.operation = .call result target method arguments) :
    ∃ name' r' var, (name', .ok r') ∈ results ∧ target = r'.qualified ∧ method = r'.ident ∧
      result = r'.outputs.head?.map fun slot => (var, slot.type) := by
  obtain ⟨L⟩ := f.exists_lowering hf.lower
  obtain ⟨n, -, hstands⟩ := exists_of_forall₂ (L.stands (hf.of.resolved hm)).flip hs
  have hperforms := hstands.performs
  rw [h] at hperforms
  cases hperforms with
  | @call callee _ routine _ hcall hroutine _ =>
    obtain ⟨r', hr', hmem⟩ := hf.callees n callee _ hcall
    cases hroutine.symm.trans hr'
    exact ⟨_, routine, _, hmem, rfl, rfl, rfl⟩

/-! ### Record types -/

/-- A routine names a record type: that of a parameter, or of a variable that takes an input, a new
object or the result of a call. -/
inductive Routine.Mentions (r : Routine) (name : String) : Prop
  | input {slot : Slot} (hslot : slot ∈ r.inputs) (h : slot.type = .record name)
  | output {slot : Slot} (hslot : slot ∈ r.outputs) (h : slot.type = .record name)
  | receive {s : Step} {parameter var : String} {copy : Bool} (hs : s ∈ r.steps)
      (h : s.operation = .receive parameter var (.record name) copy)
  | create {s : Step} {var : String} {fields : List (String × Scalar)} (hs : s ∈ r.steps)
      (h : s.operation = .create var name fields)
  | result {s : Step} {var target method : String} {arguments : List String} (hs : s ∈ r.steps)
      (h : s.operation = .call (some (var, .record name)) target method arguments)

theorem DataType.record?_eq_some {type : DataType} {name : String} :
    type.record? = some name ↔ type = .record name := by
  cases type <;> simp [record?]

theorem Routine.mem_recordNames {r : Routine} {name : String} :
    name ∈ r.recordNames ↔ r.Mentions name := by
  simp only [recordNames, List.mem_append, List.mem_filterMap, DataType.record?_eq_some]
  constructor
  · rintro (⟨slot, hslot | hslot, h⟩ | ⟨s, hs, h⟩)
    · exact .input hslot h
    · exact .output hslot h
    · unfold Operation.record? at h
      split at h
      · rename_i hoperation
        rw [DataType.record?_eq_some.1 h] at hoperation
        exact .receive hs hoperation
      · rename_i hoperation
        cases h
        exact .create hs hoperation
      · rename_i hoperation
        rw [DataType.record?_eq_some.1 h] at hoperation
        exact .result hs hoperation
      · cases h
  · rintro (⟨hslot, h⟩ | ⟨hslot, h⟩ | ⟨hs, h⟩ | ⟨hs, h⟩ | ⟨hs, h⟩)
    · exact .inl ⟨_, .inl hslot, h⟩
    · exact .inl ⟨_, .inr hslot, h⟩
    all_goals exact .inr ⟨_, hs, by rw [h]; rfl⟩

namespace Flow

variable {f : Flow} {m : Model} {results : Results} {name : String} {r : Routine}

/-- The type of a parameter is that of a record type there is. -/
theorem mem_records_of_dataType (hf : f.activity.Resolved f.records.length) {n : Nat}
    {direction : Direction} {parameter : Name} {type : ParameterType} {source : Option Outlet}
    (h : f.action n = .parameter direction parameter type source)
    (htype : f.dataType type = .record name) : name ∈ f.records.map (·.name.ident) := by
  cases type with
  | scalar => cases htype
  | record index =>
    have hlt : index < f.records.length := hf.record_lt (n := n) index (by
      rw [show f.activity.action n = _ from h]
      rfl)
    rw [dataType, List.getElem?_eq_getElem hlt] at htype
    cases htype
    exact List.mem_map_of_mem (List.getElem_mem hlt)

theorem mem_records_of_slot (hf : f.activity.Resolved f.records.length) {direction : Direction}
    {slot : Slot} (hslot : slot ∈ f.slots direction) (htype : slot.type = .record name) :
    name ∈ f.records.map (·.name.ident) := by
  obtain ⟨n, hn, hslot⟩ := List.mem_filterMap.1 hslot
  obtain ⟨parameter, type, source, h⟩ := mem_parameters.1 hn
  cases (slot?_eq hf h).symm.trans hslot
  exact mem_records_of_dataType hf h htype

theorem Compiled.mem_records_of_output (hf : f.Compiled m results name r) (hm : m.Resolved)
    {slot : Slot} (hslot : slot ∈ r.outputs) {record : String}
    (htype : slot.type = .record record) : record ∈ m.recordTypes.map (·.name.ident) := by
  obtain ⟨L⟩ := f.exists_lowering hf.lower
  have hresolved := hf.of.resolved hm
  rw [← hf.of.records]
  rw [L.outputs_eq] at hslot
  exact mem_records_of_slot hresolved hslot htype

/-- The record types that a routine names are those of the model. -/
theorem Compiled.mem_records (hf : f.Compiled m results name r) (hm : m.Resolved)
    (hresults : Results.Sound m results) {record : String} (h : r.Mentions record) :
    record ∈ m.recordTypes.map (·.name.ident) := by
  obtain ⟨L⟩ := f.exists_lowering hf.lower
  have hresolved := hf.of.resolved hm
  have hperforms {s : Step} (hs : s ∈ r.steps) :
      ∃ n, f.Performs L.vars L.written n s.operation := by
    obtain ⟨n, -, hstands⟩ := exists_of_forall₂ (L.stands hresolved).flip hs
    exact ⟨n, hstands.performs⟩
  cases h with
  | input hslot h =>
    rw [L.inputs_eq] at hslot
    exact hf.of.records ▸ mem_records_of_slot hresolved hslot h
  | output hslot h => exact hf.mem_records_of_output hm hslot h
  | receive hs h =>
    obtain ⟨n, hp⟩ := hperforms hs
    rw [h] at hp
    generalize htype : DataType.record record = type at hp
    cases hp with
    | receive haction =>
      exact hf.of.records ▸ mem_records_of_dataType hresolved haction htype.symm
  | create hs h =>
    obtain ⟨n, hp⟩ := hperforms hs
    rw [h] at hp
    cases hp with
    | @create index _ haction hrecord =>
      have hlt : index < f.records.length := hresolved.record_lt (n := n) index (by
        rw [show f.activity.action n = _ from haction]
        rfl)
      rw [List.getElem?_eq_getElem hlt, Option.getD_some] at hrecord
      rw [← hrecord, ← hf.of.records]
      exact List.mem_map_of_mem (List.getElem_mem hlt)
  | result hs h =>
    -- The type of the result is that of an output of the called routine.
    obtain ⟨name', r', var, hr', -, -, hresult⟩ := hf.exists_callee hm hs h
    obtain ⟨f', hf'⟩ := hresults.compiled hr'
    obtain ⟨slot, hslot, heq⟩ := Option.map_eq_some_iff.1 hresult.symm
    exact hf'.mem_records_of_output hm (List.mem_of_mem_head? hslot) (Prod.mk.inj heq).2

end Flow

end FlightGen
