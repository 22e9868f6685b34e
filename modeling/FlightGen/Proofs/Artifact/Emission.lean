import FlightGen.Proofs.Artifact.Outline
import FlightGen.Proofs.Artifact.Profile

/-! Emission is closed. The files of a component declare and define every method that they call and
declare every record type that they name, and no component of a built model fails for want of a
routine. -/

namespace FlightGen

open Emitted

/-- A method that the emitted code calls, with the name of the activity behind it. -/
inductive Bundle.Invokes (b : Bundle) : String → String → Prop
  | arm {arm : Machine.Arm} {a : Machine.ActivityRef} (harm : arm ∈ b.machine.arms)
      (ha : a ∈ arm.activities) : Invokes b a.qualified a.ident
  | call {r : Routine} {s : Step} {result : Option (String × DataType)} {target method : String}
      {arguments : List String} (hr : r ∈ b.routines) (hs : s ∈ r.steps)
      (h : s.operation = .call result target method arguments) : Invokes b target method

/-- The header declares the method of a routine, and the implementation defines it with the same
signature. -/
structure Bundle.Renders (b : Bundle) (p : Profile) (r : Routine) : Prop where
  declared : r.signature "" ++ ";" ∈ contents p (Header.lines p b)
  defined : r.signature (b.className ++ "::") :: "\x7b" ::
    contents p (.note ("Activity: " ++ r.raw) :: r.steps.flatMap Implementation.stepLines) ++
      ["\x7d", ""] <:+: contents p (Implementation.lines p b)

/-- What is gathered for a component lacks nothing. -/
structure Bundle.Complete (b : Bundle) (p : Profile) (c : Component) (l : Library) : Prop where
  machine : b.machine = c.synthesize
  /-- The routines are those that calls lead to from the arms, in the order of their names. -/
  ordered : Library.Ordered b.routines
  found : ∀ r ∈ b.routines, l.find? r.qualified = some r
  reached : ∀ name, name ∈ b.routines.map (·.qualified) ↔ l.LeadsTo c.synthesize.referenced name
  rendered : ∀ r ∈ b.routines, b.Renders p r
  invoked : ∀ name method, b.Invokes name method →
    ∃ r ∈ b.routines, r.qualified = name ∧ r.ident = method
  records : ∀ r ∈ b.routines, ∀ name, r.Mentions name →
    (readings Landmark.read? p (Header.lines p b)).count (.record name) = 1

/-- The errors with which the emission of a component can end. -/
inductive Component.Rejected (c : Component) (path : String) (l : Library) : EmitError → Prop
  | path {segment : String} (h : Identifier.invalidSegment? path = some segment) :
      Rejected c path l (.invalidNamespace path segment)
  | outputs {r : Routine} (hr : l.LeadsTo c.synthesize.referenced r.qualified)
      (hfind : l.find? r.qualified = some r) (h : 1 < r.outputs.length) :
      Rejected c path l
        (.model (.multipleOutputs (c.name.raw ++ "::" ++ r.raw) r.outputs.length))

/-! ### Rendering -/

section Rendering

variable {p : Profile} {b : Bundle} {r : Routine}

theorem contents_inNamespaces (namespaces : List String) (lines : List Line) :
    contents p lines <:+: contents p (inNamespaces namespaces lines) := by
  induction namespaces with
  | nil => exact List.infix_rfl
  | cons name namespaces ih =>
    change _ <:+: contents p (Line.enclose _ (inNamespaces namespaces lines) _)
    rw [Line.enclose, ← List.singleton_append, contents_append, contents_append, contents_indent]
    exact ih.trans (List.infix_append _ _ _)

theorem infix_flatMap {α β : Type} (f : α → List β) {xs : List α} {x : α} (hx : x ∈ xs) :
    f x <:+: xs.flatMap f := by
  obtain ⟨before, after, rfl⟩ := List.append_of_mem hx
  rw [List.flatMap_append, List.flatMap_cons, ← List.append_assoc]
  exact List.infix_append _ _ _

theorem infix_contents_titled (title : String) (lines : List Line) :
    contents p lines <:+: contents p (Header.titled title lines) := by
  unfold Header.titled
  split
  · exact List.infix_rfl
  · rw [contents_append]
    exact (List.suffix_append _ _).isInfix

theorem Header.infix_classLines (p : Profile) (b : Bundle) :
    contents p (classLines p b) <:+: contents p (lines p b) := by
  unfold lines
  dsimp only
  rw [contents_append, contents_append]
  refine List.IsInfix.trans ?_ (List.infix_append _ _ _)
  refine List.IsInfix.trans ?_ (contents_inNamespaces _ _)
  rw [contents_append, contents_append]
  exact List.infix_append _ _ _

theorem Bundle.declared (p : Profile) (hr : r ∈ b.routines) :
    r.signature "" ++ ";" ∈ contents p (Header.lines p b) := by
  have hline : r.signature "" ++ ";" ∈
      contents p (b.routines.map fun r => Line.code (r.signature "" ++ ";")) :=
    List.mem_map.2 ⟨_, List.mem_map.2 ⟨r, hr, rfl⟩, rfl⟩
  have hprivate : r.signature "" ++ ";" ∈ contents p (Header.privateLines p b) := by
    simp only [Header.privateLines, contents_append, List.mem_append]
    exact .inl (.inr ((infix_contents_titled _ _).subset hline))
  refine (Header.infix_classLines p b).subset ?_
  simp only [Header.classLines, contents_append, contents_enclose, contents_indent,
    List.mem_append, List.mem_cons]
  tauto

theorem Bundle.defined (p : Profile) (hr : r ∈ b.routines) :
    contents p (Implementation.routineLines b r) <:+: contents p (Implementation.lines p b) := by
  have hroutines : contents p (Implementation.routineLines b r) <:+:
      contents p (b.routines.flatMap (Implementation.routineLines b)) := by
    rw [contents, contents, List.map_flatMap]
    exact infix_flatMap (fun r => contents p (Implementation.routineLines b r)) hr
  have hbody : contents p (b.routines.flatMap (Implementation.routineLines b)) <:+:
      contents p (Implementation.bodyLines b) := by
    rw [Implementation.bodyLines, contents_append]
    exact (List.suffix_append _ _).isInfix
  refine (hroutines.trans hbody).trans ?_
  rw [Implementation.lines, contents_append]
  refine List.IsInfix.trans ?_ (List.suffix_append _ _).isInfix
  refine List.IsInfix.trans ?_ (contents_inNamespaces _ _)
  rw [contents_append, contents_append]
  exact List.infix_append _ _ _

theorem Bundle.renders (p : Profile) (hr : r ∈ b.routines) : b.Renders p r := by
  refine ⟨Bundle.declared p hr, ?_⟩
  have hdefined := Bundle.defined p hr
  rwa [Implementation.routineLines, contents_method] at hdefined

end Rendering

/-! ### Components of a model -/

namespace Bundle.Collected

variable {d : Definition} {m : Model} {c : Component} {s : Compilation} {path : String} {b : Bundle}
  {r : Routine} (hb : Collected path c.synthesize s.library m.recordTypes b) (hm : m.Resolved)
  (hc : c ∈ m.components) (hs : s.Of m)
  (hrequests : ∀ i ∈ c.stateActivities, i < c.activities.length)

include hb hm hc hs hrequests

/-- Each routine was lowered from an activity of the component. -/
theorem exists_flow (hr : r ∈ b.routines) :
    ∃ f : Flow, ∃ i, f.Compiled m s.results (c.qualified i) r ∧ f.component = c ∧
      c.activities[i]? = some f.activity := by
  obtain ⟨hleads, hfind⟩ := ((hs.reachable_eq_ok hb.reached).2.1 r).1 hr
  obtain ⟨i, hi, hname⟩ := hs.exists_index hm hc hrequests hleads
  rw [hname] at hfind
  obtain ⟨f, hf, hcomponent, hactivity⟩ := hs.exists_flow hm hc hi hfind
  exact ⟨f, i, hf, hcomponent, hactivity⟩

/-- Calls of the emitted code are of routines that are there. -/
theorem invoked {name method : String} (h : b.Invokes name method) :
    ∃ r ∈ b.routines, r.qualified = name ∧ r.ident = method := by
  obtain ⟨-, hmem, hall⟩ := hs.reachable_eq_ok hb.reached
  cases h with
  | @arm arm a harm ha =>
    rw [hb.machine] at harm
    have hname : a.qualified ∈ c.synthesize.referenced := by
      rw [Machine.referenced, List.mem_eraseDups, List.mem_flatMap]
      exact ⟨arm, harm, List.mem_map_of_mem ha⟩
    obtain ⟨r, hr, hfind⟩ := hall _ (.self hname)
    refine ⟨r, hr, hs.qualified_eq hfind, ?_⟩
    obtain ⟨i, state, hstate, rfl⟩ := Component.mem_arms harm
    obtain ⟨j, hj, rfl⟩ := List.mem_map.1 ha
    have hrequest : j ∈ c.stateActivities := by
      rw [Component.stateActivities, List.mem_eraseDups]
      exact List.mem_flatMap.2 ⟨state, List.mem_of_getElem? hstate, hj⟩
    obtain ⟨f, hf, -, hactivity⟩ := hs.exists_flow hm hc (hrequests j hrequest) hfind
    obtain ⟨L⟩ := f.exists_lowering hf.lower
    simp [Component.activityRef, Component.activityIdent, hactivity, L.ident_eq]
  | @call r step result target method arguments hr hstep h =>
    obtain ⟨hleads, hfind⟩ := (hmem r).1 hr
    obtain ⟨f, i, hf, -, -⟩ := hb.exists_flow hm hc hs hrequests hr
    obtain ⟨L⟩ := f.exists_lowering hf.lower
    have hcall : name ∈ r.calls := L.mem_calls.2 ⟨step, hstep, by rw [h]; rfl⟩
    obtain ⟨name', callee, var, hcallee, rfl, rfl, -⟩ := hf.exists_callee hm hstep h
    obtain ⟨f', hf'⟩ := hs.sound.compiled hcallee
    obtain ⟨r', hr', hfind'⟩ := hall _ (hleads.call hfind hcall)
    rw [← hf'.qualified] at hcallee
    cases (hs.find?_library.2 hcallee).symm.trans hfind'
    exact ⟨callee, hr', rfl, rfl⟩

/-- The types and classes of a header are named by identifiers of the model. -/
theorem named (S : ModelStages d m) : b.Named := by
  have hrecord {name : String} (h : name ∈ m.recordTypes.map (·.name.ident)) : IsIdentifier name :=
    S.isIdentifier_names name (by simp only [Model.names, List.mem_append, h, true_or])
  refine ⟨?_, fun r hr => ?_, fun r hr slot hslot name htype => ?_⟩
  · rw [hb.machine]
    refine S.isIdentifier_names _ ?_
    simp only [Model.names, List.mem_append]
    exact .inl (.inr (List.mem_map.2 ⟨c, hc, rfl⟩))
  · rw [hb.records] at hr
    exact hrecord (List.mem_map_of_mem (List.mem_filter.1 hr).1)
  · obtain ⟨f, i, hf, -, -⟩ := hb.exists_flow hm hc hs hrequests hr
    exact hrecord (hf.mem_records_of_output hm hslot htype)

/-- A record type that a routine names is declared once. -/
theorem count_record (S : ModelStages d m) (hr : r ∈ b.routines) {name : String}
    (h : r.Mentions name) (p : Profile) :
    (readings Landmark.read? p (Header.lines p b)).count (.record name) = 1 := by
  obtain ⟨f, i, hf, -, -⟩ := hb.exists_flow hm hc hs hrequests hr
  have hmem : name ∈ b.records.map (·.name.ident) := by
    obtain ⟨record, hrecord, rfl⟩ := List.mem_map.1 (hf.mem_records hm hs.sound h)
    refine List.mem_map.2 ⟨record, ?_, rfl⟩
    rw [hb.records, List.mem_filter, decide_eq_true_eq]
    exact ⟨hrecord, List.mem_flatMap.2 ⟨r, hr, Routine.mem_recordNames.2 h⟩⟩
  have hnodup : (b.records.map (·.name.ident)).Nodup := by
    rw [hb.records]
    exact hm.recordIdents.sublist (List.filter_sublist.map _)
  have hcount (records : List RecordType) : (records.flatMap (·.outline)).count (.record name) =
      (records.map (·.name.ident)).count name := by
    induction records with
    | nil => rfl
    | cons record records ih =>
      rw [List.flatMap_cons, List.count_append, ih]
      simp [RecordType.outline, List.count_cons, Nat.add_comm]
  have hnamed := hb.named hm hc hs hrequests S
  rw [Header.landmarks_lines hnamed, Bundle.outline, List.count_append, List.count_append, hcount,
    List.count_eq_one_of_mem hnodup hmem]
  rfl

theorem complete (S : ModelStages d m) (p : Profile) : b.Complete p c s.library := by
  obtain ⟨hordered, hmem, hall⟩ := hs.reachable_eq_ok hb.reached
  refine ⟨hb.machine, hordered, fun r hr => ((hmem r).1 hr).2, fun name => ⟨fun hname => ?_,
    fun hleads => ?_⟩, fun r hr => renders p hr, fun name method =>
    hb.invoked hm hc hs hrequests, fun r hr name h => ?_⟩
  · obtain ⟨r, hr, rfl⟩ := List.mem_map.1 hname
    exact ((hmem r).1 hr).1
  · obtain ⟨r, hr, hfind⟩ := hall name hleads
    exact List.mem_map.2 ⟨r, hr, hs.qualified_eq hfind⟩
  · exact hb.count_record hm hc hs hrequests S hr h p

end Bundle.Collected

/-! ### Emission -/

section Emission

variable {m : Model} {c : Component} {s : Compilation} {settings : Settings}

theorem emit_eq_ok {m : Machine} {l : Library} {records : List RecordType} {a : Artifacts}
    (h : emit settings m l records = .ok a) : ∃ b, Bundle.Collected settings.path m l records b ∧
      a.header = b.headerFile settings.profile ∧
      a.implementation = b.implementationFile settings.profile := by
  rw [emit_eq] at h
  cases hcollect : Bundle.collect settings.path m l records with
  | error e =>
    rw [hcollect] at h
    cases h
  | ok b =>
    rw [hcollect] at h
    cases h
    exact ⟨b, Bundle.collected hcollect, rfl, rfl⟩

theorem emit_eq_error {m : Machine} {l : Library} {records : List RecordType} {e : EmitError} :
    emit settings m l records = .error e ↔
      Bundle.collect settings.path m l records = .error e := by
  rw [emit_eq]
  cases Bundle.collect settings.path m l records <;> simp [Except.map]

/-- A component whose activities compile is not refused for want of a routine. -/
theorem Component.rejected_of_emit (hm : m.Resolved) (hc : c ∈ m.components)
    (hrequests : ∀ i ∈ c.stateActivities, i < c.activities.length) (hs : s.Of m)
    (hcompiled : (compileActivities m c s c.stateActivities).1 = []) {e : EmitError}
    (h : emitComponent settings m c (compileActivities m c s c.stateActivities).2 = .error e) :
    c.Rejected settings.path (compileActivities m c s c.stateActivities).2.library e := by
  have hroutines := exists_routine_of_compileActivities hs hc hrequests hcompiled
  have hs' : (compileActivities m c s c.stateActivities).2.Of m := compileActivities_of hs hc
  cases Bundle.refused (emit_eq_error.1 h) with
  | path hsegment => exact .path hsegment
  | missing _ hname => exact absurd (Library.reachable_eq_error hname) (hs'.not_lacks hm hroutines)
  | outputs _ hreached hr hmany =>
    obtain ⟨hleads, hfind⟩ := ((hs'.reachable_eq_ok hreached).2.1 _).1 hr
    exact .outputs hleads hfind hmany

/-- The failures that a report has on a component are those of its activities, or that of its
emission. -/
theorem Component.exists_emit_error {f : Failure} (hf : f ∈ (c.alone settings m).failures)
    {e : EmitError} (he : f.error = .emit e) (hm : m.Resolved) (hc : c ∈ m.components)
    (hrequests : ∀ i ∈ c.stateActivities, i < c.activities.length) :
    (compileActivities m c {} c.stateActivities).1 = [] ∧
      emitComponent settings m c (compileActivities m c {} c.stateActivities).2 = .error e := by
  have hfailing := Component.forall₂_failing hm hc hrequests
  rw [Component.alone_eq] at hf
  cases hfailures : (compileActivities m c {} c.stateActivities).1 with
  | cons f' failures =>
    rw [hfailures] at hf hfailing
    obtain ⟨i, -, e', rfl⟩ := exists_of_forall₂ hfailing.flip hf
    cases he
  | nil =>
    rw [hfailures] at hf
    refine ⟨rfl, ?_⟩
    cases hemit : emit settings c.synthesize (c.ownLibrary m) m.recordTypes with
    | ok a =>
      rw [hemit] at hf
      cases hf
    | error e' =>
      rw [hemit] at hf
      cases List.mem_singleton.1 hf
      cases he
      exact hemit

end Emission

/-- No activity of the pump has several outputs. -/
theorem Sample.outputs_pump {s : Compilation} (hs : s.Of pumpModel) {r : Routine}
    (hleads : s.library.LeadsTo pump.synthesize.referenced r.qualified)
    (hfind : s.library.find? r.qualified = some r) : r.outputs.length ≤ 1 := by
  have hm := Model.resolved_of_build build_pumpDefinition
  have hpump : pump ∈ pumpModel.components := List.mem_singleton_self pump
  obtain ⟨S⟩ := exists_modelStages build_pumpDefinition
  obtain ⟨i, hi, hname⟩ := hs.exists_index hm hpump
    ((S.linked.closed hm).components pump hpump).requests hleads
  rw [hname] at hfind
  obtain ⟨f, hf, -, hactivity⟩ := hs.exists_flow hm hpump hi hfind
  obtain ⟨L⟩ := f.exists_lowering hf.lower
  have hall : pump.activities.all (fun a => decide ((a.parameters .output).length ≤ 1)) = true := by
    decide +kernel
  have hone := of_decide_eq_true
    (List.all_eq_true.1 hall f.activity (List.mem_of_getElem? hactivity))
  rw [L.outputs_eq, Flow.slots]
  exact (List.length_filterMap_le _ _).trans hone

/-- A component of a model whose activities compile is emitted with all that its files call and
name, unless the namespace is invalid or a routine has several outputs. With any library, a routine
is reported as missing exactly if calls lead to it, and following them comes to an end. -/
theorem Model.emission_closed {d : Definition} {m : Model} (h : Model.build d = .ok m)
    (settings : Settings) :
    (∀ c ∈ m.components, ∀ s s' : Compilation, s.Of m →
      compileActivities m c s c.stateActivities = ([], s') →
      (∀ e, emitComponent settings m c s' = .error e → c.Rejected settings.path s'.library e) ∧
      ∀ a, emitComponent settings m c s' = .ok a → ∃ b : Bundle,
        a.header = b.headerFile settings.profile ∧
        a.implementation = b.implementationFile settings.profile ∧
        b.Complete settings.profile c s'.library) ∧
    (∀ f ∈ (generate settings m).failures, ∀ e, f.error = .emit e →
      ∃ c ∈ m.components, c.Rejected settings.path (c.ownLibrary m) e) ∧
    ∀ (machine : Machine) (l : Library) (records : List RecordType),
      (∃ x, l.Closes [] machine.referenced.reverse x ∧
        l.reachable machine.referenced =
          x.map fun entries => (sortEntries entries).map (·.2)) ∧
      ((∃ component activity,
        emit settings machine l records = .error (.missingActivity component activity)) ↔
        Identifier.invalidSegment? settings.path = none ∧
          ∃ name, l.Lacks machine.referenced name) := by
  have hm := Model.resolved_of_build h
  obtain ⟨S⟩ := exists_modelStages h
  have hrequests (c : Component) (hc : c ∈ m.components) :=
    ((S.linked.closed hm).components c hc).requests
  refine ⟨fun c hc s s' hs hcompiled => ⟨fun e he => ?_, fun a ha => ?_⟩, fun f hf e he => ?_,
    fun machine l records => ⟨l.closes_reachable machine.referenced, ?_⟩⟩
  · have hrejected : c.Rejected settings.path
        (compileActivities m c s c.stateActivities).2.library e :=
      Component.rejected_of_emit hm hc (hrequests c hc) hs (by rw [hcompiled]) (by rwa [hcompiled])
    rwa [hcompiled] at hrejected
  · obtain ⟨b, hb, hheader, himplementation⟩ := emit_eq_ok ha
    have hs' : s'.Of m := by
      have hof : (compileActivities m c s c.stateActivities).2.Of m := compileActivities_of hs hc
      rwa [hcompiled] at hof
    exact ⟨b, hheader, himplementation, hb.complete hm hc hs' (hrequests c hc) S _⟩
  · rw [(generate_eq_flatMap hm hrequests settings).2] at hf
    obtain ⟨c, hc, hf⟩ := List.mem_flatMap.1 hf
    obtain ⟨hcompiled, hemit⟩ := Component.exists_emit_error hf he hm hc (hrequests c hc)
    exact ⟨c, hc, Component.rejected_of_emit hm hc (hrequests c hc) .start hcompiled hemit⟩
  · simp only [emit_eq_error]
    exact Bundle.exists_missing_iff

/-- The pump is emitted with the activity of its state and the one that this calls. -/
theorem Sample.emission_closed_pump : ∃ s a, ∃ b : Bundle,
    compileActivities pumpModel pump {} pump.stateActivities = ([], s) ∧
      emitComponent {} pumpModel pump s = .ok a ∧ a.header = b.headerFile .production ∧
      b.Complete .production pump s.library := by
  obtain ⟨s, hcompiled⟩ : ∃ s,
      compileActivities pumpModel pump {} pump.stateActivities = ([], s) := by
    refine ⟨_, Prod.ext (List.isEmpty_iff.1 ?_) rfl⟩
    decide +kernel
  have hpump : pump ∈ pumpModel.components := List.mem_singleton_self pump
  obtain ⟨hstep, -, -⟩ := Model.emission_closed build_pumpDefinition {}
  obtain ⟨herror, hok⟩ := hstep pump hpump {} s .start hcompiled
  cases hemit : emitComponent {} pumpModel pump s with
  | ok a =>
    obtain ⟨b, hheader, -, hcomplete⟩ := hok a hemit
    exact ⟨s, a, b, hcompiled, hemit, hheader, hcomplete⟩
  | error e =>
    cases herror e hemit with
    | path hsegment =>
      have hvalid : Identifier.invalidSegment? ({} : Settings).path = none := by decide +kernel
      cases hvalid.symm.trans hsegment
    | outputs hleads hfind hmany =>
      have hs : s.Of pumpModel := by
        have hof : (compileActivities pumpModel pump {} pump.stateActivities).2.Of pumpModel :=
          compileActivities_of .start hpump
        rwa [hcompiled] at hof
      exact absurd hmany (Nat.not_lt.2 (outputs_pump hs hleads hfind))

end FlightGen
