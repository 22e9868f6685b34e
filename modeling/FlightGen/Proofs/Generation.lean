import FlightGen.Generation
import FlightGen.Proofs.Artifact.Reachable
import FlightGen.Proofs.Compilation.Isolation
import FlightGen.Proofs.Compilation.Memo
import FlightGen.Proofs.Model.Closed

/-! A run of the generator, component by component. Each one is reported as if it were alone in the
model: it has its files, or else it has failures, and these are one for each activity that does not
compile, or a single one of the emission. -/

namespace FlightGen

/-- The model without its other components. -/
def Model.only (m : Model) (c : Component) : Model :=
  { m with components := [c] }

/-- The library of a compiler that compiled the activities of the component's states alone. -/
def Component.ownLibrary (c : Component) (m : Model) : Library :=
  (compileActivities m c {} c.stateActivities).2.library

/-- The activities of the component's states that do not compile, in the order of their first use. -/
def Component.failing (c : Component) (m : Model) : List Nat :=
  c.stateActivities.filter fun i => !((compile m c i).run.run {}).1.isOk

/-- The failure of an activity. -/
def Component.FailsWith (c : Component) (i : Nat) (f : Failure) : Prop :=
  ∃ e, f = ⟨c.name.raw, failureChain c.name.raw (c.activityPath i) e, .compile e⟩

namespace Report

def componentsOf (r : Report) (c : Component) : List ComponentArtifacts :=
  r.components.filter (·.component = c.name.raw)

def failuresOf (r : Report) (c : Component) : List Failure :=
  r.failures.filter (·.component = c.name.raw)

end Report

/-- What a run has to report on a component of a model. -/
structure Component.Reported (c : Component) (settings : Settings) (m : Model) (r : Report) :
    Prop where
  /-- The component is there once and has no failure, or it is not there and has failures. -/
  complete :
    (∃ a, emit settings c.synthesize (c.ownLibrary m) m.recordTypes = .ok a ∧
      r.componentsOf c = [⟨c.name.raw, a⟩] ∧ r.failuresOf c = []) ∨
    (r.componentsOf c = [] ∧ r.failuresOf c ≠ [])
  distinct : (c.failing m).Nodup
  /-- There is one failure for each activity that does not compile. -/
  failed : c.failing m ≠ [] → List.Forall₂ c.FailsWith (c.failing m) (r.failuresOf c)
  /-- Where all of them compile, only the emission can fail. -/
  emitted : c.failing m = [] → r.failuresOf c ≠ [] →
    ∃ e, emit settings c.synthesize (c.ownLibrary m) m.recordTypes = .error e ∧
      r.failuresOf c = [⟨c.name.raw, [c.name.raw], .emit e⟩]
  /-- The report is the same where there are no other components. -/
  isolated : r.componentsOf c = (generate settings (m.only c)).components ∧
    r.failuresOf c = (generate settings (m.only c)).failures

/-! ### Compiling the activities of a component -/

/-- The failure that the answer to a request gives rise to. -/
def Component.failureOf (c : Component) (i : Nat) : Except CompileError Routine → List Failure
  | .ok _ => []
  | .error e => [⟨c.name.raw, failureChain c.name.raw (c.activityPath i) e, .compile e⟩]

theorem compileActivities_cons (m : Model) (c : Component) (s : Compilation) (i : Nat)
    (indices : List Nat) : compileActivities m c s (i :: indices) =
      (c.failureOf i ((compile m c i).run.run s).1 ++
        (compileActivities m c ((compile m c i).run.run s).2 indices).1,
        (compileActivities m c ((compile m c i).run.run s).2 indices).2) := by
  rw [compileActivities]
  generalize (compile m c i).run.run s = answer
  obtain ⟨e | r, s'⟩ := answer <;> rfl

section Activities

variable {m : Model} {c c' : Component} {s t : Compilation} {indices : List Nat}

theorem compileActivities_of (hs : s.Of m) (hc : c ∈ m.components) :
    (compileActivities m c s indices).2.Of m := by
  induction indices generalizing s with
  | nil => exact hs
  | cons i indices ih =>
    rw [compileActivities_cons]
    exact ih (.request hs hc i)

/-- The same failures arise from all states that agree on the component. -/
theorem compileActivities_agrees (hm : m.Resolved) (hc : c ∈ m.components) (hs : s.Of m)
    (hst : s.Agrees c t) (hindices : ∀ i ∈ indices, i < c.activities.length) :
    (compileActivities m c s indices).1 = (compileActivities m c t indices).1 ∧
      (compileActivities m c s indices).2.Agrees c (compileActivities m c t indices).2 := by
  induction indices generalizing s t with
  | nil => exact ⟨rfl, hst⟩
  | cons i indices ih =>
    obtain ⟨hi, hindices⟩ := List.forall_mem_cons.1 hindices
    obtain ⟨hanswer, hst'⟩ := hst.compile hm hc hi hs.stack
    obtain ⟨hfailures, hst''⟩ := ih (.request hs hc i) hst' hindices
    rw [compileActivities_cons, compileActivities_cons, hanswer, hfailures]
    exact ⟨rfl, hst''⟩

/-- Other components are left as they are. -/
theorem compileActivities_other (hm : m.Resolved) (hc : c ∈ m.components) (hc' : c' ∈ m.components)
    (hne : c ≠ c') (hs : s.Of m) : s.Agrees c (compileActivities m c' s indices).2 := by
  induction indices generalizing s with
  | nil => exact .refl c s
  | cons i indices ih =>
    rw [compileActivities_cons]
    exact (Compilation.Agrees.compile_other hm hc hc' hne hs.stack i).trans
      (ih (.request hs hc' i))

/-- What was compiled before does not decide which activities fail. -/
theorem isOk_compile (hm : m.Resolved) (hc : c ∈ m.components) (hs : s.Of m) {i : Nat}
    (hi : i < c.activities.length) :
    ((compile m c i).run.run s).1.isOk = ((compile m c i).run.run {}).1.isOk := by
  have hiff {x : Except CompileError Routine} : x.isOk = true ↔ ∃ r, x = .ok r := by
    cases x <;> simp [Except.isOk, Except.toBool]
  rw [Bool.eq_iff_iff, hiff, hiff, (hs.outcome hm hc hi).exists_ok_iff,
    (Compilation.Of.start.outcome hm hc hi).exists_ok_iff]

/-- There is one failure for each activity that does not compile. -/
theorem compileActivities_failures (hm : m.Resolved) (hc : c ∈ m.components) (hs : s.Of m)
    (hindices : ∀ i ∈ indices, i < c.activities.length) :
    List.Forall₂ c.FailsWith
      (indices.filter fun i => !((compile m c i).run.run {}).1.isOk)
      (compileActivities m c s indices).1 := by
  induction indices generalizing s with
  | nil => exact .nil
  | cons i indices ih =>
    obtain ⟨hi, hindices⟩ := List.forall_mem_cons.1 hindices
    have hrest := ih (.request hs hc i) hindices
    have hok := isOk_compile hm hc hs hi
    rw [compileActivities_cons, List.filter_cons, ← hok]
    cases hanswer : ((compile m c i).run.run s).1 with
    | ok r => exact hrest
    | error e => exact .cons ⟨e, rfl⟩ hrest

end Activities

/-! ### Emission -/

section Emission

variable {m : Model} {c : Component} {s t : Compilation}

theorem find?_library_congr (hs : s.Of m) (ht : t.Of m) (hst : s.Agrees c t) {i : Nat}
    (hi : i < c.activities.length) :
    s.library.find? (c.qualified i) = t.library.find? (c.qualified i) := by
  ext r
  rw [hs.find?_library, ht.find?_library, ← hs.sound.lookup_eq_some, ← ht.sound.lookup_eq_some,
    hst.results i hi]

theorem mem_referenced {name : String} (h : name ∈ c.synthesize.referenced) :
    ∃ i ∈ c.stateActivities, name = c.qualified i := by
  simp only [Machine.referenced, List.mem_eraseDups, List.mem_flatMap, List.mem_map] at h
  obtain ⟨arm, harm, reference, hreference, rfl⟩ := h
  obtain ⟨i, state, hstate, rfl⟩ := Component.mem_arms harm
  obtain ⟨j, hj, rfl⟩ := List.mem_map.1 hreference
  refine ⟨j, ?_, rfl⟩
  rw [Component.stateActivities, List.mem_eraseDups]
  exact List.mem_flatMap.2 ⟨state, List.mem_of_getElem? hstate, hj⟩

/-- Emission looks at the routines of its own component only. -/
theorem emitComponent_congr (hm : m.Resolved) (hc : c ∈ m.components)
    (hrequests : ∀ i ∈ c.stateActivities, i < c.activities.length) (hs : s.Of m) (ht : t.Of m)
    (hst : s.Agrees c t) (settings : Settings) :
    emitComponent settings m c s = emitComponent settings m c t := by
  have hreachable : s.library.reachable c.synthesize.referenced =
      t.library.reachable c.synthesize.referenced := by
    refine Library.reachable_congr (P := fun name => ∃ i < c.activities.length, name = c.qualified i)
      ?_ ?_ ?_
    · rintro name ⟨i, hi, rfl⟩
      exact find?_library_congr hs ht hst hi
    · rintro name r ⟨i, hi, rfl⟩ hr name' hname'
      obtain ⟨c', hc', j, hj, hname, -, hcalls⟩ := hs.exists_activity hm hr
      obtain ⟨rfl, rfl⟩ := hm.qualified_injective hc hc' hi hj hname
      obtain ⟨k, hk, hname', -⟩ := hcalls name' hname'
      exact ⟨k, hk, hname'⟩
    · intro name hname
      obtain ⟨i, hi, rfl⟩ := mem_referenced hname
      exact ⟨i, hrequests i hi, rfl⟩
  rw [emitComponent, emitComponent, emit, emit, Bundle.collect, Bundle.collect, reachableRoutines,
    reachableRoutines, hreachable]

end Emission

/-! ### One component -/

namespace Report

/-- A report with another one behind it. -/
def append (r r' : Report) : Report :=
  { r with components := r.components ++ r'.components, failures := r.failures ++ r'.failures }

end Report

/-- The report on a component, by the failures of its activities and the result of its emission. -/
def Component.reportOf (c : Component) : List Failure → Except EmitError Artifacts → Report
  | [], .ok artifacts => { components := [⟨c.name.raw, artifacts⟩] }
  | [], .error e => { failures := [⟨c.name.raw, [c.name.raw], .emit e⟩] }
  | f :: failures, _ => { failures := f :: failures }

theorem generateComponent_eq (settings : Settings) (m : Model) (r : Report) (s : Compilation)
    (c : Component) : generateComponent settings m (r, s) c =
      (r.append (c.reportOf (compileActivities m c s c.stateActivities).1
        (emitComponent settings m c (compileActivities m c s c.stateActivities).2)),
        (compileActivities m c s c.stateActivities).2) := by
  rw [generateComponent]
  generalize compileActivities m c s c.stateActivities = answer
  obtain ⟨_ | ⟨f, failures⟩, s'⟩ := answer
  · dsimp only
    cases emitComponent settings m c s' <;> simp [Component.reportOf, Report.append]
  · simp [Component.reportOf, Report.append]

/-- What a run reports for a component by itself. -/
def Component.alone (c : Component) (settings : Settings) (m : Model) : Report :=
  (generateComponent settings m ({}, {}) c).1

theorem Component.alone_eq (c : Component) (settings : Settings) (m : Model) :
    c.alone settings m = c.reportOf (compileActivities m c {} c.stateActivities).1
      (emit settings c.synthesize (c.ownLibrary m) m.recordTypes) := by
  rw [alone, generateComponent_eq, emitComponent, ownLibrary]
  cases (compileActivities m c {} c.stateActivities).1 with
  | nil => cases emit settings c.synthesize _ m.recordTypes <;> rfl
  | cons f failures => rfl

/-- To compile an activity, only the component itself and the record types are read. -/
theorem compileWithin_only (m : Model) (c : Component) (depth : Nat) :
    compileWithin (m.only c) c depth = compileWithin m c depth := by
  induction depth with
  | zero => rfl
  | succ depth ih =>
    funext i
    rw [compileWithin, compileWithin, ih]
    rfl

theorem compileActivities_only (m : Model) (c : Component) (s : Compilation) (indices : List Nat) :
    compileActivities (m.only c) c s indices = compileActivities m c s indices := by
  induction indices generalizing s with
  | nil => rfl
  | cons i indices ih =>
    have hcompile : compile (m.only c) c i = compile m c i :=
      congrFun (compileWithin_only m c _) i
    rw [compileActivities_cons, compileActivities_cons, hcompile, ih]

/-- A component is alone in a model without the others. -/
theorem Component.generate_only (c : Component) (settings : Settings) (m : Model) :
    (generate settings (m.only c)).components = (c.alone settings m).components ∧
      (generate settings (m.only c)).failures = (c.alone settings m).failures := by
  have halone : c.alone settings (m.only c) = c.alone settings m := by
    rw [alone_eq, alone_eq, ownLibrary, ownLibrary, compileActivities_only]
    rfl
  rw [← halone]
  exact ⟨rfl, rfl⟩

theorem Component.reportOf_names (c : Component) {failures : List Failure}
    (h : ∀ f ∈ failures, f.component = c.name.raw) (x : Except EmitError Artifacts) :
    (∀ entry ∈ (c.reportOf failures x).components, entry.component = c.name.raw) ∧
      ∀ f ∈ (c.reportOf failures x).failures, f.component = c.name.raw := by
  cases failures with
  | nil => cases x <;> simp [reportOf]
  | cons f failures => simpa [reportOf] using h

/-! ### All components -/

/-- Of what several sources contribute, the part of one is what carries its name. -/
theorem filter_flatMap_of_nodup {α β : Type} {key : α → String} {tag : β → String}
    {f : α → List β} {xs : List α} (hnodup : (xs.map key).Nodup)
    (htag : ∀ x ∈ xs, ∀ y ∈ f x, tag y = key x) {x : α} (hx : x ∈ xs) :
    (xs.flatMap f).filter (fun y => tag y = key x) = f x := by
  have hother {y : α} (hy : y ∈ xs) (hne : key y ≠ key x) :
      (f y).filter (fun z => tag z = key x) = [] := by
    refine List.filter_eq_nil_iff.2 fun z hz => ?_
    simpa [htag y hy z hz] using hne
  have hself : (f x).filter (fun z => tag z = key x) = f x := by
    refine List.filter_eq_self.2 fun z hz => ?_
    simpa using htag x hx z hz
  obtain ⟨before, after, rfl⟩ := List.append_of_mem hx
  rw [List.map_append, List.map_cons, List.nodup_append, List.nodup_cons] at hnodup
  obtain ⟨-, ⟨hafter, -⟩, hbefore⟩ := hnodup
  have hnil {ys : List α} (hys : ∀ y ∈ ys, y ∈ before ++ x :: after ∧ key y ≠ key x) :
      (ys.flatMap f).filter (fun z => tag z = key x) = [] := by
    rw [List.filter_flatMap, List.flatMap_eq_nil_iff]
    exact fun y hy => hother (hys y hy).1 (hys y hy).2
  rw [List.flatMap_append, List.flatMap_cons, List.filter_append, List.filter_append, hself,
    hnil, hnil, List.nil_append, List.append_nil]
  · intro y hy
    refine ⟨by simp [hy], fun hkey => hafter (List.mem_map.2 ⟨y, hy, hkey⟩)⟩
  · intro y hy
    exact ⟨by simp [hy], hbefore _ (List.mem_map_of_mem hy) _ List.mem_cons_self⟩

theorem nodup_eraseDups (xs : List Nat) : xs.eraseDups.Nodup := by
  cases xs with
  | nil => exact List.nodup_nil
  | cons x xs =>
    rw [List.eraseDups_cons, List.nodup_cons]
    exact ⟨by simp [List.mem_eraseDups], nodup_eraseDups _⟩
termination_by xs.length
decreasing_by exact Nat.lt_succ_of_le (List.length_filter_le _ _)

section Components

variable {m : Model} {settings : Settings}

/-- A component that nothing has been compiled of is reported as if it were alone. -/
theorem generateComponent_alone (hm : m.Resolved) {c : Component} (hc : c ∈ m.components)
    (hrequests : ∀ i ∈ c.stateActivities, i < c.activities.length) {s : Compilation} (hs : s.Of m)
    (hst : s.Agrees c {}) (r : Report) : generateComponent settings m (r, s) c =
      (r.append (c.alone settings m), (compileActivities m c s c.stateActivities).2) := by
  obtain ⟨hfailures, hst'⟩ := compileActivities_agrees hm hc hs hst hrequests
  have hemit := emitComponent_congr hm hc hrequests (compileActivities_of hs hc)
    (compileActivities_of .start hc) hst' settings
  rw [generateComponent_eq, hfailures, hemit, c.alone_eq]
  rfl

theorem foldl_generateComponent (settings : Settings) (hm : m.Resolved) {rest : List Component}
    (hrest : ∀ c ∈ rest, c ∈ m.components ∧ ∀ i ∈ c.stateActivities, i < c.activities.length)
    (hnodup : rest.Nodup) {s : Compilation} (hs : s.Of m) (hfresh : ∀ c ∈ rest, s.Agrees c {})
    (r : Report) :
    (rest.foldl (generateComponent settings m) (r, s)).1 =
      rest.foldl (fun r c => r.append (c.alone settings m)) r := by
  induction rest generalizing s r with
  | nil => rfl
  | cons c rest ih =>
    obtain ⟨⟨hc, hrequests⟩, hrest⟩ := List.forall_mem_cons.1 hrest
    obtain ⟨hst, hfresh⟩ := List.forall_mem_cons.1 hfresh
    obtain ⟨hnotMem, hnodup⟩ := List.nodup_cons.1 hnodup
    rw [List.foldl_cons, List.foldl_cons, generateComponent_alone hm hc hrequests hs hst]
    refine ih hrest hnodup (compileActivities_of hs hc) (fun c' hc' => ?_) _
    have hne : c' ≠ c := by
      rintro rfl
      exact hnotMem hc'
    exact (compileActivities_other hm (hrest c' hc').1 hc hne hs).symm.trans (hfresh c' hc')

theorem foldl_append_report (f : Component → Report) (cs : List Component) (r : Report) :
    (cs.foldl (fun r c => r.append (f c)) r).components =
        r.components ++ cs.flatMap (f · |>.components) ∧
      (cs.foldl (fun r c => r.append (f c)) r).failures =
        r.failures ++ cs.flatMap (f · |>.failures) := by
  induction cs generalizing r with
  | nil => simp
  | cons c cs ih =>
    rw [List.foldl_cons]
    obtain ⟨hcomponents, hfailures⟩ := ih (r.append (f c))
    rw [hcomponents, hfailures]
    simp [Report.append]

end Components

/-! ### Reports -/

section Reported

variable {m : Model} {c : Component} {settings : Settings}

theorem Component.forall₂_failing (hm : m.Resolved) (hc : c ∈ m.components)
    (hrequests : ∀ i ∈ c.stateActivities, i < c.activities.length) :
    List.Forall₂ c.FailsWith (c.failing m) (compileActivities m c {} c.stateActivities).1 :=
  compileActivities_failures hm hc .start hrequests

theorem Component.alone_names (settings : Settings) (hm : m.Resolved) (hc : c ∈ m.components)
    (hrequests : ∀ i ∈ c.stateActivities, i < c.activities.length) :
    (∀ entry ∈ (c.alone settings m).components, entry.component = c.name.raw) ∧
      ∀ f ∈ (c.alone settings m).failures, f.component = c.name.raw := by
  rw [alone_eq]
  refine c.reportOf_names (fun f hf => ?_) _
  obtain ⟨i, -, e, rfl⟩ := exists_of_forall₂ (forall₂_failing hm hc hrequests).flip hf
  rfl

/-- A report has what it should on a component, if that is what the component gives alone. -/
theorem Component.reported_of_isolated (hm : m.Resolved) (hc : c ∈ m.components)
    (hrequests : ∀ i ∈ c.stateActivities, i < c.activities.length) {r : Report}
    (hcomponents : r.componentsOf c = (c.alone settings m).components)
    (hfailures : r.failuresOf c = (c.alone settings m).failures) : c.Reported settings m r := by
  have hfailing := forall₂_failing hm hc hrequests
  have hdistinct : (c.failing m).Nodup := (nodup_eraseDups _).filter _
  have hisolated : r.componentsOf c = (generate settings (m.only c)).components ∧
      r.failuresOf c = (generate settings (m.only c)).failures := by
    rw [(c.generate_only settings m).1, (c.generate_only settings m).2]
    exact ⟨hcomponents, hfailures⟩
  rw [alone_eq] at hcomponents hfailures
  cases hanswer : (compileActivities m c {} c.stateActivities).1 with
  | nil =>
    rw [hanswer] at hfailing hcomponents hfailures
    have hnone : c.failing m = [] := List.forall₂_nil_right_iff.1 hfailing
    cases hemit : emit settings c.synthesize (c.ownLibrary m) m.recordTypes with
    | ok a =>
      rw [hemit] at hcomponents hfailures
      exact ⟨.inl ⟨a, hemit, hcomponents, hfailures⟩, hdistinct, fun h => absurd hnone h,
        fun _ h => absurd hfailures h, hisolated⟩
    | error e =>
      rw [hemit] at hcomponents hfailures
      have hsome : r.failuresOf c ≠ [] := hfailures ▸ List.cons_ne_nil _ _
      exact ⟨.inr ⟨hcomponents, hsome⟩, hdistinct, fun h => absurd hnone h,
        fun _ _ => ⟨e, hemit, hfailures⟩, hisolated⟩
  | cons f failures =>
    rw [hanswer] at hfailing hcomponents hfailures
    have hfailed : List.Forall₂ c.FailsWith (c.failing m) (r.failuresOf c) := hfailures ▸ hfailing
    have hsome : r.failuresOf c ≠ [] := hfailures ▸ List.cons_ne_nil _ _
    refine ⟨.inr ⟨hcomponents, hsome⟩, hdistinct, fun _ => hfailed, fun h => ?_, hisolated⟩
    rw [h] at hfailing
    cases hfailing

end Reported

theorem ModelStages.componentRaws {d : Definition} {m : Model} (S : ModelStages d m) :
    (m.components.map (·.name.raw)).Nodup := by
  have hraws := S.components.raws
  rw [List.map_map] at hraws
  exact (congrArg List.Nodup hraws).mpr S.componentNames

/-- A run is made up of what its components give alone, in their order. -/
theorem generate_eq_flatMap {m : Model} (hm : m.Resolved)
    (hrequests : ∀ c ∈ m.components, ∀ i ∈ c.stateActivities, i < c.activities.length)
    (settings : Settings) :
    (generate settings m).components = m.components.flatMap (·.alone settings m |>.components) ∧
      (generate settings m).failures = m.components.flatMap (·.alone settings m |>.failures) := by
  have hrun := foldl_generateComponent settings hm (fun c hc => ⟨hc, hrequests c hc⟩)
    hm.componentIdents.of_map .start (fun c _ => .refl c {}) {}
  have happend := foldl_append_report (·.alone settings m) m.components {}
  rw [← hrun] at happend
  exact happend

/-- Of a report, a component that succeeds gives its own name once and one that fails gives none. -/
theorem sublist_flatMap_components {m : Model} {settings : Settings} {cs : List Component}
    (hnames : ∀ c ∈ cs, (c.alone settings m).components.map (·.component) = [c.name.raw] ∨
      (c.alone settings m).components = []) :
    List.Sublist ((cs.flatMap (·.alone settings m |>.components)).map (·.component))
      (cs.map (·.name.raw)) := by
  induction cs with
  | nil => exact .slnil
  | cons c cs ih =>
    obtain ⟨hc, hcs⟩ := List.forall_mem_cons.1 hnames
    rw [List.flatMap_cons, List.map_append, List.map_cons]
    obtain hone | hnone := hc
    · rw [hone]
      exact (ih hcs).cons_cons _
    · rw [hnone]
      exact (ih hcs).cons _

/-! ### A sample run -/

namespace Sample

/-- The states of the relay run `Both`, `Twice` and `Ping`, and a door comes after it. -/
def stationDefinition : Definition where
  recordTypes := []
  components := relayDefinition.components.map (fun d => { d with
      machine.states := [⟨"Idle", ["Both", "Twice"]⟩, ⟨"Busy", ["Ping", "Both"]⟩] }) ++
    doorDefinition.components

def stationRelay : Component :=
  { relay with states := [⟨⟨"Idle", "Idle"⟩, [2, 3]⟩, ⟨⟨"Busy", "Busy"⟩, [0, 2]⟩] }

def station : Model := ⟨[], [stationRelay, door]⟩

theorem build_stationDefinition : Model.build stationDefinition = .ok station := by
  decide +kernel

/-- `Both` and `Ping` do not compile, and neither is listed twice. -/
theorem failing_stationRelay : stationRelay.failing station = [2, 0] := by
  decide +kernel

theorem isOk_emit_door :
    (emit {} door.synthesize (door.ownLibrary station) station.recordTypes).isOk = true := by
  decide +kernel

end Sample

/-- A run reports on every component of a model, in the order of the model and on nothing else, and
on each of them as if it were alone. -/
theorem Model.generate_reported {d : Definition} {m : Model} (h : Model.build d = .ok m)
    (settings : Settings) :
    List.Sublist ((generate settings m).components.map (·.component))
        (m.components.map (·.name.raw)) ∧
      (∀ f ∈ (generate settings m).failures, f.component ∈ m.components.map (·.name.raw)) ∧
      ∀ c ∈ m.components, c.Reported settings m (generate settings m) := by
  have hm := Model.resolved_of_build h
  obtain ⟨S⟩ := exists_modelStages h
  have hrequests (c : Component) (hc : c ∈ m.components) :=
    ((S.linked.closed hm).components c hc).requests
  obtain ⟨hcomponents, hfailures⟩ := generate_eq_flatMap hm hrequests settings
  have hnames (c : Component) (hc : c ∈ m.components) :=
    Component.alone_names settings hm hc (hrequests c hc)
  have hreported : ∀ c ∈ m.components, c.Reported settings m (generate settings m) := by
    intro c hc
    refine c.reported_of_isolated hm hc (hrequests c hc) ?_ ?_
    · rw [Report.componentsOf, hcomponents]
      exact filter_flatMap_of_nodup S.componentRaws (fun c hc => (hnames c hc).1) hc
    · rw [Report.failuresOf, hfailures]
      exact filter_flatMap_of_nodup S.componentRaws (fun c hc => (hnames c hc).2) hc
  refine ⟨?_, ?_, hreported⟩
  · rw [hcomponents]
    refine sublist_flatMap_components fun c hc => ?_
    rw [← (c.generate_only settings m).1, ← (hreported c hc).isolated.1]
    obtain ⟨a, -, hone, -⟩ | ⟨hnone, -⟩ := (hreported c hc).complete
    · exact .inl (by rw [hone]; rfl)
    · exact .inr hnone
  · intro f hf
    rw [hfailures] at hf
    obtain ⟨c, hc, hf⟩ := List.mem_flatMap.1 hf
    exact List.mem_map.2 ⟨c, hc, ((hnames c hc).2 f hf).symm⟩

/-- The relay has two failures, and the door behind it is there all the same. -/
theorem Sample.generate_reported_station :
    Model.build stationDefinition = .ok station ∧
      ((generate {} station).failuresOf stationRelay).length = 2 ∧
      (generate {} station).componentsOf stationRelay = [] ∧
      ((generate {} station).componentsOf door).length = 1 := by
  obtain ⟨-, -, hreported⟩ := Model.generate_reported build_stationDefinition {}
  have hrelay := hreported stationRelay List.mem_cons_self
  have hdoor := hreported door (List.mem_cons_of_mem _ List.mem_cons_self)
  have hfailed := hrelay.failed (by rw [failing_stationRelay]; exact List.cons_ne_nil _ _)
  have hlength : ((generate {} station).failuresOf stationRelay).length = 2 := by
    rw [← hfailed.length_eq, failing_stationRelay]
    rfl
  refine ⟨build_stationDefinition, hlength, ?_, ?_⟩
  · obtain ⟨a, -, -, hnone⟩ | ⟨hnone, -⟩ := hrelay.complete
    · rw [hnone] at hlength
      cases hlength
    · exact hnone
  · obtain ⟨a, -, hone, -⟩ | ⟨-, hsome⟩ := hdoor.complete
    · rw [hone]
      rfl
    · obtain ⟨e, hemit, -⟩ := hdoor.emitted rfl hsome
      have hok := isOk_emit_door
      rw [hemit] at hok
      cases hok

end FlightGen
