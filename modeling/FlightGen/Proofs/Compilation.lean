import FlightGen.Proofs.Compilation.Rules
import FlightGen.Proofs.Flow.Operation

/-! Libraries of compiled activities. Every routine of a library comes from an activity
whose calls lead to routines that were compiled before it, so that calls come to an end. -/

namespace FlightGen

/-- Results by the names of the activities, in the order of compilation. -/
abbrev Results := List (String × Except CompileError Routine)

/-- Routine `r` was lowered from `f` under a name, and `f` calls what `results` hold. -/
structure Flow.Compiled (f : Flow) (m : Model) (results : Results) (name : String) (r : Routine) :
    Prop where
  of : f.Of m
  lower : f.lower = .ok r
  name : ∃ i, f.component.activities[i]? = some f.activity ∧ name = f.component.qualified i
  callees : ∀ n target arguments, f.action n = .call target arguments →
    ∃ r', f.callees.lookup n = some r' ∧ (f.component.qualified target, .ok r') ∈ results

/-- Results of which each one rests on those before it. -/
inductive Results.Sound (m : Model) : Results → Prop
  | nil : Sound m []
  | snoc {results : Results} {name : String} {result : Except CompileError Routine}
      (h : Sound m results) (hname : ∀ result, (name, result) ∉ results)
      (hresult : ∀ r, result = .ok r → ∃ f : Flow, f.Compiled m results name r) :
      Sound m (results ++ [(name, result)])

/-! ### Requests -/

/-- Sound results, none of them for an activity in progress. -/
structure Compilation.Open (m : Model) (s : Compilation) : Prop where
  sound : Results.Sound m s.results
  pending : ∀ name ∈ s.stack, ∀ x, (name, x) ∉ s.results

section

variable {m : Model} {c : Component} {s s' : Compilation} {name : String} {index : Nat}
  {x : Except CompileError Routine}

theorem Compilation.Open.enter (h : s.Open m) (hname : s.results.lookup name = none) :
    (s.enter name).Open m := by
  refine ⟨h.sound, List.forall_mem_cons.2 ⟨fun x hx => ?_, h.pending⟩⟩
  exact absurd (List.lookup_eq_none_iff.1 hname _ hx) (by simp)

/-- The innermost activity leaves a result that rests on those before it. -/
theorem Compilation.Open.leave (h : s'.Open m) (hs' : s'.stack = name :: s.stack)
    (hname : name ∉ s.stack)
    (hx : ∀ r, x = .ok r → ∃ f : Flow, f.Compiled m s'.results name r) :
    (s'.leave name x).Open m := by
  have hpending := h.pending
  rw [hs'] at hpending
  refine ⟨.snoc h.sound (hpending name List.mem_cons_self) hx, fun name' hname' y hy => ?_⟩
  rw [stack_leave, hs', List.tail_cons] at hname'
  obtain hy | hy := List.mem_append.1 hy
  · exact hpending name' (List.mem_cons_of_mem _ hname') y hy
  · cases List.mem_singleton.1 hy
    exact hname hname'

/-- A request leaves sound results, and among them the routine it is answered with. -/
def Keeps (m : Model) (c : Component) : Judgment := fun s index x s' =>
  s.Open m → s'.Open m ∧ ∀ r, x = .ok r → (c.qualified index, .ok r) ∈ s'.results

/-- Calls lead to routines among the results, so that the lowered activity rests on them. -/
theorem compiled_of_callees (hc : c ∈ m.components) {a : Activity}
    (ha : c.activities[index]? = some a) {path : String} {callees : List (Nat × Routine)}
    {r : Routine}
    (h : Callees (fun s target x s' => s.Grows s' ∧ s.Open m ∧ Keeps m c s target x s') c path s
      a.nodes.zipIdx (.ok callees) s')
    (hr : lowerFlow ⟨m.recordTypes, c, a, path, callees⟩ = .ok r) :
    ∃ f : Flow, f.Compiled m s'.results (c.qualified index) r := by
  refine ⟨_, ⟨rfl, hc, List.mem_of_getElem? ha⟩, mapError_eq_ok.1 hr, ⟨index, ha, rfl⟩, ?_⟩
  intro n target arguments hcall
  obtain ⟨r', s₁, s₂, hlookup, ⟨-, hs₁, hkeeps⟩, hgrows⟩ :=
    h.routine_of_action (fun _ _ _ _ h => h.1) hcall
  exact ⟨r', hlookup, hgrows.results.subset ((hkeeps hs₁).2 r' rfl)⟩

theorem keeps_of_rule (hc : c ∈ m.components)
    (h : Rule (fun s index x s' => s.Grows s' ∧ Keeps m c s index x s') m c s index x s') :
    Keeps m c s index x s' := by
  intro hs
  have hcallees {path : String} {nodes : List (Node × Nat)}
      {y : Except CompileError (List (Nat × Routine))} {s₀ s₁ : Compilation}
      (hcalls : Callees (fun s index x s' => s.Grows s' ∧ Keeps m c s index x s') c path s₀ nodes y s₁)
      (hs₀ : s₀.Open m) :
      Callees (fun s index x s' => s.Grows s' ∧ s.Open m ∧ Keeps m c s index x s') c path s₀ nodes
        y s₁ ∧ s₁.Open m :=
    hcalls.mono hs₀ fun _ _ _ _ _ hs h => ⟨⟨h.1, hs, h.2⟩, (h.2 hs).1⟩
  cases h with
  | cached h => exact ⟨hs, fun r hr => hr ▸ mem_of_lookup h⟩
  | unknown | recursive => exact ⟨hs, nofun⟩
  | unsupported hp => exact ⟨(hs.enter hp.result).leave rfl hp.stack nofun, nofun⟩
  | blocked hp _ hcalls =>
    have hstack := (hcalls.grows fun _ _ _ _ h => h.1).stack
    exact ⟨(hcallees hcalls (hs.enter hp.result)).2.leave hstack hp.stack nofun, nofun⟩
  | @lowered _ s₁ _ a callees _ hp _ hcalls hx =>
    have hstack := (hcalls.grows fun _ _ _ _ h => h.1).stack
    obtain ⟨hcalls, hs₁⟩ := hcallees hcalls (hs.enter hp.result)
    have hnote : (s₁.note (c.qualified index)).Open m := ⟨hs₁.sound, hs₁.pending⟩
    have hcompiled (r : Routine) (hr : x = .ok r) :
        ∃ f : Flow, f.Compiled m s₁.results (c.qualified index) r :=
      compiled_of_callees hc hp.activity hcalls (hx.trans hr)
    refine ⟨hnote.leave hstack hp.stack hcompiled, fun r hr => ?_⟩
    rw [hr]
    exact List.mem_append_right _ (List.mem_singleton_self _)

end

/-- What has been compiled after any number of requests. -/
inductive Compilation.Of (m : Model) : Compilation → Prop
  | start : Of m {}
  | request {s : Compilation} {c : Component} (h : Of m s) (hc : c ∈ m.components) (index : Nat) :
      Of m ((compile m c index).run.run s).2
  | named {s : Compilation} (h : Of m s) (component activity : String) :
      Of m ((compileNamed m component activity).run.run s).2

/-- A name stands for an activity, or else the request fails at once. -/
theorem compileNamed_cases (m : Model) (component activity : String) :
    (∃ e, compileNamed m component activity = throw e) ∨
      ∃ c ∈ m.components, ∃ index < c.activities.length,
        compileNamed m component activity = compile m c index := by
  unfold compileNamed
  split
  · exact .inl ⟨_, rfl⟩
  · rename_i c hc
    split
    · exact .inl ⟨_, rfl⟩
    · rename_i index hindex
      exact .inr ⟨c, List.mem_of_find?_eq_some hc, index, lt_of_findIdx? hindex, rfl⟩

namespace Compilation.Of

variable {m : Model} {s : Compilation}

/-- What holds at the start and is kept by every request. -/
theorem induction {P : Compilation → Prop} (h : s.Of m) (hstart : P {})
    (hrequest : ∀ s c index, s.Of m → c ∈ m.components → index < c.activities.length → P s →
      P ((compile m c index).run.run s).2) : P s := by
  induction h with
  | start => exact hstart
  | @request _ c h hc index ih =>
    by_cases hindex : index < c.activities.length
    · exact hrequest _ c index h hc hindex ih
    · rw [run_compile_unknown (Nat.le_of_not_lt hindex)]
      exact ih
  | named h component activity ih =>
    obtain ⟨e, heq⟩ | ⟨c, hc, index, hindex, heq⟩ := compileNamed_cases m component activity
    · rw [heq]
      exact ih
    · rw [heq]
      exact hrequest _ c index h hc hindex ih

theorem stack (h : s.Of m) : s.stack = [] := by
  refine h.induction (P := fun s => s.stack = []) rfl fun s c index _ _ _ hs => ?_
  exact (grows_compile hs index).stack.trans hs

theorem opened (h : s.Of m) : s.Open m := by
  refine h.induction ⟨.nil, nofun⟩ fun s c index h hc _ hs => ?_
  exact (compile_induction (fun _ _ _ _ => keeps_of_rule hc) h.stack index hs).1

theorem sound (h : s.Of m) : Results.Sound m s.results :=
  h.opened.sound

end Compilation.Of

/-! ### Routines of a library -/

theorem Flow.Compiled.mono {f : Flow} {m : Model} {results results' : Results} {name : String}
    {r : Routine} (h : f.Compiled m results name r) (hsub : results ⊆ results') :
    f.Compiled m results' name r := by
  refine ⟨h.of, h.lower, h.name, fun n target arguments hcall => ?_⟩
  obtain ⟨r', hlookup, hr'⟩ := h.callees n target arguments hcall
  exact ⟨r', hlookup, hsub hr'⟩

theorem Flow.Compiled.qualified {f : Flow} {m : Model} {results : Results} {name : String}
    {r : Routine} (h : f.Compiled m results name r) : r.qualified = name := by
  obtain ⟨L⟩ := Flow.exists_lowering h.lower
  obtain ⟨i, hi, rfl⟩ := h.name
  simp [Routine.qualified, Component.qualified, Component.activityIdent, hi, L.component_eq,
    L.ident_eq]

namespace Results.Sound

variable {m : Model} {results : Results} {name : String} {r : Routine}

theorem compiled (h : Sound m results) (hr : (name, .ok r) ∈ results) :
    ∃ f : Flow, f.Compiled m results name r := by
  induction h with
  | nil => cases hr
  | snoc h hname hresult ih =>
    obtain hr | hr := List.mem_append.1 hr
    · obtain ⟨f, hf⟩ := ih hr
      exact ⟨f, hf.mono (List.subset_append_left _ _)⟩
    · cases List.mem_singleton.1 hr
      obtain ⟨f, hf⟩ := hresult r rfl
      exact ⟨f, hf.mono (List.subset_append_left _ _)⟩

theorem unique (h : Sound m results) {x y : Except CompileError Routine}
    (hx : (name, x) ∈ results) (hy : (name, y) ∈ results) : x = y := by
  induction h with
  | nil => cases hx
  | snoc h hname hresult ih =>
    rw [List.mem_append, List.mem_singleton] at hx hy
    obtain hx | hx := hx <;> obtain hy | hy := hy
    · exact ih hx hy
    · cases hy
      exact absurd hx (hname x)
    · cases hx
      exact absurd hy (hname y)
    · cases hx
      cases hy
      rfl

/-- The routine behind a call takes what the called activity takes. -/
theorem link {f : Flow} (h : Sound m results) (hm : m.Resolved) (hf : f.Compiled m results name r)
    {n target : Nat} {arguments : List Argument} {routine : Routine}
    (hcall : f.action n = .call target arguments) (hroutine : f.callees.lookup n = some routine) :
    f.Takes (f.callee target) routine.inputs := by
  obtain ⟨r', hlookup, hr'⟩ := hf.callees n target arguments hcall
  cases hroutine.symm.trans hlookup
  obtain ⟨f', hf'⟩ := h.compiled hr'
  obtain ⟨L⟩ := Flow.exists_lowering hf'.lower
  obtain ⟨i, hi, hname⟩ := hf'.name
  obtain ⟨node, hnode, -, haction⟩ := f.exists_node (n := n) (f.lt_size (by simp [hcall]))
  have htarget := (hm.components _ hf.of.component).calls _ hf.of.activity node hnode target
    arguments (haction.trans hcall)
  obtain ⟨hcomponent, rfl⟩ := hm.qualified_injective hf.of.component hf'.of.component htarget
    (List.getElem?_eq_some_iff.1 hi).1 hname
  have hcallee : f.callee target = f'.activity := by
    rw [Flow.callee, hcomponent, hi, Option.getD_some]
  have htakes := Flow.takes_slots (hf'.of.resolved hm)
  unfold Flow.Takes Flow.dataType at htakes ⊢
  rw [hcallee, L.inputs_eq, hf.of.records, ← hf'.of.records]
  exact htakes

/-- Calls nest at most as deep as there are routines: what holds of a routine one level
above its callees holds of all of them at the depth of their number. -/
theorem induction {P : Nat → String → Routine → Prop} (h : Sound m results)
    (hstep : ∀ earlier ⊆ results, ∀ (f : Flow) depth name r, f.Compiled m earlier name r →
      (name, .ok r) ∈ results → (∀ name' r', (name', .ok r') ∈ earlier → P depth name' r') →
      P (depth + 1) name r)
    {depth : Nat} (hdepth : (results.filterMap (·.2.toOption)).length ≤ depth)
    (hr : (name, .ok r) ∈ results) : P depth name r := by
  -- By the order of compilation: a result calls only results before it, and each routine
  -- among the results adds one level.
  induction h generalizing depth name r with
  | nil => cases hr
  | @snoc results name' result h hname hresult ih =>
    have hsub : results ⊆ results ++ [(name', result)] := List.subset_append_left _ _
    have hearlier {depth name r}
        (hdepth : (results.filterMap (·.2.toOption)).length ≤ depth)
        (hr : (name, .ok r) ∈ results) : P depth name r :=
      ih (fun earlier hearlier f depth name r hf hmem =>
        hstep earlier (List.Subset.trans hearlier hsub) f depth name r hf (hsub hmem)) hdepth hr
    rw [List.filterMap_append, List.length_append] at hdepth
    obtain hr | hr := List.mem_append.1 hr
    · exact hearlier (by omega) hr
    · cases List.mem_singleton.1 hr
      obtain ⟨f, hf⟩ := hresult r rfl
      rw [show (List.filterMap (·.2.toOption) [(name', Except.ok r)]).length = 1 from rfl] at hdepth
      obtain ⟨depth, rfl⟩ := Nat.exists_eq_add_one_of_ne_zero (show depth ≠ 0 by omega)
      exact hstep results hsub f depth _ r hf (List.mem_append_right _ hr) fun _ _ =>
        hearlier (by omega)

end Results.Sound

namespace Compilation

variable {m : Model} {s : Compilation} {name : String} {r : Routine}

theorem mem_library : (name, r) ∈ s.library.entries ↔ (name, .ok r) ∈ s.results := by
  rw [library, sortEntries, List.mem_mergeSort, List.mem_filterMap]
  constructor
  · rintro ⟨⟨name', result⟩, hmem, hr⟩
    cases result with
    | error e => cases hr
    | ok r' =>
      cases hr
      exact hmem
  · exact fun hmem => ⟨_, hmem, rfl⟩

theorem length_library :
    s.library.entries.length = (s.results.filterMap (·.2.toOption)).length := by
  have hroutines : s.results.filterMap (·.2.toOption) =
      (s.results.filterMap fun r => r.2.toOption.map (r.1, ·)).map (·.2) := by
    rw [List.map_filterMap]
    simp
  rw [hroutines, List.length_map, library, sortEntries, List.length_mergeSort]

/-- The library finds a routine by the name it was compiled under. -/
theorem Of.find?_library (h : s.Of m) :
    s.library.find? name = some r ↔ (name, .ok r) ∈ s.results := by
  refine ⟨fun hr => mem_library.1 (mem_of_lookup hr), fun hr => ?_⟩
  cases hfound : s.library.find? name with
  | none =>
    have hnone := List.lookup_eq_none_iff.1 hfound (name, r) (mem_library.2 hr)
    simp at hnone
  | some r' => cases h.sound.unique hr (mem_library.1 (mem_of_lookup hfound)); rfl

/-- The names in the library are those of the routines. -/
theorem Of.qualified_eq (h : s.Of m) (hr : s.library.find? name = some r) : r.qualified = name := by
  obtain ⟨f, hf⟩ := h.sound.compiled (h.find?_library.1 hr)
  exact hf.qualified

end Compilation

end FlightGen
