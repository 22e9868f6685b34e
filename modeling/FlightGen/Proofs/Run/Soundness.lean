import FlightGen.Proofs.Compilation
import FlightGen.Proofs.Run.Delivery

/-! Compiled activities do not go wrong. While a routine runs, the variables of the nodes
that were carried out hold data of their types, so that it fails only inside a block; and
so does a library, whose calls come to an end. -/

namespace FlightGen

namespace Flow

open Relation (TransGen)

variable {f : Flow} {r : Routine}

/-! ### Runs -/

namespace Lowering

variable (L : f.Lowering r) (ok : Scalar → Value → Prop)

/-- A state in which the nodes of `done` have been carried out. -/
structure Reached (done : List Nat) (p : Progress) : Prop where
  bound : L.Bound ok done p.env
  length : p.outputs.length = r.outputs.length
  filled : ∀ n ∈ done, ∀ (i : Nat) (slot : Slot), (f.activity.parameters .output)[i]? = some n →
    r.outputs[i]? = some slot →
    ∃ d, p.outputs[i]? = some (some d) ∧ Datum.Fits f.records ok slot.type d

variable {L ok} {n : Nat} {done : List Nat}

theorem Reached.apply {p : Progress} (hp : L.Reached ok done p) {e : Change}
    (he : L.Delivers ok n e)
    (houtput : ∀ i, (f.activity.parameters .output)[i]? = some n → e.output.map Prod.fst = some i) :
    L.Reached ok (done ++ [n]) (e.apply p) := by
  refine ⟨hp.bound.append he, ?_, fun n' hn' i slot hi hslot => ?_⟩
  · unfold Change.apply
    split <;> simp [hp.length]
  rw [List.mem_append, List.mem_singleton] at hn'
  have hkept (hne : e.output.map Prod.fst ≠ some i) :
      ∃ d, p.outputs[i]? = some (some d) ∧ Datum.Fits f.records ok slot.type d := by
    obtain hn' | rfl := hn'
    · exact hp.filled n' hn' i slot hi hslot
    · exact absurd (houtput i hi) hne
  unfold Change.apply
  cases hout : e.output with
  | none => exact hkept (by simp [hout])
  | some entry =>
    obtain ⟨j, d⟩ := entry
    dsimp only
    by_cases hij : i = j
    · subst hij
      obtain ⟨slot', hslot', hfits⟩ := he.output i d hout
      cases hslot.symm.trans hslot'
      have hlt : i < p.outputs.length := by
        rw [hp.length]
        exact (List.getElem?_eq_some_iff.1 hslot).1
      exact ⟨d, List.getElem?_set_self hlt, hfits⟩
    · rw [List.getElem?_set_ne (Ne.symm hij)]
      exact hkept (by simpa [hout] using Ne.symm hij)

/-- Outputs that are all filled are the results. -/
theorem exists_results {records : List RecordType} {slots : List Slot}
    {outputs : List (Option Datum)} (h : ∀ (i : Nat) (slot : Slot), slots[i]? = some slot →
      ∃ d, outputs[i]? = some (some d) ∧ Datum.Fits records ok slot.type d) :
    ∃ results, (outputs.zip slots).mapM Slot.result = .ok results ∧
      Datum.FitAll records ok slots results := by
  induction slots generalizing outputs with
  | nil => exact ⟨[], by rw [List.zip_nil_right]; rfl, .nil⟩
  | cons slot slots ih =>
    obtain ⟨d, hd, hfits⟩ := h 0 slot rfl
    cases outputs with
    | nil => cases hd
    | cons output outputs =>
      cases hd
      obtain ⟨results, hresults, hall⟩ := ih fun i slot hslot => h (i + 1) slot hslot
      refine ⟨d :: results, ?_, .cons hfits hall⟩
      rw [List.zip_cons_cons, List.mapM_cons, hresults]
      rfl

end Lowering

namespace Setting

open Lowering

variable {L : f.Lowering r} {ok : Scalar → Value → Prop} {m : Model} {E : RunError → Prop}
  {call : Callee} {arguments : List Datum} (S : f.Setting r ok m E call arguments)
include S

/-- One step: the state reached covers one node more. -/
theorem yields_execute {n : Nat} {done rest : List Nat} (hnodes : L.nodes = done ++ n :: rest)
    {s : Step} (hs : s ∈ r.steps) (hstands : L.Stands n s) {p : Progress}
    (hp : L.Reached ok done p) :
    Yields E (L.Reached ok (done ++ [n])) (s.execute call r arguments p) := by
  -- The order follows the stated dependencies, so that all the step needs has been done.
  have hdone : ∀ a, TransGen f.Stated a n → a ∈ done := by
    intro a ha
    have hbefore := L.before_of_path (L.path_of_stated S.resolved ha)
    have hnodup := L.nodup_nodes
    rw [hnodes] at hbefore hnodup
    exact (before_append_cons_iff hnodup).1 hbefore
  have hchange := S.yields_change hp.bound hdone hs hstands
  rw [Step.execute_eq]
  cases heq : s.change call r arguments p.env with
  | error e => exact hchange.failsOnly e heq
  | ok e =>
    refine hp.apply (hchange.result heq) fun i hi => ?_
    rw [(Step.change_eq_ok heq).2]
    exact hstands.slot_eq S.resolved hi

theorem yields_steps {done rest : List Nat} (hnodes : L.nodes = done ++ rest) {steps : List Step}
    (hstands : List.Forall₂ L.Stands rest steps) (hsteps : steps ⊆ r.steps) {p : Progress}
    (hp : L.Reached ok done p) :
    Yields E (L.Reached ok L.nodes) (steps.foldlM (Step.execute call r arguments) p) := by
  induction hstands generalizing done p with
  | nil =>
    rw [List.append_nil] at hnodes
    rw [hnodes]
    exact hp
  | cons hn _ ih =>
    obtain ⟨hs, hsteps⟩ := List.cons_subset.1 hsteps
    rw [List.foldlM_cons]
    refine (S.yields_execute hnodes hs hn hp).bind fun p' hp' => ?_
    exact ih (by rw [hnodes, List.append_assoc, List.singleton_append]) hsteps hp'

/-- A routine yields one datum of the right type for each of its outputs. -/
theorem yields_run (L : f.Lowering r) :
    Yields E (Datum.FitAll f.records ok r.outputs) (r.run call arguments) := by
  unfold Routine.run
  rw [if_pos S.arguments.length_eq.symm]
  have hstart : L.Reached ok [] ⟨[], r.outputs.map fun _ => none⟩ := ⟨nofun, List.length_map _, nofun⟩
  refine (S.yields_steps (List.nil_append L.nodes).symm (L.stands S.resolved) (List.Subset.refl _)
    hstart).bind fun p hp => ?_
  have hfilled : ∀ (i : Nat) (slot : Slot), r.outputs[i]? = some slot →
      ∃ d, p.outputs[i]? = some (some d) ∧ Datum.Fits f.records ok slot.type d := by
    intro i slot hslot
    have hslots := (slots_forall₂ S.resolved .output).flip
    rw [← L.outputs_eq] at hslots
    obtain ⟨n, hn, -⟩ := getElem?_of_forall₂ hslots hslot
    obtain ⟨_, _, _, haction⟩ := mem_parameters.1 (List.mem_of_getElem? hn)
    have hlt : n < f.size := f.lt_size (by simp [action, haction])
    exact hp.filled n ((L.mem_nodes S.resolved).2 hlt) i slot hn hslot
  obtain ⟨results, hresults, hfits⟩ := exists_results hfilled
  exact .of_eq_ok hresults hfits

end Setting

/-- Every node that calls has its call among the steps. -/
theorem Lowering.qualified_mem_calls (L : f.Lowering r) {k : Nat} (hf : f.activity.Resolved k)
    {n target : Nat} {arguments : List Argument} {routine : Routine}
    (h : f.action n = .call target arguments) (hc : f.callees.lookup n = some routine) :
    routine.qualified ∈ r.calls := by
  have hn : n ∈ L.nodes := (L.mem_nodes hf).2 (f.lt_size (by simp [h]))
  obtain ⟨i, hi⟩ := List.mem_iff_getElem?.1 hn
  obtain ⟨s, hs, -, -, hp⟩ := getElem?_of_forall₂ (L.stands hf) hi
  refine L.mem_calls.2 ⟨s, List.mem_of_getElem? hs, ?_⟩
  generalize s.operation = operation at hp
  cases hp with
  | call h' hc' =>
    cases hc.symm.trans hc'
    rfl
  | receive h' | output h' | create h' | literal h' | read h' | write h' | block h' | fork h'
  | join h' => cases h.symm.trans h'

end Flow

/-! ### Libraries -/

/-- The routines that a run may come to. -/
inductive Library.Reaches (l : Library) (name : String) : Routine → Prop
  | self {r : Routine} (h : l.find? name = some r) : Reaches l name r
  | call {r r' : Routine} {target : String} (h : Reaches l name r) (ht : target ∈ r.calls)
      (h' : l.find? target = some r') : Reaches l name r'

theorem Library.Reaches.of_call {l : Library} {name target : String} {r r' : Routine}
    (hr : l.find? name = some r) (ht : target ∈ r.calls) (h : l.Reaches target r') :
    l.Reaches name r' := by
  induction h with
  | self h => exact .call (.self hr) ht h
  | call _ ht' h' ih => exact .call ih ht' h'

/-- Errors of blocks in routines that a run may come to. -/
def Library.Faults (l : Library) (name : String) (e : RunError) : Prop :=
  ∃ r s, l.Reaches name r ∧ s ∈ r.steps ∧ s.Faults e

/-- At the depth of its number of routines, a library runs each of them to its end, with no
errors but those of blocks. -/
theorem Compilation.Of.yields_of_blocks {m : Model} (hm : m.Resolved) {s : Compilation}
    (hs : s.Of m) {ok : Scalar → Value → Prop} (hok : ∀ v, ok v.scalar v) {E : RunError → Prop}
    {depth : Nat} (hdepth : s.library.entries.length ≤ depth) {name : String} {r : Routine}
    (hr : s.library.find? name = some r)
    (hblocks : ∀ r', s.library.Reaches name r' → ∀ step ∈ r'.steps, ∀ locals body exports,
      step.operation = .block locals body exports → BlockYields ok E step.node locals body exports)
    {arguments : List Datum} (harguments : Datum.FitAll m.recordTypes ok r.inputs arguments) :
    Yields E (Datum.FitAll m.recordTypes ok r.outputs)
      (s.library.runWithin depth name arguments) := by
  rw [length_library] at hdepth
  refine hs.sound.induction (P := fun depth name r =>
    (∀ r', s.library.Reaches name r' → ∀ step ∈ r'.steps, ∀ locals body exports,
      step.operation = .block locals body exports →
      BlockYields ok E step.node locals body exports) →
    ∀ arguments, Datum.FitAll m.recordTypes ok r.inputs arguments →
      Yields E (Datum.FitAll m.recordTypes ok r.outputs)
        (s.library.runWithin depth name arguments)) ?_ hdepth (hs.find?_library.1 hr) hblocks
    arguments harguments
  intro earlier hearlier f depth name r hf hmem ih hblocks arguments harguments
  have hr := hs.find?_library.2 hmem
  have hfull := hf.mono hearlier
  obtain ⟨L⟩ := Flow.exists_lowering hf.lower
  have hresolved := hf.of.resolved hm
  rw [Library.runWithin, hr]
  rw [← hf.of.records] at harguments ih ⊢
  refine Flow.Setting.yields_run (m := m) ⟨hf.of, hm, hok, harguments, ?_, ?_, ?_⟩ L
  · exact fun n target args routine => hs.sound.link hm hfull
  · intro n target args routine hcall hroutine values hvalues
    obtain ⟨routine', hlookup, hcallee⟩ := hf.callees n target args hcall
    cases hroutine.symm.trans hlookup
    obtain ⟨_, hcompiled⟩ := hs.sound.compiled (hearlier hcallee)
    have hqualified := hcompiled.qualified
    have hcalled := L.qualified_mem_calls hresolved hcall hroutine
    rw [hqualified] at hcalled ⊢
    -- What the callee may come to, the caller may come to.
    exact ih _ routine hcallee (fun r' hr' => hblocks r' (.of_call hr hcalled hr')) values hvalues
  · exact hblocks r (.self hr)

/-- Where blocks may hold anything, errors are those that they raise. -/
theorem Compilation.Of.yields_runWithin {m : Model} (hm : m.Resolved) {s : Compilation}
    (hs : s.Of m) {ok : Scalar → Value → Prop} (hok : ∀ v, ok v.scalar v) {depth : Nat}
    (hdepth : s.library.entries.length ≤ depth) {name : String} {r : Routine}
    (hr : s.library.find? name = some r)
    (hblocks : ∀ r', s.library.Reaches name r' → ∀ step ∈ r'.steps, ∀ locals body exports,
      step.operation = .block locals body exports → ∀ t v, ok t v)
    {arguments : List Datum} (harguments : Datum.FitAll m.recordTypes ok r.inputs arguments) :
    Yields (s.library.Faults name) (Datum.FitAll m.recordTypes ok r.outputs)
      (s.library.runWithin depth name arguments) := by
  refine hs.yields_of_blocks hm hok hdepth hr ?_ harguments
  intro r' hr' step hstep locals body exports ho
  exact (blockYields_of_operation ho (hblocks r' hr' step hstep locals body exports ho)).mono
    fun e he => ⟨r', step, hr', hstep, he⟩

/-- Running a compiled activity on arguments of the right shapes fails in blocks only, and
gives one datum of the right shape for each output. Without blocks it does not fail, and
keeps to the declared types. -/
theorem Library.run_sound {d : Definition} {m : Model} (hm : Model.build d = .ok m)
    {s : Compilation} (hs : s.Of m) {name : String} {r : Routine}
    (hr : s.library.find? name = some r) {arguments : List Datum}
    (harguments : Datum.Shaped m.recordTypes r.inputs arguments) :
    (∀ e, s.library.run name arguments = .error e → s.library.Faults name e) ∧
    (∀ outputs, s.library.run name arguments = .ok outputs →
      Datum.Shaped m.recordTypes r.outputs outputs) ∧
    ((∀ r', s.library.Reaches name r' → ∀ step ∈ r'.steps, ∀ locals body exports,
        step.operation ≠ .block locals body exports) →
      Datum.Typed m.recordTypes r.inputs arguments →
      ∃ outputs, s.library.run name arguments = .ok outputs ∧
        Datum.Typed m.recordTypes r.outputs outputs) := by
  have hresolved := Model.resolved_of_build hm
  have hdepth : s.library.entries.length ≤ s.library.entries.length + 1 := Nat.le_succ _
  have hshaped := hs.yields_runWithin hresolved (fun _ => trivial) hdepth hr
    (fun _ _ _ _ _ _ _ _ _ _ => trivial) harguments
  refine ⟨hshaped.failsOnly, fun outputs => hshaped.result, fun hblocks htyped => ?_⟩
  have haccepts : ∀ v : Value, v.scalar.accepts v := by
    intro v
    cases v <;> rfl
  have hyields := hs.yields_runWithin hresolved haccepts hdepth hr
    (fun r' hr' step hstep locals body exports ho => absurd ho (hblocks r' hr' step hstep _ _ _))
    htyped
  cases hrun : s.library.runWithin (s.library.entries.length + 1) name arguments with
  | ok outputs => exact ⟨outputs, hrun, hyields.result hrun⟩
  | error e =>
    obtain ⟨r', step, hr', hstep, hfaults⟩ := hyields.failsOnly e hrun
    cases hfaults with
    | unreadable ho | expression ho => exact absurd ho (hblocks r' hr' step hstep _ _ _)

namespace Sample

/-- What a request for `Use` leaves behind. -/
def compilation : Compilation :=
  ((compileNamed model "Nav" "Use").run.run {}).2

def used : Routine where
  component := "Nav"
  raw := "Use"
  ident := "Use"
  inputs := [⟨"pose", "pose", .record "Pose"⟩]
  outputs := [⟨"ready", "ready", .scalar .bool⟩]
  steps := [
    ⟨"p", .receive "pose" "pose" (.record "Pose") false⟩,
    ⟨"c", .call (some ("c", .record "Pose")) "Nav::Mark" "Mark" ["pose"]⟩,
    ⟨"g", .read "g" "c" "ready" .bool⟩,
    ⟨"r", .output 0 "g"⟩]
  calls := ["Nav::Mark"]

theorem results_compilation :
    compilation.results = [("Nav::Mark", .ok marked), ("Nav::Use", .ok used)] := by
  decide +kernel

theorem pose_fits {ok : Scalar → Value → Prop} (hok : ok .bool (.bool false)) :
    Datum.FitAll model.recordTypes ok used.inputs
      [.record ⟨"Pose", [("ready", .bool false), ("armed", .bool false)]⟩] := by
  refine .cons (.record (r := ⟨"Pose", _⟩) fun t ht _ field hfield => ⟨.bool false, ?_⟩) .nil
  cases List.mem_singleton.1 ht
  obtain rfl | hfield := List.mem_cons.1 hfield
  · exact ⟨rfl, hok⟩
  · cases List.mem_singleton.1 hfield
    exact ⟨rfl, hok⟩

/-- `Use` runs through, by way of `Mark`. -/
theorem run_use : ∃ outputs, compilation.library.run "Nav::Use"
      [.record ⟨"Pose", [("ready", .bool false), ("armed", .bool false)]⟩] = .ok outputs ∧
    Datum.Typed model.recordTypes used.outputs outputs := by
  have hs : compilation.Of model := .named .start _ _
  have hr : compilation.library.find? "Nav::Use" = some used := by
    rw [hs.find?_library, results_compilation]
    simp
  refine (Library.run_sound build_definition hs hr (pose_fits trivial)).2.2 ?_ (pose_fits rfl)
  intro r' hr' step hstep locals body exports
  have hmem : ∃ name, (name, .ok r') ∈ compilation.results := by
    cases hr' with
    | self h | call _ _ h => exact ⟨_, hs.find?_library.1 h⟩
  obtain ⟨name, hmem⟩ := hmem
  simp only [results_compilation, List.mem_cons, Prod.mk.injEq, Except.ok.injEq, List.not_mem_nil,
    or_false] at hmem
  obtain ⟨-, rfl⟩ | ⟨-, rfl⟩ := hmem
  all_goals
    revert step
    simp [marked, used]

end Sample

end FlightGen
