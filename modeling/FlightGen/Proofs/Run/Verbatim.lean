import FlightGen.Proofs.Flow.Scoping
import FlightGen.Proofs.Model.Pins
import FlightGen.Proofs.Run.Preservation

/-! Bodies that name their pins. The block of a node has one variable for each text that its
pins bear. Where this variable is spelled like the text, a body that uses the text reads the
source of the input pin and writes to the output pin, and touches no pin of another text. -/

namespace FlightGen

/-! ### Pins of a node -/

/-- Pins that differ in each direction, with a source for each input. -/
structure PinsDistinct (inputs outputs : List Pin) : Prop where
  inputRaws : (inputs.map (·.name.raw)).Nodup
  outputRaws : (outputs.map (·.name.raw)).Nodup
  sources : ∀ pin ∈ inputs, ∃ o, pin.source = some o

theorem Action.Resolves.pinsDistinct {s : ActivityScope} {ident body : String}
    {idents : List (String × String)} {d : Definition.Action} {language : Option String}
    {inputs outputs : List Pin}
    (h : Action.Resolves s ident idents d (.opaqueAction body language inputs outputs)) :
    PinsDistinct inputs outputs := by
  cases h with
  | @opaqueAction _ _ ds ds' _ hinputs houtputs hpins =>
    refine ⟨?_, ?_, forall_of_forall₂ hpins ?_⟩
    · have hraws : inputs.map (·.name.raw) = ds.map (·.name) := by
        refine map_eq_of_forall₂ hpins ?_
        rintro d pin ⟨ref, o, -, -, rfl⟩
        rfl
      rwa [hraws]
    · rw [List.map_map]
      exact houtputs
    · rintro d pin ⟨ref, o, -, -, rfl⟩
      exact ⟨o, rfl⟩

theorem Model.pinsDistinct {d : Definition} {m : Model} (hm : Model.build d = .ok m) {c : Component}
    {a : Activity} {n : Node} (hc : c ∈ m.components) (ha : a ∈ c.activities) (hn : n ∈ a.nodes)
    {body : String} {language : Option String} {inputs outputs : List Pin}
    (h : n.action = .opaqueAction body language inputs outputs) : PinsDistinct inputs outputs := by
  obtain ⟨S⟩ := exists_modelStages hm
  obtain ⟨_, -, ⟨R⟩⟩ := exists_of_forall₂ S.componentRuns.flip hc
  obtain ⟨_, -, _, _, _, ⟨A⟩⟩ := exists_of_forall₂ R.stages.runs.flip ha
  obtain ⟨_, -, hrealizes⟩ := exists_of_forall₂ A.nodes.flip hn
  obtain ⟨idents, hresolves⟩ := hrealizes.action
  exact Action.Resolves.pinsDistinct (h ▸ hresolves)

theorem Action.eq_opaqueAction {action : Action} {pin : Pin} (h : pin ∈ action.pins) :
    ∃ body language inputs outputs, action = .opaqueAction body language inputs outputs := by
  cases action with
  | opaqueAction body language inputs outputs => exact ⟨body, language, inputs, outputs, rfl⟩
  | _ => cases h

namespace Flow

variable {f : Flow} {r : Routine}

/-! ### Variables of a block -/

theorem subset_addOutputLocal {locals : List BlockLocal} {outputs : List Pin} :
    locals ⊆ outputs.foldl addOutputLocal locals := by
  induction outputs generalizing locals with
  | nil => exact List.Subset.refl _
  | cons pin outputs ih =>
    refine List.Subset.trans ?_ ih
    unfold addOutputLocal
    split
    · exact List.Subset.refl _
    · exact List.subset_append_left _ _

theorem nodup_addOutputLocal {locals : List BlockLocal} {outputs : List Pin}
    (h : (locals.map (·.name)).Nodup) :
    ((outputs.foldl addOutputLocal locals).map (·.name)).Nodup := by
  induction outputs generalizing locals with
  | nil => exact h
  | cons pin outputs ih =>
    refine ih ?_
    unfold addOutputLocal
    split
    · exact h
    · rename_i hnew
      rw [List.map_append, List.map_singleton]
      refine h.append (List.nodup_singleton _) fun x hx hx' => hnew ?_
      obtain ⟨l, hl, rfl⟩ := List.mem_map.1 hx
      exact List.any_eq_true.2 ⟨l, hl, decide_eq_true (List.mem_singleton.1 hx')⟩

theorem map_name_inputLocals {vars : List NodeVars} {inputs : List Pin} {locals : List BlockLocal}
    (h : inputs.mapM (f.inputLocal vars) = .ok locals) :
    locals.map (·.name) = inputs.map (·.name.ident) :=
  map_eq_of_forall₂ (mapM_eq_ok.1 h) fun _ _ hl => Lowering.name_inputLocal hl

theorem mem_blockExports {outer : List String} {outputs : List Pin} {e : BlockExport} :
    e ∈ blockExports outer outputs ↔ ∃ (k : Nat) (pin : Pin), outputs[k]? = some pin ∧
      outer[k]? = some e.outer ∧ e = ⟨e.outer, pin.name.ident, pin.scalar⟩ := by
  unfold blockExports
  rw [List.mem_map]
  constructor
  · rintro ⟨⟨x, pin⟩, hmem, rfl⟩
    obtain ⟨k, hk⟩ := List.mem_iff_getElem?.1 hmem
    obtain ⟨hx, hpin⟩ := List.getElem?_zip_eq_some.1 hk
    exact ⟨k, pin, hpin, hx, rfl⟩
  · rintro ⟨k, pin, hpin, hx, he⟩
    exact ⟨(e.outer, pin), List.mem_iff_getElem?.2 ⟨k, List.getElem?_zip_eq_some.2 ⟨hx, hpin⟩⟩, he.symm⟩

theorem outletVar_output {vars : List NodeVars} {n k : Nat} {x : String}
    (h : (outputVars vars n)[k]? = some x) : f.outletVar vars ⟨n, some k⟩ = .ok x := by
  simp [outletVar, h]

theorem fst_of_initial {env : Env Datum} {l : BlockLocal} {e : String × Value}
    (h : l.initial env = .ok e) : e.1 = l.name := by
  unfold BlockLocal.initial at h
  split at h
  · obtain ⟨v, -, h⟩ := bind_eq_ok.1 h
    cases h
    rfl
  · cases h
    rfl

/-- A variable of a block is found by its name when the body starts. -/
theorem lookup_initial {env : Env Datum} {locals : List BlockLocal} {scope : Env Value}
    (h : locals.mapM (·.initial env) = .ok scope) (hnodup : (locals.map (·.name)).Nodup)
    {l : BlockLocal} (hl : l ∈ locals) :
    ∃ v, l.initial env = .ok (l.name, v) ∧ scope.reverse.lookup l.name = some v := by
  have hnames : scope.map (·.1) = locals.map (·.name) :=
    map_eq_of_forall₂ (mapM_eq_ok.1 h) fun _ _ he => fst_of_initial he
  obtain ⟨e, he, hinitial⟩ := exists_of_forall₂ (mapM_eq_ok.1 h) hl
  have hname := fst_of_initial hinitial
  refine ⟨e.2, hname ▸ hinitial, ?_⟩
  have hreverse : (scope.reverse.map (·.1)).Nodup := by
    rw [List.map_reverse, List.nodup_reverse, hnames]
    exact hnodup
  have hlookup : (scope.reverse.map fun e => (e.1, e.2)).lookup e.1 = some e.2 :=
    lookup_of_nodup hreverse (List.mem_reverse.2 he)
  simpa [hname] using hlookup

/-! ### Pins in a block -/

/-- How a block carries the pins of a text: by a single variable, spelled like the text, which
starts from the source of the input pin and goes to the output pin, and to no other. -/
structure Carries (f : Flow) (vars : List NodeVars) (n : Nat) (inputs outputs : List Pin)
    (raw : String) (locals : List BlockLocal) (exports : List BlockExport) : Prop where
  only : ∃ l ∈ locals, l.name = raw ∧ ∀ l' ∈ locals, l'.name = raw → l' = l
  /-- The body finds the variable under the text. -/
  found : ∀ env scope, locals.mapM (·.initial env) = .ok scope → ∀ l ∈ locals, l.name = raw →
    ∃ v, l.initial env = .ok (raw, v) ∧ scope.reverse.lookup raw = some v
  input : ∀ pin ∈ inputs, pin.name.raw = raw → ∃ o x, pin.source = some o ∧
    f.outletVar vars o = .ok x ∧ ⟨raw, pin.scalar, some x⟩ ∈ locals
  /-- Without an input of the text, the variable starts at zero. -/
  start : (∀ pin ∈ inputs, pin.name.raw ≠ raw) → ∀ pin ∈ outputs, pin.name.raw = raw →
    ⟨raw, pin.scalar, none⟩ ∈ locals
  output : ∀ k pin, outputs[k]? = some pin → pin.name.raw = raw → ∃ x,
    f.outletVar vars ⟨n, some k⟩ = .ok x ∧ ⟨x, raw, pin.scalar⟩ ∈ exports
  exported : ∀ e ∈ exports, e.name = raw → ∃ k pin, outputs[k]? = some pin ∧
    pin.name.raw = raw ∧ f.outletVar vars ⟨n, some k⟩ = .ok e.outer

section

variable {vars : List NodeVars} {n : Nat} {inputs outputs : List Pin} {raw : String}
  {locals : List BlockLocal} (hdistinct : PinsDistinct inputs outputs)
  (hnamed : ∀ pin ∈ inputs ++ outputs, pin.name.ident = raw ↔ pin.name.raw = raw)
  (hl : inputs.mapM (f.inputLocal vars) = .ok locals)

include hdistinct hnamed hl

theorem exists_inputLocal {pin : Pin} (hpin : pin ∈ inputs) (hraw : pin.name.raw = raw) :
    ∃ o x, pin.source = some o ∧ f.outletVar vars o = .ok x ∧ ⟨raw, pin.scalar, some x⟩ ∈ locals := by
  have hident := (hnamed pin (List.mem_append_left _ hpin)).2 hraw
  obtain ⟨o, ho⟩ := hdistinct.sources pin hpin
  obtain ⟨l, hmem, hlocal⟩ := exists_of_forall₂ (mapM_eq_ok.1 hl) hpin
  unfold inputLocal at hlocal
  rw [ho] at hlocal
  obtain ⟨x, hx, hlocal⟩ := bind_eq_ok.1 hlocal
  cases hlocal
  exact ⟨o, x, ho, hx, hident ▸ hmem⟩

theorem outputLocal_mem (hnone : ∀ pin ∈ inputs, pin.name.raw ≠ raw) {pin : Pin}
    (hpin : pin ∈ outputs) (hraw : pin.name.raw = raw) :
    ⟨raw, pin.scalar, none⟩ ∈ outputs.foldl addOutputLocal locals := by
  have hident := (hnamed pin (List.mem_append_right _ hpin)).2 hraw
  obtain ⟨l, hmem, hname⟩ := List.mem_map.1 (Lowering.name_mem_addOutputLocal.2 pin hpin)
  obtain hinput | ⟨pin', hpin', rfl⟩ := Lowering.exists_pin_of_local hmem
  · -- A variable of an input pin has the text of that pin.
    obtain ⟨pin', hpin', hlocal⟩ := (mem_of_mapM hl).1 hinput
    have hident' : pin'.name.ident = raw :=
      (Lowering.name_inputLocal hlocal).symm.trans (hname.trans hident)
    exact absurd ((hnamed pin' (List.mem_append_left _ hpin')).1 hident') (hnone pin' hpin')
  · have hraw' := (hnamed pin' (List.mem_append_right _ hpin')).1 (hname.trans hident)
    cases List.inj_on_of_nodup_map hdistinct.outputRaws hpin' hpin (hraw'.trans hraw.symm)
    exact hident ▸ hmem

theorem carries_of_named (hinj : ∀ pin ∈ inputs, ∀ pin' ∈ inputs,
      pin.name.ident = pin'.name.ident → pin.name.raw = pin'.name.raw)
    (hexists : ∃ pin ∈ inputs ++ outputs, pin.name.raw = raw)
    (hlength : (outputVars vars n).length = outputs.length) :
    f.Carries vars n inputs outputs raw (outputs.foldl addOutputLocal locals)
      (blockExports (outputVars vars n) outputs) := by
  have hnodup : ((outputs.foldl addOutputLocal locals).map (·.name)).Nodup := by
    refine nodup_addOutputLocal ?_
    rw [map_name_inputLocals hl]
    refine hdistinct.inputRaws.of_map.map_on fun pin hpin pin' hpin' heq => ?_
    exact List.inj_on_of_nodup_map hdistinct.inputRaws hpin hpin' (hinj pin hpin pin' hpin' heq)
  have hinput : ∀ pin ∈ inputs, pin.name.raw = raw → ∃ o x, pin.source = some o ∧
      f.outletVar vars o = .ok x ∧ ⟨raw, pin.scalar, some x⟩ ∈ outputs.foldl addOutputLocal locals := by
    intro pin hpin hraw
    obtain ⟨o, x, ho, hx, hmem⟩ := exists_inputLocal hdistinct hnamed hl hpin hraw
    exact ⟨o, x, ho, hx, subset_addOutputLocal hmem⟩
  have hlocal : ∃ l ∈ outputs.foldl addOutputLocal locals, l.name = raw := by
    obtain ⟨pin, hpin, hraw⟩ := hexists
    obtain hpin | hpin := List.mem_append.1 hpin
    · obtain ⟨o, x, -, -, hmem⟩ := hinput pin hpin hraw
      exact ⟨_, hmem, rfl⟩
    · obtain ⟨l, hl, hname⟩ := List.mem_map.1 (Lowering.name_mem_addOutputLocal.2 pin hpin)
      exact ⟨l, hl, hname.trans ((hnamed pin (List.mem_append_right _ hpin)).2 hraw)⟩
  refine ⟨?_, ?_, hinput, fun hnone pin => outputLocal_mem hdistinct hnamed hl hnone, ?_, ?_⟩
  · obtain ⟨l, hmem, hname⟩ := hlocal
    refine ⟨l, hmem, hname, fun l' hmem' hname' => ?_⟩
    exact List.inj_on_of_nodup_map hnodup hmem' hmem (hname'.trans hname.symm)
  · rintro env scope hscope l hmem rfl
    exact lookup_initial hscope hnodup hmem
  · intro k pin hpin hraw
    obtain ⟨x, hx⟩ : ∃ x, (outputVars vars n)[k]? = some x := by
      obtain ⟨hk, -⟩ := List.getElem?_eq_some_iff.1 hpin
      exact ⟨_, List.getElem?_eq_getElem (hlength ▸ hk)⟩
    have hident := (hnamed pin (List.mem_append_right _ (List.mem_of_getElem? hpin))).2 hraw
    exact ⟨x, outletVar_output hx, mem_blockExports.2 ⟨k, pin, hpin, hx, by rw [hident]⟩⟩
  · intro e he hname
    obtain ⟨k, pin, hpin, hx, heq⟩ := mem_blockExports.1 he
    have hident : pin.name.ident = raw := (congrArg BlockExport.name heq).symm.trans hname
    have hraw := (hnamed pin (List.mem_append_right _ (List.mem_of_getElem? hpin))).1 hident
    exact ⟨k, pin, hpin, hraw, outletVar_output hx⟩

end

/-- A step with the block of an opaque action, which carries the pins of a text. -/
inductive Lowering.CarriesAt (L : f.Lowering r) (n : Nat) (raw : String) (s : Step) : Prop
  | block {body : String} {language : Option String} {inputs outputs : List Pin}
      {locals : List BlockLocal} {exports : List BlockExport}
      (h : f.action n = .opaqueAction body language inputs outputs)
      (hs : s.operation = .block locals (Text.trimmedLines body) exports)
      (hcarries : f.Carries L.vars n inputs outputs raw locals exports) : L.CarriesAt n raw s

theorem Lowering.Stands.block {L : f.Lowering r} {n : Nat} {s : Step} (hs : L.Stands n s)
    {body : String} {language : Option String} {inputs outputs : List Pin}
    (haction : f.action n = .opaqueAction body language inputs outputs) :
    ∃ locals, inputs.mapM (f.inputLocal L.vars) = .ok locals ∧
      s.operation = .block (outputs.foldl addOutputLocal locals) (Text.trimmedLines body)
        (blockExports (outputVars L.vars n) outputs) := by
  obtain ⟨-, -, hperforms⟩ := hs
  generalize s.operation = operation at hperforms
  cases hperforms with
  | block h hl =>
    cases haction.symm.trans h
    exact ⟨_, hl, rfl⟩
  | receive h | output h | create h | literal h | read h | write h | call h | fork h | join h =>
    cases haction.symm.trans h

/-- The block of a node carries the texts of pins verbatim, if they are identifiers and have no
rival. -/
theorem pins_verbatim {d : Definition} {m : Model} (hm : Model.build d = .ok m) (hf : f.Of m)
    (hr : f.lower = .ok r) {node : Node} (hnode : node ∈ f.activity.nodes) {pin : Pin}
    (hpin : pin ∈ node.action.pins)
    (hraw : Identifier.render? pin.name.raw = some pin.name.raw)
    (hrival : ¬ m.Rival (f.component.pinScope f.activity node) pin.name.raw) :
    pin.name.ident = pin.name.raw ∧ ∃ (L : f.Lowering r) (n : Nat), ∃ s ∈ r.steps,
      f.activity.nodes[n]? = some node ∧ s.node = node.id ∧ L.CarriesAt n pin.name.raw s := by
  have hident := Model.pin_ident_eq_raw hm hf.component hf.activity hnode hpin hraw hrival
  have hresolved := hf.resolved (Model.resolved_of_build hm)
  obtain ⟨L⟩ := f.exists_lowering hr
  obtain ⟨n, hn⟩ := List.mem_iff_getElem?.1 hnode
  have hlt : n < f.size := (List.getElem?_eq_some_iff.1 hn).1
  obtain ⟨s, hs, hstands⟩ := exists_of_forall₂ (L.stands hresolved) ((L.mem_nodes hresolved).2 hlt)
  refine ⟨hident, L, n, s, hs, hn, by simp [hstands.node, Activity.nodeId, hn], ?_⟩
  obtain ⟨body, language, inputs, outputs, hkind⟩ := Action.eq_opaqueAction hpin
  have haction : f.action n = .opaqueAction body language inputs outputs := by
    simp [action, Activity.action, hn, hkind]
  obtain ⟨locals, hl, hoperation⟩ := hstands.block haction
  have hinj : ∀ p ∈ inputs ++ outputs, ∀ q ∈ inputs ++ outputs,
      p.name.ident = q.name.ident ↔ p.name.raw = q.name.raw := by
    intro p hp q hq
    have hpins : node.action.pins = inputs ++ outputs := by rw [hkind, Action.pins]
    rw [← hpins] at hp hq
    exact Model.pin_ident_inj hm hf.component hf.activity hnode hp hq
  rw [hkind] at hpin
  refine .block haction hoperation (carries_of_named
    (Model.pinsDistinct hm hf.component hf.activity hnode hkind) (fun p hp => ?_) hl
    (fun p hp q hq => (hinj p (List.mem_append_left _ hp) q (List.mem_append_left _ hq)).1)
    ⟨pin, hpin, rfl⟩ (L.length_outputVars_opaqueAction haction))
  rw [← hinj p hp pin hpin, hident]

end Flow

namespace Sample

/-- A body that says `a_b`, over two pins that may come to this name. -/
def mixerDefinition (first second : String) : Definition where
  recordTypes := []
  components := [{
    name := "Mixer"
    attributes := []
    machine := ⟨"Main", "Idle", [⟨"Idle", []⟩], []⟩
    activities := [⟨"Blend", [
      ⟨"x", none, .parameter .input "x" "float" none⟩,
      ⟨"y", none, .parameter .input "y" "float" none⟩,
      ⟨"f", none, .opaqueAction "r = a_b" none
        [⟨first, .float, some ⟨"x", none⟩⟩, ⟨second, .float, some ⟨"y", none⟩⟩]
        [⟨"r", .float, none⟩]⟩,
      ⟨"out", none, .parameter .output "out" "float" (some ⟨"f", some "r"⟩)⟩], []⟩] }]

def blendNode (first second : Name) : Node where
  id := "f"
  ident := "f"
  action := .opaqueAction "r = a_b" none
    [⟨first, .float, some ⟨0, none⟩⟩, ⟨second, .float, some ⟨1, none⟩⟩]
    [⟨⟨"r", "r"⟩, .float, none⟩]

def blend (first second : Name) : Activity where
  name := ⟨"Blend", "Blend"⟩
  nodes := [
    ⟨"x", "x", .parameter .input ⟨"x", "x"⟩ (.scalar .float) none⟩,
    ⟨"y", "y", .parameter .input ⟨"y", "y"⟩ (.scalar .float) none⟩,
    blendNode first second,
    ⟨"out", "out", .parameter .output ⟨"out", "out"⟩ (.scalar .float) (some ⟨2, some 0⟩)⟩]
  edges := []

def mixer (first second : Name) : Component where
  name := ⟨"Mixer", "Mixer"⟩
  machine := ⟨"Main", "Main"⟩
  states := [⟨⟨"Idle", "Idle"⟩, []⟩]
  initial := 0
  transitions := []
  activities := [blend first second]
  attributes := []
  commands := [⟨"START_STATE_MACHINE", .start⟩, ⟨"STOP_STATE_MACHINE", .stop⟩]

def blending (first second : Name) : Flow :=
  ⟨[], mixer first second, blend first second, "Mixer::Blend", []⟩

theorem blending_of (first second : Name) :
    (blending first second).Of ⟨[], [mixer first second]⟩ :=
  ⟨rfl, List.mem_cons_self, List.mem_cons_self⟩

def blended (first second : String) : Routine where
  component := "Mixer"
  raw := "Blend"
  ident := "Blend"
  inputs := [⟨"x", "x", .scalar .float⟩, ⟨"y", "y", .scalar .float⟩]
  outputs := [⟨"out", "out", .scalar .float⟩]
  steps := [
    ⟨"x", .receive "x" "x" (.scalar .float) false⟩,
    ⟨"y", .receive "y" "y" (.scalar .float) false⟩,
    ⟨"f", .block [⟨first, .float, some "x"⟩, ⟨second, .float, some "y"⟩, ⟨"r", .float, none⟩]
      ["r = a_b"] [⟨"f_r", "r", .float⟩]⟩,
    ⟨"out", .output 0 "f_r"⟩]
  calls := []

/-- The pin whose text comes first keeps it. -/
theorem lower_plain_first : Model.build (mixerDefinition "a_b" "a b") =
      .ok ⟨[], [mixer ⟨"a_b", "a_b"⟩ ⟨"a b", "a_b_2"⟩]⟩ ∧
    (blending ⟨"a_b", "a_b"⟩ ⟨"a b", "a_b_2"⟩).lower = .ok (blended "a_b" "a_b_2") ∧
    Identifier.render? "a_b" = some "a_b" := by
  decide +kernel

theorem not_rival_plain_first : ¬ Model.Rival ⟨[], [mixer ⟨"a_b", "a_b"⟩ ⟨"a b", "a_b_2"⟩]⟩
    "Mixer::Blend::f" "a_b" := by
  have hpath : "Mixer::Blend" ≠ "Mixer::Blend::f" := by decide
  intro h
  cases h with
  | pin hc ha hn hpin hscope hraw hident =>
    cases List.mem_singleton.1 hc
    cases List.mem_singleton.1 ha
    simp only [blend, List.mem_cons, List.not_mem_nil, or_false] at hn
    obtain rfl | rfl | rfl | rfl := hn <;> simp [blendNode, Action.pins] at hpin
    obtain rfl | rfl | rfl := hpin <;> simp at hraw hident
  | className hc ha hscope | reserved hc ha _ _ hscope | node hc ha _ hscope =>
    cases List.mem_singleton.1 hc
    cases List.mem_singleton.1 ha
    exact hpath hscope

theorem pins_verbatim_blend :
    ¬ Model.Rival ⟨[], [mixer ⟨"a_b", "a_b"⟩ ⟨"a b", "a_b_2"⟩]⟩ "Mixer::Blend::f" "a_b" ∧
    ∃ (L : (blending ⟨"a_b", "a_b"⟩ ⟨"a b", "a_b_2"⟩).Lowering (blended "a_b" "a_b_2")) (n : Nat),
      ∃ s ∈ (blended "a_b" "a_b_2").steps, s.node = "f" ∧ L.CarriesAt n "a_b" s := by
  obtain ⟨hbuild, hlower, hrender⟩ := lower_plain_first
  refine ⟨not_rival_plain_first, ?_⟩
  have hnode : blendNode ⟨"a_b", "a_b"⟩ ⟨"a b", "a_b_2"⟩ ∈
      (blending ⟨"a_b", "a_b"⟩ ⟨"a b", "a_b_2"⟩).activity.nodes := by simp [blending, blend]
  have hpin : (⟨⟨"a_b", "a_b"⟩, .float, some ⟨0, none⟩⟩ : Pin) ∈
      (blendNode ⟨"a_b", "a_b"⟩ ⟨"a b", "a_b_2"⟩).action.pins := List.mem_cons_self
  obtain ⟨-, L, n, s, hs, -, hid, hcarries⟩ := Flow.pins_verbatim hbuild (blending_of _ _) hlower
    hnode hpin hrender not_rival_plain_first
  exact ⟨L, n, s, hs, hid, hcarries⟩

/-- Where a pin of another text comes first to the name, the body reads that other pin. -/
theorem verbatim_lost : Model.build (mixerDefinition "a b" "a_b") =
      .ok ⟨[], [mixer ⟨"a b", "a_b"⟩ ⟨"a_b", "a_b_2"⟩]⟩ ∧
    Identifier.render? "a_b" = some "a_b" ∧
    (blending ⟨"a b", "a_b"⟩ ⟨"a_b", "a_b_2"⟩).lower = .ok (blended "a_b" "a_b_2") ∧
    (blended "a_b" "a_b_2").run (fun name _ => .error (.unknownActivity name))
      [.scalar (.number 1), .scalar (.number 2)] = .ok [.scalar (.number 1)] := by
  decide +kernel

end Sample

end FlightGen
