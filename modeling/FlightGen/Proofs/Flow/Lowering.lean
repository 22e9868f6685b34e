import FlightGen.Proofs.Flow.Dependency
import FlightGen.Proofs.Flow.Typing
import FlightGen.Proofs.Flow.Vars

/-! What a lowered activity consists of: an order of its nodes that follows all
dependencies, checked types, a variable for every value, and a step for every node. -/

namespace FlightGen

/-- Node `x` is carried out before node `y`. -/
def Routine.Precedes (r : Routine) (x y : String) : Prop :=
  ∃ i j, r.position? x = some i ∧ r.position? y = some j ∧ i < j

theorem Routine.position?_eq_some {r : Routine} {x : String} {i : Nat} :
    r.position? x = some i ↔ x ∈ r.order ∧ r.order.idxOf x = i := by
  have hposition : r.position? x = r.order.findIdx? (· = x) := by
    simp [Routine.position?, Routine.order, List.findIdx?_map, Function.comp_def]
  rw [hposition]
  by_cases hx : x ∈ r.order
  · have hfind : r.order.findIdx? (· = x) = some (r.order.idxOf x) :=
      findIdx?_key id hx fun _ _ h => h
    simp [hfind, hx]
  · have hnone : r.order.findIdx? (· = x) = none := by
      refine List.findIdx?_eq_none_iff.2 fun y hy => ?_
      rw [decide_eq_false_iff_not]
      rintro rfl
      exact hx hy
    simp [hnone, hx]

theorem Routine.precedes_iff {r : Routine} (hr : r.order.Nodup) {x y : String} :
    r.Precedes x y ↔ [x, y].Sublist r.order := by
  simp only [Routine.Precedes, Routine.position?_eq_some]
  constructor
  · rintro ⟨_, _, ⟨hx, rfl⟩, ⟨hy, rfl⟩, hlt⟩
    exact (before_iff_idxOf_lt hr hx hy).2 hlt
  · intro h
    exact ⟨_, _, ⟨mem_left_of_before h, rfl⟩, ⟨mem_right_of_before h, rfl⟩, idxOf_lt_of_before hr h⟩

theorem mem_calledNames {steps : List Step} {name : String} :
    name ∈ calledNames steps ↔ ∃ s ∈ steps, s.operation.target? = some name := by
  rw [calledNames, sortedDistinct, List.mem_mergeSort, List.mem_eraseDups, List.mem_filterMap]

namespace Flow

variable {f : Flow} {r : Routine}

/-- Everything on which the lowering of an activity to a routine rests. -/
structure Lowering (f : Flow) (r : Routine) where
  graph : Graph
  nodes : List Nat
  writes : List Write
  vars : List NodeVars
  graph_eq : f.graph = .ok graph
  nodes_eq : graph.order = .ok nodes
  types : ∀ n < f.size, f.checkNode n = .ok ()
  writes_eq : f.writes = .ok writes
  vars_eq : f.nodeVars (writes.map (·.root)) = .ok vars
  steps_eq : nodes.mapM (f.step vars (writes.map (·.root))) = .ok r.steps
  component_eq : r.component = f.component.name.ident
  ident_eq : r.ident = f.activity.name.ident
  inputs_eq : r.inputs = f.slots .input
  outputs_eq : r.outputs = f.slots .output
  calls_eq : r.calls = calledNames r.steps

theorem exists_lowering (h : f.lower = .ok r) : Nonempty (f.Lowering r) := by
  obtain ⟨nodes, horder, h⟩ := bind_eq_ok.1 h
  obtain ⟨_, htypes, h⟩ := bind_eq_ok.1 h
  obtain ⟨steps, hsteps, h⟩ := bind_eq_ok.1 h
  cases h
  obtain ⟨graph, hgraph, horder⟩ := bind_eq_ok.1 horder
  obtain ⟨ws, hws, horder⟩ := bind_eq_ok.1 horder
  obtain ⟨_, -, horder⟩ := bind_eq_ok.1 horder
  obtain ⟨ws', hws', hsteps⟩ := bind_eq_ok.1 hsteps
  cases hws.symm.trans hws'
  obtain ⟨vars, hvars, hsteps⟩ := bind_eq_ok.1 hsteps
  have hnodes : graph.order = .ok nodes := by
    split at horder
    · rename_i hnodes
      cases horder
      exact hnodes
    · cases horder
  exact ⟨{
    graph, nodes, writes := ws, vars
    graph_eq := hgraph
    nodes_eq := hnodes
    types := fun n hn => forM_eq_ok.1 htypes n (List.mem_range.2 hn)
    writes_eq := hws
    vars_eq := hvars
    steps_eq := hsteps
    component_eq := rfl
    ident_eq := rfl
    inputs_eq := rfl
    outputs_eq := rfl
    calls_eq := rfl }⟩

namespace Lowering

variable (L : f.Lowering r)

theorem step_node {vars : List NodeVars} {written : List Nat} {n : Nat} {s : Step}
    (h : f.step vars written n = .ok s) : s.node = f.activity.nodeId n := by
  unfold step at h
  split at h
  · rename_i node hnode
    obtain ⟨operation, -, h⟩ := bind_eq_ok.1 h
    cases h
    simp [Activity.nodeId, hnode]
  · rename_i hnone
    cases h
    simp [Activity.nodeId, hnone]

theorem order_eq : r.order = L.nodes.map f.activity.nodeId :=
  map_eq_of_forall₂ (mapM_eq_ok.1 L.steps_eq) fun _ _ h => step_node h

include L in
theorem mem_calls {name : String} :
    name ∈ r.calls ↔ ∃ s ∈ r.steps, s.operation.target? = some name := by
  rw [L.calls_eq, mem_calledNames]

section

variable {k : Nat} (hf : f.activity.Resolved k)
include hf

theorem dependencies : f.Dependencies L.graph :=
  f.dependencies hf L.graph_eq

theorem mem_nodes {n : Nat} : n ∈ L.nodes ↔ n < f.size := by
  rw [Graph.mem_order L.nodes_eq, (L.dependencies hf).size]

omit hf in
theorem nodup_nodes : L.nodes.Nodup :=
  Graph.order_nodup L.nodes_eq

omit hf in
theorem before_of_path {a b : Nat} (h : L.graph.Path a b) : [a, b].Sublist L.nodes :=
  Graph.before_of_path L.nodes_eq h

theorem path_of_stated {a b : Nat} (h : Relation.TransGen f.Stated a b) : L.graph.Path a b :=
  Relation.TransGen.mono (L.dependencies hf).stated _ _ h

omit L in
theorem nodeId_inj {a b : Nat} (ha : a < f.size) (hb : b < f.size)
    (h : f.activity.nodeId a = f.activity.nodeId b) : a = b := by
  have hids := hf.ids
  rw [Activity.nodeId, Activity.nodeId, ← List.getElem?_map, ← List.getElem?_map,
    List.getElem?_eq_getElem (by simpa [size] using ha),
    List.getElem?_eq_getElem (by simpa [size] using hb)] at h
  exact (List.Nodup.getElem_inj_iff hids).1 h

include L in
theorem nodup_order : r.order.Nodup := by
  rw [L.order_eq]
  refine L.nodup_nodes.map_on fun a ha b hb => ?_
  exact nodeId_inj hf ((L.mem_nodes hf).1 ha) ((L.mem_nodes hf).1 hb)

theorem precedes_iff {a b : Nat} (ha : a < f.size) (hb : b < f.size) :
    r.Precedes (f.activity.nodeId a) (f.activity.nodeId b) ↔ [a, b].Sublist L.nodes := by
  rw [Routine.precedes_iff (L.nodup_order hf), L.order_eq]
  refine before_map_iff (fun x hx y hy => ?_) ((L.mem_nodes hf).2 ha) ((L.mem_nodes hf).2 hb)
  exact nodeId_inj hf ((L.mem_nodes hf).1 hx) ((L.mem_nodes hf).1 hy)

end

/-! ### Where values are stored -/

theorem length_outputVars_opaqueAction {n : Nat} {body : String} {language : Option String}
    {inputs outputs : List Pin}
    (h : f.action n = .opaqueAction body language inputs outputs) :
    (outputVars L.vars n).length = outputs.length := by
  have hn : n < f.size := f.lt_size (by simp [h])
  obtain ⟨node, -, hnode, haction⟩ := f.exists_node hn
  exact (length_outputVars L.vars_eq hnode).1 _ _ _ _ (haction.trans h)

theorem outputVars_eq_nil {n : Nat} (h : ∀ body language inputs outputs,
    f.action n ≠ .opaqueAction body language inputs outputs) : outputVars L.vars n = [] := by
  by_cases hn : n < f.size
  · obtain ⟨node, -, hnode, haction⟩ := f.exists_node hn
    exact (length_outputVars L.vars_eq hnode).2 (by simpa [haction] using h)
  · have hlength : L.vars.length = f.size := by
      obtain ⟨t, t', -, hvars⟩ := nodeVars_eq_ok L.vars_eq
      simpa [size] using (Naming.forall₂_mapM hvars).length_eq.symm
    simp [outputVars, List.getElem?_eq_none (show L.vars.length ≤ n by omega)]

/-- The variable of an outlet, with its type: that of an output of an opaque action, or
the one in which the root of an object keeps its value. -/
inductive Stored : Outlet → String → DataType → Prop
  | output {o : Outlet} {x : String} {i : Nat} {pin : Pin} {body : String}
      {language : Option String} {inputs outputs : List Pin}
      (h : f.action o.node = .opaqueAction body language inputs outputs) (hpin : outputs[i]? = some pin)
      (hx : (outputVars L.vars o.node)[i]? = some x) : Stored o x (.scalar pin.scalar)
  | value {o : Outlet} {r : Nat} {type : DataType} (hr : f.RootOf o.node r)
      (ht : f.typeOf ⟨r, none⟩ = .ok type) : Stored o (valueVar L.vars r) type

theorem stored {o : Outlet} {x : String} {type : DataType} (ht : f.typeOf o = .ok type)
    (hx : f.outletVar L.vars o = .ok x) : L.Stored o x type := by
  have hvalue : (∀ body language inputs outputs,
      f.action o.node ≠ .opaqueAction body language inputs outputs) →
      ∃ r, f.root o = .ok r ∧ x = valueVar L.vars r := by
    intro hother
    unfold outletVar at hx
    rw [L.outputVars_eq_nil hother] at hx
    simp only [List.getElem?_nil, Option.bind_fun_none] at hx
    obtain ⟨r, hr, hx⟩ := bind_eq_ok.1 hx
    cases hx
    exact ⟨r, hr, rfl⟩
  cases haction : f.action o.node with
  | opaqueAction body language inputs outputs =>
    obtain ⟨i, pin, hpin, houtput, rfl⟩ := typeOf_opaqueAction haction ht
    have hlt : i < (outputVars L.vars o.node).length := by
      rw [L.length_outputVars_opaqueAction haction]
      exact (List.getElem?_eq_some_iff.1 houtput).1
    refine .output haction houtput ?_
    unfold outletVar at hx
    simp only [hpin, Option.bind_some, List.getElem?_eq_getElem hlt] at hx ⊢
    cases hx
    rfl
  | write object feature value =>
    obtain ⟨r, hr, rfl⟩ := hvalue (by simp [haction])
    obtain ⟨r', hr', ht'⟩ := typeOf_write haction ht
    cases hr.symm.trans hr'
    exact .value (rootOf_of_root hr) ht'
  | _ =>
    obtain ⟨r, hr, rfl⟩ := hvalue (by simp [haction])
    have hroot := rootOf_of_root hr
    rw [typeOf_value (by simp [haction])] at ht
    cases hroot.unique (.self (by simp [haction]))
    exact .value hroot ht

end Lowering

end Flow

/-! ### The sample model -/

namespace Sample

def marking : Flow := ⟨model.recordTypes, component, mark, "Nav::Mark", []⟩

theorem marking_of : marking.Of model :=
  ⟨rfl, List.mem_cons_self, List.mem_cons_self⟩

def marked : Routine where
  component := "Nav"
  raw := "Mark"
  ident := "Mark"
  inputs := [⟨"pose", "pose", .record "Pose"⟩]
  outputs := [⟨"marked", "marked", .record "Pose"⟩]
  steps := [
    ⟨"p", .receive "pose" "pose_copy" (.record "Pose") true⟩,
    ⟨"t", .literal "t" (.bool true)⟩,
    ⟨"w", .write "pose_copy" "ready" "t"⟩,
    ⟨"v", .write "pose_copy" "armed" "t"⟩,
    ⟨"r", .output 0 "pose_copy"⟩]
  calls := []

theorem lower_marking : marking.lower = .ok marked := by
  decide +kernel

end Sample

end FlightGen
