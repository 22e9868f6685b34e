import FlightGen.Proofs.Flow.Footprint

/-! The constraints that an activity puts on the order of its nodes. A routine that was
lowered from the activity meets all of them. -/

namespace FlightGen

/-- An action refers to the value at an outlet. -/
inductive Action.Refers : Action → Outlet → Prop
  | pin {body : String} {language : Option String} {inputs outputs : List Pin} {pin : Pin}
      {o : Outlet} (h : pin ∈ inputs) (ho : o ∈ pin.source) :
      Refers (.opaqueAction body language inputs outputs) o
  | argument {target : Nat} {arguments : List Argument} {a : Argument} (h : a ∈ arguments) :
      Refers (.call target arguments) a.source
  | read {object : Outlet} {feature : String} : Refers (.read object feature) object
  | object {object value : Outlet} {feature : String} : Refers (.write object feature value) object
  | value {object value : Outlet} {feature : String} : Refers (.write object feature value) value
  | source {direction : Direction} {name : Name} {type : ParameterType} {o : Outlet} :
      Refers (.parameter direction name type (some o)) o

theorem Action.Refers.mem_consumed {a : Action} {o : Outlet} (h : a.Refers o) : o ∈ a.consumed := by
  cases h with
  | pin h ho => exact List.mem_filterMap.2 ⟨_, h, ho⟩
  | argument h => exact List.mem_map.2 ⟨_, h, rfl⟩
  | read => exact List.mem_singleton_self _
  | object => exact List.mem_cons_self
  | value => exact List.mem_cons_of_mem _ (List.mem_singleton_self _)
  | source => exact List.mem_singleton_self _

/-- An action reads from or writes to the object at an outlet. -/
inductive Action.Operates : Action → Outlet → Prop
  | read {object : Outlet} {feature : String} : Operates (.read object feature) object
  | write {object value : Outlet} {feature : String} :
      Operates (.write object feature value) object

theorem Action.Operates.refers {a : Action} {o : Outlet} (h : a.Operates o) : a.Refers o := by
  cases h with
  | read => exact .read
  | write => exact .object

/-- An action that yields an object: it creates one, receives one, or gets one returned. -/
inductive Action.Produces : Action → Prop
  | create {record : Nat} : Produces (.create record)
  | receive {name : Name} {type : ParameterType} {source : Option Outlet} :
      Produces (.parameter .input name type source)
  | call {target : Nat} {arguments : List Argument} : Produces (.call target arguments)

namespace Flow

variable {f : Flow} {r : Routine}

/-- Only actions that produce objects have the type of a record. -/
theorem produces_of_typeOf {n : Nat} {record : String}
    (h : f.typeOf ⟨n, none⟩ = .ok (.record record))
    (hwrite : ∀ object feature value, f.action n ≠ .write object feature value) :
    (f.action n).Produces := by
  cases haction : f.action n with
  | create | call => constructor
  | parameter direction =>
    cases direction with
    | input => constructor
    | output => exact absurd h (typeOf_ne_ok haction (by simp) (by simp) rfl _)
  | read object feature =>
    obtain ⟨field, -, heq⟩ := typeOf_read haction h
    cases heq
  | write => exact absurd haction (hwrite _ _ _)
  | literal value => cases (typeOf_own haction (by simp) (by simp)).1 h
  | opaqueAction | fork | join => exact absurd h (typeOf_ne_ok haction (by simp) (by simp) rfl _)

/-! ### Constraints -/

/-- The steps of a routine stand in an order that suits the nodes of an activity, where
`g` are the dependencies between the nodes. -/
structure Orderly (f : Flow) (g : Graph) (r : Routine) : Prop where
  /-- Each node has one step. -/
  distinct : (f.activity.nodes.map (·.id)).Nodup
  once : r.order.Perm (f.activity.nodes.map (·.id))
  /-- Inputs come first and outputs last. -/
  parameters : ∃ first middle last, r.order = first ++ middle ++ last ∧
    first.Perm ((f.activity.parameters .input).map f.activity.nodeId) ∧
    last.Perm ((f.activity.parameters .output).map f.activity.nodeId)
  value : ∀ n o, (f.action n).Refers o →
    r.Precedes (f.activity.nodeId o.node) (f.activity.nodeId n)
  control : ∀ a b, (a, b) ∈ f.activity.edges →
    r.Precedes (f.activity.nodeId a) (f.activity.nodeId b)
  fork : ∀ n branches, f.action n = .fork branches → ∀ b ∈ branches,
    r.Precedes (f.activity.nodeId n) (f.activity.nodeId b)
  /-- A join waits for its inputs, and all that depends on the join waits for both. -/
  join : ∀ n inputs, f.action n = .join inputs →
    (∀ i ∈ inputs, r.Precedes (f.activity.nodeId i) (f.activity.nodeId n)) ∧
    ∀ b, g.Path n b → r.Precedes (f.activity.nodeId n) (f.activity.nodeId b) ∧
      ∀ i ∈ inputs, r.Precedes (f.activity.nodeId i) (f.activity.nodeId b)
  /-- An object is there before it is read or written. -/
  object : ∀ n o, (f.action n).Operates o → ∃ root, f.RootOf o.node root ∧
    (f.action root).Produces ∧ r.Precedes (f.activity.nodeId root) (f.activity.nodeId n)

theorem isParameter_unique {n : Nat} (h : f.activity.isParameter .output n = true) :
    f.activity.isParameter .input n = false := by
  unfold Activity.isParameter at h ⊢
  split at h
  · cases of_decide_eq_true h
    rfl
  · cases h

namespace Lowering

variable (L : f.Lowering r) {k : Nat} (hf : f.activity.Resolved k)
include L hf

theorem precedes_of_path {a b : Nat} (h : L.graph.Path a b) :
    r.Precedes (f.activity.nodeId a) (f.activity.nodeId b) := by
  have hbefore := L.before_of_path h
  have ha := (L.mem_nodes hf).1 (mem_left_of_before hbefore)
  have hb := (L.mem_nodes hf).1 (mem_right_of_before hbefore)
  exact (L.precedes_iff hf ha hb).2 hbefore

theorem precedes_of_stated {a b : Nat} (h : f.Stated a b) :
    r.Precedes (f.activity.nodeId a) (f.activity.nodeId b) :=
  L.precedes_of_path hf (L.path_of_stated hf (.single h))

theorem nodes_perm : L.nodes.Perm (List.range f.size) := by
  have hperm := Graph.order_perm L.nodes_eq
  rwa [(L.dependencies hf).size] at hperm

theorem order_perm : r.order.Perm (f.activity.nodes.map (·.id)) := by
  have hids : f.activity.nodes.map (·.id) = (List.range f.size).map f.activity.nodeId := by
    refine List.ext_getElem (by simp [size]) fun i hi _ => ?_
    rw [List.length_map] at hi
    simp [Activity.nodeId, List.getElem?_eq_getElem hi]
  rw [hids, L.order_eq]
  exact (L.nodes_perm hf).map _

/-- The inputs, then the nodes that are no parameters, then the outputs. -/
theorem nodes_eq_append : ∃ middle, L.nodes =
    L.nodes.filter (f.activity.isParameter .input) ++ middle ++
      L.nodes.filter (f.activity.isParameter .output) := by
  have hbefore : ∀ {a b}, f.Stated a b → [a, b].Sublist L.nodes := fun h =>
    L.before_of_path (L.path_of_stated hf (.single h))
  have hfirst := eq_filter_append L.nodup_nodes fun a _ b hb ha hb' =>
    hbefore (.first ha ((L.mem_nodes hf).1 hb) hb')
  have hlast := eq_filter_append (p := (!f.activity.isParameter .output ·))
    (L.nodup_nodes.filter (!f.activity.isParameter .input ·)) fun a ha b hb ha' hb' => by
      have hab := hbefore (.last (by simpa using hb')
        ((L.mem_nodes hf).1 (List.mem_of_mem_filter ha)) (by simpa using ha'))
      simpa [(List.mem_filter.1 ha).2, (List.mem_filter.1 hb).2] using
        hab.filter (!f.activity.isParameter .input ·)
  have houtputs : (L.nodes.filter (!f.activity.isParameter .input ·)).filter
      (!!f.activity.isParameter .output ·) = L.nodes.filter (f.activity.isParameter .output) := by
    rw [List.filter_filter]
    refine List.filter_congr fun n _ => ?_
    cases h : f.activity.isParameter .output n with
    | true => simp [isParameter_unique h]
    | false => rfl
  rw [houtputs] at hlast
  rw [hlast, ← List.append_assoc] at hfirst
  exact ⟨_, hfirst⟩

theorem parameters_perm (direction : Direction) :
    ((L.nodes.filter (f.activity.isParameter direction)).map f.activity.nodeId).Perm
      ((f.activity.parameters direction).map f.activity.nodeId) :=
  ((L.nodes_perm hf).filter _).map _

/-- The object of a read or a write has a root that produced it, and comes after it. -/
theorem exists_producer {n : Nat} {o : Outlet} (h : (f.action n).Operates o) :
    ∃ root, f.RootOf o.node root ∧ (f.action root).Produces ∧
      r.Precedes (f.activity.nodeId root) (f.activity.nodeId n) := by
  have hn : n < f.size := f.lt_size fun hn => by
    rw [hn] at h
    cases h
  obtain ⟨s, -, hs⟩ := exists_of_forall₂ (L.stands hf) ((L.mem_nodes hf).2 hn)
  have hroot : ∃ root name record field, f.RootOf o.node root ∧ f.Access root name record field := by
    generalize haction : f.action n = action at h
    cases h with
    | read =>
      obtain ⟨root, record, field, hr, haccess, -⟩ := hs.read haction
      exact ⟨root, _, record, field, hr, haccess⟩
    | write =>
      obtain ⟨root, record, field, _, hr, haccess, -⟩ := hs.write haction
      exact ⟨root, _, record, field, hr, haccess⟩
  obtain ⟨root, name, record, field, hr, haccess⟩ := hroot
  refine ⟨root, hr, produces_of_typeOf haccess.type hr.not_write, L.precedes_of_path hf ?_⟩
  exact L.path_of_stated hf (hr.path_of_consumed h.refers.mem_consumed)

end Lowering

/-- The routine of an activity of a built model carries out every node once, in an order
that suits all constraints of the activity. -/
theorem lower_orderly {d : Definition} {m : Model} (hm : Model.build d = .ok m) (hf : f.Of m)
    (hr : f.lower = .ok r) : ∃ g, f.graph = .ok g ∧ f.Orderly g r := by
  have hresolved := hf.resolved (Model.resolved_of_build hm)
  obtain ⟨L⟩ := f.exists_lowering hr
  have hstated : ∀ {a b}, f.Stated a b → r.Precedes (f.activity.nodeId a) (f.activity.nodeId b) :=
    L.precedes_of_stated hresolved
  refine ⟨L.graph, L.graph_eq, hresolved.ids, L.order_perm hresolved, ?_, ?_, ?_, ?_, ?_, ?_⟩
  · obtain ⟨middle, hnodes⟩ := L.nodes_eq_append hresolved
    refine ⟨_, middle.map f.activity.nodeId, _, ?_, L.parameters_perm hresolved .input,
      L.parameters_perm hresolved .output⟩
    rw [L.order_eq, ← List.map_append, ← List.map_append, ← hnodes]
  · exact fun n o h => hstated (.value h.mem_consumed)
  · exact fun a b h => hstated (.control h)
  · exact fun n branches h b hb => hstated (.branch h hb)
  · intro n inputs h
    refine ⟨fun i hi => hstated (.input h hi), fun b hb => ⟨L.precedes_of_path hresolved hb, ?_⟩⟩
    intro i hi
    have hin : L.graph.Path i n := L.path_of_stated hresolved (.single (.input h hi))
    exact L.precedes_of_path hresolved (hin.trans hb)
  · exact fun n o h => L.exists_producer hresolved h

end Flow

/-! ### A sample with branches

`Survey` writes to its argument in two branches and joins them before a body looks at the
outcome. Its nodes are declared last to first. -/

namespace Sample

def surveyDefinition : Definition where
  recordTypes := definition.recordTypes
  components := [{
    name := "Rover"
    attributes := []
    machine := ⟨"Cycle", "Idle", [⟨"Idle", []⟩], []⟩
    activities := [
      ⟨"Survey", [
        ⟨"r", none, .parameter .output "done" "bool" (some ⟨"o", none⟩)⟩,
        ⟨"o", none, .opaqueAction "ok = a && b" none
          [⟨"a", .bool, some ⟨"g", none⟩⟩, ⟨"b", .bool, some ⟨"h", none⟩⟩] [⟨"ok", .bool, none⟩]⟩,
        ⟨"g", none, .read ⟨"p", none⟩ "ready"⟩,
        ⟨"h", none, .read ⟨"p", none⟩ "armed"⟩,
        ⟨"j", none, .join ["w", "v"]⟩,
        ⟨"k", none, .fork ["w", "v"]⟩,
        ⟨"w", none, .write ⟨"p", none⟩ "ready" ⟨"t", none⟩⟩,
        ⟨"v", none, .write ⟨"p", none⟩ "armed" ⟨"t", none⟩⟩,
        ⟨"t", none, .literal (.bool true)⟩,
        ⟨"p", none, .parameter .input "pose" "Pose" none⟩], [⟨"j", "o"⟩]⟩] }]

def survey : Activity where
  name := ⟨"Survey", "Survey"⟩
  nodes := [
    ⟨"r", "done", .parameter .output ⟨"done", "done"⟩ (.scalar .bool) (some ⟨1, some 0⟩)⟩,
    ⟨"o", "o", .opaqueAction "ok = a && b" none
      [⟨⟨"a", "a"⟩, .bool, some ⟨2, none⟩⟩, ⟨⟨"b", "b"⟩, .bool, some ⟨3, none⟩⟩]
      [⟨⟨"ok", "ok"⟩, .bool, none⟩]⟩,
    ⟨"g", "g", .read ⟨9, none⟩ "ready"⟩,
    ⟨"h", "h", .read ⟨9, none⟩ "armed"⟩,
    ⟨"j", "j", .join [6, 7]⟩,
    ⟨"k", "k", .fork [6, 7]⟩,
    ⟨"w", "w", .write ⟨9, none⟩ "ready" ⟨8, none⟩⟩,
    ⟨"v", "v", .write ⟨9, none⟩ "armed" ⟨8, none⟩⟩,
    ⟨"t", "t", .literal (.bool true)⟩,
    ⟨"p", "pose", .parameter .input ⟨"pose", "pose"⟩ (.record 0) none⟩]
  edges := [(4, 1)]

def rover : Component :=
  { component with name := ⟨"Rover", "Rover"⟩, activities := [survey] }

def surveyModel : Model := ⟨model.recordTypes, [rover]⟩

theorem build_surveyDefinition : Model.build surveyDefinition = .ok surveyModel := by
  decide +kernel

def surveying : Flow := ⟨surveyModel.recordTypes, rover, survey, "Rover::Survey", []⟩

theorem surveying_of : surveying.Of surveyModel :=
  ⟨rfl, List.mem_cons_self, List.mem_cons_self⟩

def surveyed : Routine where
  component := "Rover"
  raw := "Survey"
  ident := "Survey"
  inputs := [⟨"pose", "pose", .record "Pose"⟩]
  outputs := [⟨"done", "done", .scalar .bool⟩]
  steps := [
    ⟨"p", .receive "pose" "pose_copy" (.record "Pose") true⟩,
    ⟨"k", .fork ["w", "v"]⟩,
    ⟨"t", .literal "t" (.bool true)⟩,
    ⟨"w", .write "pose_copy" "ready" "t"⟩,
    ⟨"g", .read "g" "pose_copy" "ready" .bool⟩,
    ⟨"v", .write "pose_copy" "armed" "t"⟩,
    ⟨"h", .read "h" "pose_copy" "armed" .bool⟩,
    ⟨"j", .join ["w", "v"]⟩,
    ⟨"o", .block [⟨"a", .bool, some "g"⟩, ⟨"b", .bool, some "h"⟩, ⟨"ok", .bool, none⟩]
      ["ok = a && b"] [⟨"o_ok", "ok", .bool⟩]⟩,
    ⟨"r", .output 0 "o_ok"⟩]
  calls := []

theorem lower_surveying : surveying.lower = .ok surveyed := by
  decide +kernel

end Sample

namespace Flow

/-- The body of `Survey` depends on the join, and so it waits for both branches. -/
theorem lower_orderly_surveying :
    Sample.surveyed.Precedes "w" "o" ∧ Sample.surveyed.Precedes "v" "o" := by
  obtain ⟨g, hg, horderly⟩ :=
    lower_orderly Sample.build_surveyDefinition Sample.surveying_of Sample.lower_surveying
  have hresolved := Sample.surveying_of.resolved
    (Model.resolved_of_build Sample.build_surveyDefinition)
  have hedge : g.Edge 4 1 :=
    (dependencies hresolved hg).stated 4 1 (.control List.mem_cons_self)
  obtain ⟨-, hafter⟩ := horderly.join 4 [6, 7] rfl
  exact ⟨(hafter 1 (.single hedge)).2 6 (by simp), (hafter 1 (.single hedge)).2 7 (by simp)⟩

end Flow

end FlightGen
