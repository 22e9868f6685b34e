import FlightGen.Flow.Dependency
import FlightGen.Proofs.Fallible
import FlightGen.Proofs.Graph.Order
import FlightGen.Proofs.Model.Built

/-! The dependencies that a model states, and the roots of objects. Where the stated
dependencies have no cycle, every object has a root, and a path leads from it to each
write that passes the object on. -/

namespace FlightGen

/-- An activity of a model in its surroundings, with any routines behind its calls. -/
structure Flow.Of (f : Flow) (m : Model) : Prop where
  records : f.records = m.recordTypes
  component : f.component ∈ m.components
  activity : f.activity ∈ f.component.activities

namespace Flow

variable {f : Flow}

theorem Of.resolved {m : Model} (hf : f.Of m) (hm : m.Resolved) :
    f.activity.Resolved f.records.length := by
  rw [hf.records]
  exact (hm.components _ hf.component).activities _ hf.activity

/-! ### Nodes -/

theorem action_of_le {n : Nat} (h : f.size ≤ n) : f.action n = .fork [] := by
  simp [action, Activity.action, List.getElem?_eq_none h]

/-- Only the nodes of the activity do anything. -/
theorem lt_size {n : Nat} (h : f.action n ≠ .fork []) : n < f.size := by
  by_contra hn
  exact h (action_of_le (not_lt.1 hn))

theorem exists_node {n : Nat} (h : n < f.size) :
    ∃ node ∈ f.activity.nodes, f.activity.nodes[n]? = some node ∧ node.action = f.action n := by
  have hget := List.getElem?_eq_getElem h
  exact ⟨_, List.getElem_mem h, hget, by simp [action, Activity.action, hget]⟩

theorem within {k n : Nat} (hf : f.activity.Resolved k) : (f.action n).Within f.size k := by
  by_cases hn : n < f.size
  · obtain ⟨node, hmem, -, haction⟩ := f.exists_node hn
    rw [← haction]
    exact (hf.nodes node hmem).within
  · rw [action_of_le (not_lt.1 hn)]
    intro m hm
    cases hm

theorem consumed_lt {k n : Nat} (hf : f.activity.Resolved k) {o : Outlet}
    (h : o ∈ (f.action n).consumed) : o.node < f.size := by
  have hw := f.within (n := n) hf
  cases haction : f.action n with
  | opaqueAction body language inputs outputs =>
    rw [haction] at h hw
    obtain ⟨pin, hpin, hsource⟩ := List.mem_filterMap.1 h
    exact hw pin hpin o hsource
  | call target arguments =>
    rw [haction] at h hw
    obtain ⟨a, ha, rfl⟩ := List.mem_map.1 h
    exact hw a ha
  | read object feature =>
    rw [haction] at h hw
    cases List.mem_singleton.1 h
    exact hw
  | write object feature value =>
    rw [haction] at h hw
    obtain rfl | h := List.mem_cons.1 h
    · exact hw.1
    · cases List.mem_singleton.1 h
      exact hw.2
  | parameter direction name type source =>
    rw [haction] at h hw
    exact hw.2 o (Option.mem_toList.1 h)
  | fork | join | create | literal =>
    rw [haction] at h
    cases h

/-! ### Stated dependencies -/

/-- The model states that `a` comes before `b`. -/
inductive Stated (f : Flow) : Nat → Nat → Prop
  | value {o : Outlet} {n : Nat} (h : o ∈ (f.action n).consumed) : Stated f o.node n
  | branch {n b : Nat} {branches : List Nat} (h : f.action n = .fork branches)
      (hb : b ∈ branches) : Stated f n b
  | input {n i : Nat} {inputs : List Nat} (h : f.action n = .join inputs)
      (hi : i ∈ inputs) : Stated f i n
  | control {a b : Nat} (h : (a, b) ∈ f.activity.edges) : Stated f a b
  /-- Inputs come first. -/
  | first {a b : Nat} (ha : f.activity.isParameter .input a = true) (hb : b < f.size)
      (hb' : f.activity.isParameter .input b = false) : Stated f a b
  /-- Outputs come last. -/
  | last {a b : Nat} (hb : f.activity.isParameter .output b = true) (ha : a < f.size)
      (ha' : f.activity.isParameter .output a = false) : Stated f a b

theorem isParameter_lt {direction : Direction} {n : Nat}
    (h : f.activity.isParameter direction n = true) : n < f.size := by
  refine f.lt_size fun hn => ?_
  unfold Activity.isParameter at h
  rw [show f.activity.action n = .fork [] from hn] at h
  cases h

theorem mem_nodeEdges {n a b : Nat} (h : (a, b) ∈ f.nodeEdges n) : f.Stated a b := by
  rw [nodeEdges, List.mem_append] at h
  obtain h | h := h
  · obtain ⟨o, ho, heq⟩ := List.mem_map.1 h
    cases heq
    exact .value ho
  · cases haction : f.action n with
    | fork branches =>
      rw [haction] at h
      obtain ⟨b, hb, heq⟩ := List.mem_map.1 h
      cases heq
      exact .branch haction hb
    | join inputs =>
      rw [haction] at h
      obtain ⟨i, hi, heq⟩ := List.mem_map.1 h
      cases heq
      exact .input haction hi
    | _ =>
      rw [haction] at h
      cases h

theorem mem_parameterEdges {a b : Nat} :
    (a, b) ∈ f.parameterEdges ↔ a < f.size ∧ b < f.size ∧ f.isParameterEdge (a, b) = true := by
  simp [parameterEdges, and_assoc]

theorem mem_statedEdges {a b : Nat} : (a, b) ∈ f.statedEdges ↔ f.Stated a b := by
  simp only [statedEdges, List.mem_append, List.mem_flatMap, List.mem_range]
  constructor
  · rintro ((⟨n, -, h⟩ | h) | h)
    · exact mem_nodeEdges h
    · exact .control h
    · obtain ⟨ha, hb, h⟩ := mem_parameterEdges.1 h
      simp only [isParameterEdge, Bool.or_eq_true, Bool.and_eq_true, Bool.not_eq_true'] at h
      obtain ⟨h, h'⟩ | ⟨h, h'⟩ := h
      · exact .first h hb h'
      · exact .last h ha h'
  · intro h
    cases h with
    | @value o n h =>
      refine .inl (.inl ⟨b, f.lt_size fun hn => ?_, ?_⟩)
      · rw [hn] at h
        cases h
      · exact List.mem_append_left _ (List.mem_map.2 ⟨o, h, rfl⟩)
    | @branch n b branches h hb =>
      refine .inl (.inl ⟨a, f.lt_size fun hn => ?_, ?_⟩)
      · rw [h] at hn
        cases hn
        cases hb
      · rw [nodeEdges, h]
        exact List.mem_append_right _ (List.mem_map.2 ⟨b, hb, rfl⟩)
    | @input n i inputs h hi =>
      refine .inl (.inl ⟨b, f.lt_size fun hn => ?_, ?_⟩)
      · rw [h] at hn
        cases hn
      · rw [nodeEdges, h]
        exact List.mem_append_right _ (List.mem_map.2 ⟨a, hi, rfl⟩)
    | control h => exact .inl (.inr h)
    | first ha hb hb' =>
      refine .inr (mem_parameterEdges.2 ⟨isParameter_lt ha, hb, ?_⟩)
      simp [isParameterEdge, ha, hb']
    | last hb ha ha' =>
      refine .inr (mem_parameterEdges.2 ⟨ha, isParameter_lt hb, ?_⟩)
      simp [isParameterEdge, hb, ha']

/-- Stated dependencies are between nodes of the activity. -/
theorem Stated.lt {k : Nat} (hf : f.activity.Resolved k) {a b : Nat} (h : f.Stated a b) :
    a < f.size ∧ b < f.size := by
  cases h with
  | value h =>
    refine ⟨f.consumed_lt hf h, f.lt_size fun hn => ?_⟩
    rw [hn] at h
    cases h
  | branch h hb =>
    have hw := f.within (n := a) hf
    rw [h] at hw
    refine ⟨f.lt_size fun hn => ?_, hw b hb⟩
    rw [h] at hn
    cases hn
    cases hb
  | input h hi =>
    have hw := f.within (n := b) hf
    rw [h] at hw
    refine ⟨hw a hi, f.lt_size fun hn => ?_⟩
    rw [h] at hn
    cases hn
  | control h => exact hf.edges _ h
  | first ha hb _ => exact ⟨isParameter_lt ha, hb⟩
  | last hb ha _ => exact ⟨ha, isParameter_lt hb⟩

theorem size_statedGraph : f.statedGraph.size = f.size :=
  Graph.size_ofEdges _ _

section

variable {k : Nat} (hf : f.activity.Resolved k)
include hf

theorem edge_statedGraph {a b : Nat} : f.statedGraph.Edge a b ↔ f.Stated a b := by
  have hlt : ∀ e ∈ f.statedEdges, e.1 < f.size ∧ e.2 < f.size := fun e he =>
    (mem_statedEdges.1 he).lt hf
  rw [statedGraph, Graph.edge_ofEdges_of_lt hlt, mem_statedEdges]

theorem path_statedGraph {a b : Nat} :
    f.statedGraph.Path a b ↔ Relation.TransGen f.Stated a b := by
  rw [Graph.Path, show f.statedGraph.Edge = f.Stated from
    funext₂ fun _ _ => propext (edge_statedGraph hf)]

end

/-! ### Roots -/

/-- The object behind node `n` was produced by `r`: writes pass their objects on. -/
inductive RootOf (f : Flow) : Nat → Nat → Prop
  | self {n : Nat} (h : ∀ object feature value, f.action n ≠ .write object feature value) :
      RootOf f n n
  | write {n r : Nat} {object value : Outlet} {feature : String}
      (h : f.action n = .write object feature value) (hr : RootOf f object.node r) : RootOf f n r

theorem RootOf.not_write {n r : Nat} (h : f.RootOf n r) (object : Outlet) (feature : String)
    (value : Outlet) : f.action r ≠ .write object feature value := by
  induction h with
  | self h => exact h object feature value
  | write _ _ ih => exact ih

theorem RootOf.unique {n r r' : Nat} (h : f.RootOf n r) (h' : f.RootOf n r') : r = r' := by
  induction h with
  | self h =>
    cases h' with
    | self => rfl
    | write h' => exact absurd h' (h _ _ _)
  | write h _ ih =>
    cases h' with
    | self h' => exact absurd h (h' _ _ _)
    | write h' hr' =>
      cases h.symm.trans h'
      exact ih hr'

/-- A root comes before the writes behind which it stands. -/
theorem RootOf.eq_or_path {n r : Nat} (h : f.RootOf n r) :
    n = r ∨ Relation.TransGen f.Stated r n := by
  induction h with
  | self => exact .inl rfl
  | @write n r object value feature h _ ih =>
    have hedge : f.Stated object.node n := .value (by rw [h]; exact List.mem_cons_self)
    obtain heq | hpath := ih
    · exact .inr (.single (heq ▸ hedge))
    · exact .inr (hpath.tail hedge)

/-- A node comes after the root of what it consumes. -/
theorem RootOf.path_of_consumed {o : Outlet} {n r : Nat} (h : f.RootOf o.node r)
    (ho : o ∈ (f.action n).consumed) : Relation.TransGen f.Stated r n := by
  obtain heq | hpath := h.eq_or_path
  · exact .single (heq ▸ .value ho)
  · exact hpath.tail (.value ho)

theorem rootWithin_write {steps n : Nat} {object value : Outlet} {feature : String}
    (h : f.action n = .write object feature value) :
    f.rootWithin (steps + 1) n = f.rootWithin steps object.node := by
  conv_lhs => unfold rootWithin
  rw [h]

theorem rootWithin_self {n : Nat} (steps : Nat)
    (h : ∀ object feature value, f.action n ≠ .write object feature value) :
    f.rootWithin steps n = some n := by
  unfold rootWithin
  split
  · exact absurd ‹_› (h _ _ _)
  · exact absurd ‹_› (h _ _ _)
  · rfl

theorem rootOf_of_rootWithin {steps n r : Nat} (h : f.rootWithin steps n = some r) :
    f.RootOf n r := by
  induction steps generalizing n with
  | zero =>
    cases haction : f.action n with
    | write object feature value =>
      unfold rootWithin at h
      rw [haction] at h
      cases h
    | _ =>
      rw [rootWithin_self 0 (by simp [haction])] at h
      cases h
      exact .self (by simp [haction])
  | succ steps ih =>
    cases haction : f.action n with
    | write object feature value =>
      rw [rootWithin_write haction] at h
      exact .write haction (ih h)
    | _ =>
      rw [rootWithin_self _ (by simp [haction])] at h
      cases h
      exact .self (by simp [haction])

theorem root_eq_ok {o : Outlet} {r : Nat} : f.root o = .ok r ↔ f.rootWithin f.size o.node = some r := by
  unfold root
  split <;> simp_all

theorem rootOf_of_root {o : Outlet} {r : Nat} (h : f.root o = .ok r) : f.RootOf o.node r :=
  rootOf_of_rootWithin (root_eq_ok.1 h)

theorem rank_lt_of_path {rank : Nat → Nat} (hrank : ∀ a b, f.Stated a b → rank a < rank b)
    {a b : Nat} (h : Relation.TransGen f.Stated a b) : rank a < rank b := by
  induction h with
  | single h => exact hrank _ _ h
  | tail _ h ih => exact ih.trans (hrank _ _ h)

/-- Without cycles the nodes can be numbered along the references, which bounds the
number of writes in a row. -/
theorem exists_rootWithin {rank : Nat → Nat} (hrank : ∀ a b, f.Stated a b → rank a < rank b)
    {steps n : Nat} (h : rank n ≤ steps) : ∃ r, f.rootWithin steps n = some r := by
  induction steps generalizing n with
  | zero =>
    cases haction : f.action n with
    | write object feature value =>
      have hedge : f.Stated object.node n := .value (by rw [haction]; exact List.mem_cons_self)
      have := hrank _ _ hedge
      omega
    | _ => exact ⟨n, rootWithin_self 0 (by simp [haction])⟩
  | succ steps ih =>
    cases haction : f.action n with
    | write object feature value =>
      have hedge : f.Stated object.node n := .value (by rw [haction]; exact List.mem_cons_self)
      have := hrank _ _ hedge
      rw [rootWithin_write haction]
      exact ih (by omega)
    | _ => exact ⟨n, rootWithin_self _ (by simp [haction])⟩

end Flow

end FlightGen
