import Mathlib.Data.Fintype.EquivFin
import Mathlib.Data.Fintype.Sets
import Mathlib.Data.Set.Finite.Basic
import Mathlib.Order.WellFounded
import FlightGen.Proofs.Graph.Placement

/-! The order of a graph. It exists exactly if the graph has no cycle, and then it
holds every node once, behind all nodes from which a path leads to it. It is the least
such order; otherwise the nodes that lie behind cycles are left. -/

namespace FlightGen.Graph

open Relation

variable {g : Graph}

/-- All nodes, each behind those from which an edge leads to it. -/
structure IsOrder (g : Graph) (nodes : List Nat) : Prop where
  perm : nodes.Perm (List.range g.size)
  forward : ∀ a b, g.Edge a b → [a, b].Sublist nodes

/-! ### The end of the run -/

theorem sound_finished (g : Graph) : g.finished.Sound g :=
  (Placement.sound_unplaced g).finish.1

theorem ready_finished (g : Graph) : g.finished.ready = [] :=
  (Placement.sound_unplaced g).finish.2

theorem order_eq_ok {nodes : List Nat} :
    g.order = .ok nodes ↔ g.finished.placed.length = g.size ∧ g.finished.placed = nodes := by
  simp only [order]
  split <;> simp_all

theorem order_eq_error {stuck : List Nat} :
    g.order = .error stuck ↔ g.finished.placed.length ≠ g.size ∧
      (List.range g.size).filter (fun n => 0 < g.finished.count n) = stuck := by
  simp only [order]
  split <;> simp_all

theorem placed_subperm (g : Graph) : g.finished.placed.Subperm (List.range g.size) :=
  List.subperm_of_subset g.sound_finished.nodup
    fun n hn => List.mem_range.2 (g.sound_finished.placed_lt n hn)

/-- A node that is not placed waits for another one. -/
theorem exists_dependency_of_notMem {n : Nat} (hn : n < g.size) (h : n ∉ g.finished.placed) :
    ∃ a ∈ g.dependencies n, a ∉ g.finished.placed := by
  by_contra! hall
  have hzero := (g.sound_finished.count_eq_zero_iff hn).2 hall
  have hready := (g.sound_finished.ready n).2 ⟨hn, h, hzero⟩
  simp [ready_finished] at hready

theorem count_finished_pos_iff {n : Nat} (hn : n < g.size) :
    0 < g.finished.count n ↔ n ∉ g.finished.placed := by
  have hnonneg := g.sound_finished.count_nonneg hn
  have hzero := g.sound_finished.count_eq_zero_iff hn
  constructor
  · intro hpos hmem
    have := hzero.2 fun a ha => g.sound_finished.placed_of_dependency hmem ha
    omega
  · intro hnot
    obtain ⟨a, ha, hnot⟩ := exists_dependency_of_notMem hn hnot
    have hne : g.finished.count n ≠ 0 := fun h => hnot (hzero.1 h a ha)
    omega

/-- Among nodes that lie on no cycle there is one to which no edge leads from another. -/
theorem exists_first {p : Nat → Prop} (hlt : ∀ n, p n → n < g.size)
    (hp : ∀ n, p n → ¬ g.Path n n) {n : Nat} (hn : p n) : ∃ n, p n ∧ ∀ a, p a → ¬ g.Edge a n := by
  have : Finite { n // p n } := Set.Finite.subset (Set.finite_lt_nat g.size) hlt
  have : IsTrans { n // p n } fun a b => g.Path a b := ⟨fun _ _ _ => TransGen.trans⟩
  have : Std.Irrefl fun a b : { n // p n } => g.Path a b := ⟨fun a => hp a a.2⟩
  have hwf : WellFounded fun a b : { n // p n } => g.Path a b :=
    Finite.wellFounded_of_trans_of_irrefl _
  obtain ⟨⟨m, hm⟩, -, hmin⟩ := hwf.has_min Set.univ ⟨⟨n, hn⟩, trivial⟩
  exact ⟨m, hm, fun a ha hab => hmin ⟨a, ha⟩ trivial (.single hab)⟩

/-- Behind each node that cannot be placed there are others, so that one is on a cycle. -/
theorem exists_cycle_of_notMem {n : Nat} (hn : n < g.size) (h : n ∉ g.finished.placed) :
    ∃ c, g.Path c c ∧ ReflTransGen g.Edge c n := by
  by_contra! hnone
  obtain ⟨m, ⟨hm, hnot, hpath⟩, hfirst⟩ := exists_first (g := g)
    (p := fun a => a < g.size ∧ a ∉ g.finished.placed ∧ ReflTransGen g.Edge a n)
    (fun a ha => ha.1) (fun a ha hcycle => hnone a hcycle ha.2.2) ⟨hn, h, .refl⟩
  obtain ⟨a, ha, hnot⟩ := exists_dependency_of_notMem hm hnot
  have hedge := mem_dependencies.1 ha
  exact hfirst a ⟨hedge.lt.1, hnot, .head hedge hpath⟩ hedge

/-- What is placed stands behind all nodes from which a path leads to it. -/
theorem before_of_mem_placed {a b : Nat} (hab : g.Path a b)
    (hb : b ∈ g.finished.placed) : [a, b].Sublist g.finished.placed := by
  have hedge : ∀ {a b}, g.Edge a b → b ∈ g.finished.placed → [a, b].Sublist g.finished.placed :=
    fun {a b} hab hb => g.sound_finished.behind b hb a (mem_dependencies.2 hab)
  induction hab using TransGen.head_induction_on with
  | single hab => exact hedge hab hb
  | head hac _ ih =>
    exact before_trans g.sound_finished.nodup (hedge hac (mem_left_of_before ih)) ih

theorem notMem_placed_iff {n : Nat} (hn : n < g.size) :
    n ∉ g.finished.placed ↔ ∃ c, g.Path c c ∧ ReflTransGen g.Edge c n := by
  refine ⟨exists_cycle_of_notMem hn, ?_⟩
  rintro ⟨c, hcycle, hpath⟩ hmem
  have hc : c ∈ g.finished.placed := by
    obtain rfl | hpath := reflTransGen_iff_eq_or_transGen.1 hpath
    · exact hmem
    · exact mem_left_of_before (before_of_mem_placed hpath hmem)
  exact List.nodup_iff_sublist.1 g.sound_finished.nodup c (before_of_mem_placed hcycle hc)

/-! ### The whole order -/

theorem order_perm {nodes : List Nat} (h : g.order = .ok nodes) :
    nodes.Perm (List.range g.size) := by
  obtain ⟨hlength, rfl⟩ := order_eq_ok.1 h
  exact g.placed_subperm.perm_of_length_le (by simp [hlength])

theorem order_nodup {nodes : List Nat} (h : g.order = .ok nodes) : nodes.Nodup :=
  (order_perm h).nodup_iff.2 List.nodup_range

theorem mem_order {nodes : List Nat} (h : g.order = .ok nodes) {n : Nat} :
    n ∈ nodes ↔ n < g.size :=
  (order_perm h).mem_iff.trans List.mem_range

/-- What cannot be placed are nodes of the graph. -/
theorem lt_of_order_eq_error {stuck : List Nat} (h : g.order = .error stuck) {n : Nat}
    (hn : n ∈ stuck) : n < g.size := by
  obtain ⟨-, rfl⟩ := order_eq_error.1 h
  exact List.mem_range.1 (List.mem_of_mem_filter hn)

theorem before_of_path {nodes : List Nat} (h : g.order = .ok nodes) {a b : Nat}
    (hab : g.Path a b) : [a, b].Sublist nodes := by
  obtain ⟨c, -, hedge⟩ := TransGen.tail'_iff.1 hab
  have hb := (mem_order h).2 hedge.lt.2
  obtain ⟨-, rfl⟩ := order_eq_ok.1 h
  exact before_of_mem_placed hab hb

theorem before_of_edge {nodes : List Nat} (h : g.order = .ok nodes) {a b : Nat}
    (hab : g.Edge a b) : [a, b].Sublist nodes :=
  before_of_path h (.single hab)

/-- An order exists exactly if there is no cycle. -/
theorem exists_order_iff : (∃ nodes, g.order = .ok nodes) ↔ g.Acyclic := by
  constructor
  · rintro ⟨nodes, h⟩ n hn
    exact List.nodup_iff_sublist.1 (order_nodup h) n (before_of_path h hn)
  · intro h
    refine ⟨_, order_eq_ok.2 ⟨le_antisymm ?_ ?_, rfl⟩⟩
    · simpa using g.placed_subperm.length_le
    · have hsubset : List.range g.size ⊆ g.finished.placed := by
        intro n hn
        by_contra hnot
        obtain ⟨c, hcycle, -⟩ := exists_cycle_of_notMem (List.mem_range.1 hn) hnot
        exact h c hcycle
      simpa using (List.subperm_of_subset List.nodup_range hsubset).length_le

/-- Numbers that grow along all edges. -/
theorem Acyclic.exists_rank (h : g.Acyclic) :
    ∃ rank : Nat → Nat, (∀ a b, g.Edge a b → rank a < rank b) ∧ ∀ n, rank n ≤ g.size := by
  obtain ⟨nodes, hnodes⟩ := exists_order_iff.2 h
  refine ⟨(nodes.idxOf ·), fun a b hab => ?_, fun n => ?_⟩
  · exact idxOf_lt_of_before (order_nodup hnodes) (before_of_edge hnodes hab)
  · calc nodes.idxOf n ≤ nodes.length := List.idxOf_le_length
      _ = g.size := by simp [(order_perm hnodes).length_eq]

/-! ### The least order -/

theorem IsOrder.nodup {nodes : List Nat} (h : g.IsOrder nodes) : nodes.Nodup :=
  h.perm.nodup_iff.2 List.nodup_range

/-- The node that comes next in any order is at hand. -/
theorem IsOrder.mem_ready {s : Placement} (hs : s.Sound g) {n : Nat} {rest : List Nat}
    (h : g.IsOrder (s.placed ++ n :: rest)) : n ∈ s.ready := by
  have hn : n < g.size := List.mem_range.1 (h.perm.subset (by simp))
  have hnot : n ∉ s.placed := fun hmem =>
    List.disjoint_of_nodup_append h.nodup hmem List.mem_cons_self
  refine (hs.ready n).2 ⟨hn, hnot, (hs.count_eq_zero_iff hn).2 fun a ha => ?_⟩
  exact (before_append_cons_iff h.nodup).1 (h.forward a n (mem_dependencies.1 ha))

/-- Where another order departs from the run, it takes a greater node. -/
theorem placed_finish_least {s : Placement} (hs : s.Sound g) {rest : List Nat}
    (h : g.IsOrder (s.placed ++ rest)) :
    (s.finish g).placed = s.placed ++ rest ∨
      List.Lex (· < ·) (s.finish g).placed (s.placed ++ rest) := by
  fun_induction Placement.finish g s generalizing rest with
  | case1 s hnone =>
    cases rest with
    | nil => exact .inl (List.append_nil _).symm
    | cons n rest =>
      have hready := h.mem_ready hs
      rw [List.min?_eq_none_iff.1 hnone] at hready
      cases hready
  | case2 s n hmin ih =>
    obtain ⟨hn, hle⟩ := List.min?_eq_some_iff.1 hmin
    cases rest with
    | nil =>
      -- All nodes are placed, so none can be at hand.
      obtain ⟨hlt, hnot, -⟩ := (hs.ready n).1 hn
      rw [List.append_nil] at h
      exact absurd (h.perm.mem_iff.2 (List.mem_range.2 hlt)) hnot
    | cons m rest =>
      obtain rfl | hlt := (hle m (h.mem_ready hs)).eq_or_lt
      · have heq : s.placed ++ n :: rest = (s.place g n).placed ++ rest := by
          simp [Placement.placed_place]
        rw [heq] at h ⊢
        exact ih (hs.place hn) h
      · obtain ⟨tail, htail⟩ := Placement.exists_placed_finish g (s.place g n)
        refine .inr ?_
        rw [htail, Placement.placed_place, List.append_assoc]
        exact List.Lex.append_left _ (List.Lex.rel hlt) s.placed

theorem isOrder_of_order {nodes : List Nat} (h : g.order = .ok nodes) :
    g.IsOrder nodes :=
  ⟨order_perm h, fun _ _ hab => before_of_edge h hab⟩

theorem order_least {nodes other : List Nat} (h : g.order = .ok nodes) (hother : g.IsOrder other) :
    nodes = other ∨ List.Lex (· < ·) nodes other := by
  obtain ⟨-, rfl⟩ := order_eq_ok.1 h
  exact placed_finish_least (Placement.sound_unplaced g) hother

/-- No arrangement of ascending numbers is less than they are. -/
theorem not_lex_of_perm {xs ys : List Nat} (h : xs.Perm ys) (hys : ys.Pairwise (· < ·)) :
    ¬ List.Lex (· < ·) xs ys := by
  intro hlex
  induction hlex with
  | nil => exact absurd h.symm (by simp)
  | @rel x _ y ys hlt =>
    have hx : x ∈ y :: ys := h.subset List.mem_cons_self
    obtain rfl | hx := List.mem_cons.1 hx
    · omega
    · have := (List.pairwise_cons.1 hys).1 x hx
      omega
  | cons _ ih => exact ih ((List.perm_cons _).1 h) (List.pairwise_cons.1 hys).2

/-- The nodes stay as they are declared if no edge leads back. -/
theorem order_eq_range {nodes : List Nat} (h : g.order = .ok nodes)
    (hrange : g.IsOrder (List.range g.size)) : nodes = List.range g.size :=
  (order_least h hrange).resolve_right (not_lex_of_perm (order_perm h) List.pairwise_lt_range)

theorem mem_stuck_iff {stuck : List Nat} (h : g.order = .error stuck) {n : Nat} :
    n ∈ stuck ↔ ∃ c, g.OnCycle c ∧ ReflTransGen g.Edge c n := by
  obtain ⟨-, rfl⟩ := order_eq_error.1 h
  simp only [List.mem_filter, List.mem_range, decide_eq_true_eq, onCycle_iff]
  refine ⟨fun ⟨hn, hpos⟩ => ?_, fun hcycle => ?_⟩
  · exact (notMem_placed_iff hn).1 ((count_finished_pos_iff hn).1 hpos)
  · obtain ⟨c, hc, hpath⟩ := hcycle
    obtain ⟨b, -, hedge⟩ := TransGen.tail'_iff.1 (hc.trans_left hpath)
    have hn := hedge.lt.2
    exact ⟨hn, (count_finished_pos_iff hn).2 ((notMem_placed_iff hn).2 ⟨c, hc, hpath⟩)⟩

/-- A graph has the edges that were inserted. Its nodes can be ordered exactly if there is no
cycle. The order is the least one, as the nodes are declared where that is possible. Otherwise
the nodes on cycles and behind them are left, ascending. No state of the run holds a count
below zero. -/
theorem order_exact {size : Nat} {edges : List (Nat × Nat)}
    (h : ∀ e ∈ edges, e.1 < size ∧ e.2 < size) {g : Graph} (hg : ofEdges size edges = g) :
    g.size = size ∧ (∀ a b, g.Edge a b ↔ (a, b) ∈ edges) ∧
    ((∃ nodes, g.order = .ok nodes) ↔ ∀ n, ¬ g.OnCycle n) ∧
    (∀ nodes, g.order = .ok nodes → g.IsOrder nodes ∧
      (∀ other, g.IsOrder other → nodes = other ∨ List.Lex (· < ·) nodes other) ∧
      (g.IsOrder (List.range size) → nodes = List.range size)) ∧
    (∀ stuck, g.order = .error stuck → stuck.Pairwise (· < ·) ∧
      ∀ n, n ∈ stuck ↔ ∃ c, g.OnCycle c ∧ ReflTransGen g.Edge c n) ∧
    g.finished.Passes g [] ∧
    ∀ s pending, Placement.Passes g s pending → ∀ count ∈ s.counts, 0 ≤ count := by
  have hsize : g.size = size := hg ▸ size_ofEdges size edges
  refine ⟨hsize, fun a b => hg ▸ edge_ofEdges_of_lt h, ?_, fun nodes hnodes => ⟨?_, ?_, ?_⟩,
    fun stuck hstuck => ⟨?_, ?_⟩, ?_, ?_⟩
  · simp only [onCycle_iff]
    exact exists_order_iff
  · exact isOrder_of_order hnodes
  · exact fun other => order_least hnodes
  · rw [← hsize]
    exact order_eq_range hnodes
  · obtain ⟨-, rfl⟩ := order_eq_error.1 hstuck
    exact List.pairwise_lt_range.filter _
  · exact fun n => mem_stuck_iff hstuck
  · exact Placement.Passes.start.finish
  · exact fun s pending hs count => hs.counts_nonneg

theorem order_exact_knot :
    ((ofEdges 4 [(3, 1), (3, 1)]).order = .ok [0, 2, 3, 1] ∧
      (ofEdges 4 [(3, 1), (3, 1)]).IsOrder [0, 2, 3, 1]) ∧
    (ofEdges 4 [(0, 1), (1, 2), (2, 1), (2, 3)]).order = .error [1, 2, 3] ∧
      ∃ c, (ofEdges 4 [(0, 1), (1, 2), (2, 1), (2, 3)]).OnCycle c ∧
        ReflTransGen (ofEdges 4 [(0, 1), (1, 2), (2, 1), (2, 3)]).Edge c 3 := by
  have hplaced : (ofEdges 4 [(3, 1), (3, 1)]).order = .ok [0, 2, 3, 1] := by decide +kernel
  have hstuck : (ofEdges 4 [(0, 1), (1, 2), (2, 1), (2, 3)]).order = .error [1, 2, 3] := by
    decide +kernel
  refine ⟨⟨hplaced, ?_⟩, hstuck, ?_⟩
  · exact ((order_exact (by decide) rfl).2.2.2.1 _ hplaced).1
  · exact (((order_exact (by decide) rfl).2.2.2.2.1 _ hstuck).2 3).1 (by decide)

end FlightGen.Graph
