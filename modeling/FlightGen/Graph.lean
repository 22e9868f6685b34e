/-! Finite directed graphs over the numbers below a size: search along the edges, and the
order that places every node after its dependencies and, where it is free, takes the least
node first. -/

namespace FlightGen

/-! ### Rows of nodes -/

namespace Graph

/-- Adds a node to an ascending row, unless it is there already. -/
def addNode (node : Nat) : List Nat → List Nat
  | [] => [node]
  | n :: row =>
    if node < n then node :: n :: row
    else if node = n then n :: row
    else n :: addNode node row

/-- The row of a node in a table. -/
def rowOf (table : List (List Nat)) (node : Nat) : List Nat :=
  table[node]?.getD []

theorem rowOf_replicate (size node : Nat) : rowOf (List.replicate size []) node = [] := by
  rw [rowOf, List.getElem?_replicate]
  split <;> rfl

theorem mem_addNode {node n : Nat} {row : List Nat} : n ∈ addNode node row ↔ n = node ∨ n ∈ row := by
  induction row with
  | nil => simp [addNode]
  | cons m row ih =>
    rw [addNode]
    split
    · simp
    · split
      · simp_all
      · rw [List.mem_cons, ih, List.mem_cons]
        exact or_left_comm

theorem ascending_addNode (node : Nat) {row : List Nat} (h : row.Pairwise (· < ·)) :
    (addNode node row).Pairwise (· < ·) := by
  induction row with
  | nil => exact List.pairwise_singleton _ _
  | cons m row ih =>
    obtain ⟨hlt, hrow⟩ := List.pairwise_cons.1 h
    rw [addNode]
    split
    · rename_i hnode
      refine List.pairwise_cons.2 ⟨fun n hn => ?_, h⟩
      obtain rfl | hn := List.mem_cons.1 hn
      · exact hnode
      · exact Nat.lt_trans hnode (hlt n hn)
    · split
      · exact h
      · refine List.pairwise_cons.2 ⟨fun n hn => ?_, ih hrow⟩
        obtain rfl | hn := mem_addNode.1 hn
        · omega
        · exact hlt n hn

theorem ascending_modify {table : List (List Nat)} (h : ∀ row ∈ table, row.Pairwise (· < ·))
    (index node : Nat) : ∀ row ∈ table.modify index (addNode node), row.Pairwise (· < ·) := by
  intro row hrow
  obtain ⟨i, hi, rfl⟩ := List.mem_iff_getElem.1 hrow
  rw [List.length_modify] at hi
  rw [List.getElem_modify]
  split
  · exact ascending_addNode node (h _ (List.getElem_mem hi))
  · exact h _ (List.getElem_mem hi)

theorem mem_rowOf_modify {table : List (List Nat)} {index : Nat} (h : index < table.length)
    {node i n : Nat} : n ∈ rowOf (table.modify index (addNode node)) i ↔
      n ∈ rowOf table i ∨ i = index ∧ n = node := by
  rw [rowOf, rowOf, List.getElem?_modify]
  by_cases hi : index = i
  · subst hi
    simp [List.getElem?_eq_getElem h, mem_addNode, or_comm]
  · simp [hi, Ne.symm hi]

end Graph

/-! ### Graphs -/

/-- A directed graph. An edge leads from a node to one that has to come later, and both tables
have it: `after` holds for each node the nodes right after it, `before` those right before it. -/
structure Graph where
  after : List (List Nat)
  before : List (List Nat)
  length_before : before.length = after.length
  ascending : ∀ row ∈ after ++ before, row.Pairwise (· < ·)
  mirrored : ∀ a b, b ∈ Graph.rowOf after a ↔ a ∈ Graph.rowOf before b
deriving DecidableEq

namespace Graph

def size (g : Graph) : Nat :=
  g.after.length

/-- The nodes right after a node. -/
def dependents (g : Graph) (node : Nat) : List Nat :=
  rowOf g.after node

/-- The nodes right before a node. -/
def dependencies (g : Graph) (node : Nat) : List Nat :=
  rowOf g.before node

/-- The graph of a size without edges. -/
def empty (size : Nat) : Graph where
  after := List.replicate size []
  before := List.replicate size []
  length_before := rfl
  ascending := by
    have hrow : ∀ row ∈ List.replicate size ([] : List Nat), row.Pairwise (· < ·) :=
      fun row h => List.eq_of_mem_replicate h ▸ .nil
    exact List.forall_mem_append.2 ⟨hrow, hrow⟩
  mirrored a b := by simp [rowOf_replicate]

/-- Adds an edge to both tables. One that leads out of the graph is left out. -/
def insert (g : Graph) (edge : Nat × Nat) : Graph :=
  if h : edge.1 < g.size ∧ edge.2 < g.size then {
    after := g.after.modify edge.1 (addNode edge.2)
    before := g.before.modify edge.2 (addNode edge.1)
    length_before := by rw [List.length_modify, List.length_modify, g.length_before]
    ascending := by
      have hrows := List.forall_mem_append.1 g.ascending
      exact List.forall_mem_append.2
        ⟨ascending_modify hrows.1 _ _, ascending_modify hrows.2 _ _⟩
    mirrored a b := by
      have hbefore : edge.2 < g.before.length := g.length_before ▸ h.2
      rw [mem_rowOf_modify h.1, mem_rowOf_modify hbefore, g.mirrored, and_comm (a := a = _)] }
  else g

/-- The graph that arises from adding edges in turn. -/
def ofEdges (size : Nat) (edges : List (Nat × Nat)) : Graph :=
  edges.foldl insert (empty size)

/-! ### Search -/

/-- A search on its way: the nodes that it has not visited, and those to look at next. -/
structure Search where
  unseen : List Nat
  stack : List Nat

namespace Search

/-- Nothing visited, not even the source, whose dependents come first. -/
def start (g : Graph) (source : Nat) : Search :=
  ⟨List.range g.size, (g.dependents source).reverse⟩

/-- Looks at the top of the stack. The search is over at the target, or if the stack is
empty; a node that it meets for the first time puts its dependents on the stack. -/
def step (g : Graph) (target : Nat) (s : Search) : Bool ⊕ Search :=
  match s.stack with
  | [] => .inl false
  | node :: stack =>
    if node = target then .inl true
    else if node ∈ s.unseen then
      .inr ⟨s.unseen.erase node, (g.dependents node).reverse ++ stack⟩
    else .inr { s with stack }

theorem step_eq_inr {g : Graph} {target : Nat} {s t : Search} (h : s.step g target = .inr t) :
    ∃ node stack, s.stack = node :: stack ∧ node ≠ target ∧
      (node ∈ s.unseen ∧ t = ⟨s.unseen.erase node, (g.dependents node).reverse ++ stack⟩ ∨
        node ∉ s.unseen ∧ t = ⟨s.unseen, stack⟩) := by
  unfold step at h
  split at h
  · cases h
  · rename_i node stack hstack
    refine ⟨node, stack, hstack, ?_⟩
    split at h
    · cases h
    · rename_i hnode
      refine ⟨hnode, ?_⟩
      split at h
      · exact .inl ⟨‹_›, (Sum.inr.inj h).symm⟩
      · exact .inr ⟨‹_›, (Sum.inr.inj h).symm⟩

/-- How often the search can still look at a node: once for each that is on the stack, or
that a node not visited yet will put there. -/
def weight (g : Graph) (s : Search) : Nat :=
  s.stack.length + (s.unseen.flatMap g.dependents).length

theorem weight_step {g : Graph} {target : Nat} {s t : Search} (h : s.step g target = .inr t) :
    t.weight g + 1 = s.weight g := by
  obtain ⟨node, stack, hstack, -, ⟨hmem, rfl⟩ | ⟨-, rfl⟩⟩ := step_eq_inr h
  · have hperm := ((List.perm_cons_erase hmem).flatMap_right g.dependents).length_eq
    simp only [List.flatMap_cons, List.length_append] at hperm
    simp only [weight, hstack, hperm, List.length_append, List.length_reverse, List.length_cons]
    omega
  · simp only [weight, hstack, List.length_cons]
    omega

/-- Whether the search comes to the target. -/
def finds (g : Graph) (target : Nat) (s : Search) : Bool :=
  match _ : s.step g target with
  | .inl answer => answer
  | .inr t => t.finds g target
termination_by s.weight g
decreasing_by
  have := weight_step ‹_›
  omega

end Search

/-- Whether a path of one or more edges leads from `source` to `target`. -/
def reaches (g : Graph) (source target : Nat) : Bool :=
  (Search.start g source).finds g target

/-! ### Order -/

/-- Some nodes placed in order. For every node there is a count of its dependencies that
are not placed, and the nodes that can come next are at hand. The counts are integers, so
that one too many would show. -/
structure Placement where
  counts : List Int
  ready : List Nat
  placed : List Nat

namespace Placement

def count (s : Placement) (node : Nat) : Int :=
  s.counts[node]?.getD 0

/-- Counts down a node when a dependency of it is placed. -/
def release (s : Placement) (node : Nat) : Placement :=
  let count := s.count node - 1
  { s with
    counts := s.counts.set node count
    ready := if count = 0 then node :: s.ready else s.ready }

def take (s : Placement) (node : Nat) : Placement :=
  { s with ready := s.ready.erase node, placed := s.placed ++ [node] }

/-- Places a node that is ready. -/
def place (g : Graph) (s : Placement) (node : Nat) : Placement :=
  (g.dependents node).foldl release (s.take node)

/-- How many nodes can still be placed: those that are ready, or that will be. -/
def weight (s : Placement) : Nat :=
  s.ready.length + s.counts.countP (0 < ·)

theorem weight_release (s : Placement) (node : Nat) : (s.release node).weight = s.weight := by
  by_cases h : node < s.counts.length
  · have hcount : s.count node = s.counts[node] := by simp [count, h]
    have hpos : 0 < s.counts[node] → 0 < s.counts.countP (0 < ·) := fun hlt =>
      List.countP_pos_iff.2 ⟨_, List.getElem_mem h, by simpa using hlt⟩
    simp only [weight, release, hcount, List.countP_set h, decide_eq_true_eq]
    -- A count of one is the only one that stops being positive, and its node becomes ready.
    grind
  · have hcount : s.count node = 0 := by simp [count, h]
    simp [weight, release, hcount, List.set_eq_of_length_le (Nat.not_lt.1 h)]

theorem weight_foldl_release (nodes : List Nat) (s : Placement) :
    (nodes.foldl release s).weight = s.weight := by
  induction nodes generalizing s with
  | nil => rfl
  | cons node nodes ih => rw [List.foldl_cons, ih, weight_release]

theorem weight_place {g : Graph} {s : Placement} {node : Nat} (h : node ∈ s.ready) :
    (s.place g node).weight + 1 = s.weight := by
  have hlength := List.length_erase_of_mem h
  have hpos := List.length_pos_of_mem h
  rw [place, weight_foldl_release]
  simp only [weight, take]
  omega

/-- Places the least node that is ready, until there is none. -/
def finish (g : Graph) (s : Placement) : Placement :=
  match _ : s.ready.min? with
  | none => s
  | some node => (s.place g node).finish g
termination_by s.weight
decreasing_by
  have := weight_place (g := g) (List.min?_mem ‹_›)
  omega

end Placement

/-- Nothing placed. -/
def unplaced (g : Graph) : Placement where
  counts := (List.range g.size).map fun node => (g.dependencies node).length
  ready := (List.range g.size).filter fun node => (g.dependencies node).length = 0
  placed := []

/-- All that can be placed. -/
def finished (g : Graph) : Placement :=
  g.unplaced.finish g

/-- All nodes in order, or the nodes that no order can place. -/
def order (g : Graph) : Except (List Nat) (List Nat) :=
  let s := g.finished
  if s.placed.length = g.size then .ok s.placed
  else .error ((List.range g.size).filter fun node => 0 < s.count node)

end Graph

end FlightGen
