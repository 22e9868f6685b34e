import Mathlib.Data.List.Basic
import Mathlib.Data.List.Chain
import Mathlib.Data.List.Nodup
import Mathlib.Logic.Relation
import FlightGen.Graph

/-! Paths in a graph. An edge that no path runs against closes no cycle. -/

namespace FlightGen.Graph

open Relation

def Edge (g : Graph) (a b : Nat) : Prop := b ∈ g.dependents a

/-- A path of one or more edges. -/
def Path (g : Graph) : Nat → Nat → Prop := TransGen g.Edge

def Acyclic (g : Graph) : Prop := ∀ n, ¬ g.Path n n

/-- A cycle leads from a node through others, none twice, back to it. -/
def OnCycle (g : Graph) (n : Nat) : Prop :=
  ∃ others, (n :: others).Nodup ∧ List.IsChain g.Edge (n :: others ++ [n])

variable {g : Graph}

/-! ### Cycles -/

theorem path_of_isChain {a b : Nat} {walk : List Nat}
    (h : List.IsChain g.Edge (a :: walk ++ [b])) : g.Path a b := by
  induction walk generalizing a with
  | nil => exact .single (by simpa using h)
  | cons c walk ih =>
    obtain ⟨hac, h⟩ := List.isChain_cons_cons.1 h
    exact .head hac (ih h)

/-- Where a path comes back to a node, what lies between can be left out. -/
theorem Path.exists_isChain {a b : Nat} (h : g.Path a b) :
    ∃ others, (a :: others).Nodup ∧ List.IsChain g.Edge (a :: others ++ [b]) := by
  induction h using TransGen.head_induction_on with
  | single h => exact ⟨[], by simp, by simpa using h⟩
  | @head a c hac _ ih =>
    obtain ⟨others, hnodup, hchain⟩ := ih
    by_cases ha : a ∈ c :: others
    · obtain ⟨before, after, heq⟩ := List.append_of_mem ha
      rw [heq] at hnodup hchain
      rw [List.append_assoc] at hchain
      exact ⟨after, hnodup.of_append_right, hchain.right_of_append⟩
    · exact ⟨c :: others, List.nodup_cons.2 ⟨ha, hnodup⟩, List.isChain_cons_cons.2 ⟨hac, hchain⟩⟩

theorem onCycle_iff {n : Nat} : g.OnCycle n ↔ g.Path n n :=
  ⟨fun ⟨_, _, hchain⟩ => path_of_isChain hchain, Path.exists_isChain⟩

/-! ### Neighbours -/

/-- The two tables mirror each other. -/
theorem mem_dependents_iff {a b : Nat} : b ∈ g.dependents a ↔ a ∈ g.dependencies b :=
  g.mirrored a b

theorem mem_dependents {a b : Nat} : b ∈ g.dependents a ↔ g.Edge a b := Iff.rfl

theorem mem_dependencies {a b : Nat} : a ∈ g.dependencies b ↔ g.Edge a b :=
  mem_dependents_iff.symm

theorem lt_length_of_mem_rowOf {table : List (List Nat)} {node n : Nat} (h : n ∈ rowOf table node) :
    node < table.length := by
  by_contra hge
  rw [rowOf, List.getElem?_eq_none (Nat.not_lt.1 hge)] at h
  cases h

/-- Edges join nodes of the graph only. -/
theorem Edge.lt {a b : Nat} (h : g.Edge a b) : a < g.size ∧ b < g.size :=
  ⟨lt_length_of_mem_rowOf h, (lt_length_of_mem_rowOf (mem_dependencies.2 h)).trans_eq g.length_before⟩

theorem nodup_rowOf {table : List (List Nat)} (h : ∀ row ∈ table, row.Pairwise (· < ·)) (node : Nat) :
    (rowOf table node).Nodup := by
  unfold rowOf
  cases hrow : table[node]? with
  | none => exact .nil
  | some row => exact (h row (List.mem_of_getElem? hrow)).imp Nat.ne_of_lt

theorem nodup_dependents (g : Graph) (node : Nat) : (g.dependents node).Nodup :=
  nodup_rowOf (List.forall_mem_append.1 g.ascending).1 node

theorem nodup_dependencies (g : Graph) (node : Nat) : (g.dependencies node).Nodup :=
  nodup_rowOf (List.forall_mem_append.1 g.ascending).2 node

/-! ### Insertion -/

@[simp] theorem size_insert (g : Graph) (e : Nat × Nat) : (g.insert e).size = g.size := by
  unfold insert
  split
  · exact List.length_modify _ _ _
  · rfl

theorem edge_insert {e : Nat × Nat} {a b : Nat} : (g.insert e).Edge a b ↔
    g.Edge a b ∨ (a, b) = e ∧ e.1 < g.size ∧ e.2 < g.size := by
  unfold insert
  split
  · rename_i h
    simp only [Edge, dependents, mem_rowOf_modify h.1, Prod.ext_iff, h, and_true]
  · rename_i h
    simp only [h, and_false, or_false]

theorem size_ofEdges (size : Nat) (edges : List (Nat × Nat)) : (ofEdges size edges).size = size := by
  have hfold (edges : List (Nat × Nat)) (g : Graph) : (edges.foldl insert g).size = g.size := by
    induction edges generalizing g with
    | nil => rfl
    | cons e edges ih => rw [List.foldl_cons, ih, size_insert]
  rw [ofEdges, hfold]
  exact List.length_replicate

/-- The edges are those inserted, as far as they join nodes of the graph. -/
theorem edge_ofEdges {size : Nat} {edges : List (Nat × Nat)} {a b : Nat} :
    (ofEdges size edges).Edge a b ↔ (a, b) ∈ edges ∧ a < size ∧ b < size := by
  have hfold (edges : List (Nat × Nat)) (g : Graph) : (edges.foldl insert g).Edge a b ↔
      g.Edge a b ∨ (a, b) ∈ edges ∧ a < g.size ∧ b < g.size := by
    induction edges generalizing g with
    | nil => simp
    | cons e edges ih =>
      rw [List.foldl_cons, ih, edge_insert, size_insert, List.mem_cons]
      constructor
      · rintro ((h | ⟨rfl, h⟩) | ⟨h, hlt⟩)
        · exact .inl h
        · exact .inr ⟨.inl rfl, h⟩
        · exact .inr ⟨.inr h, hlt⟩
      · rintro (h | ⟨rfl | h, hlt⟩)
        · exact .inl (.inl h)
        · exact .inl (.inr ⟨rfl, hlt⟩)
        · exact .inr ⟨h, hlt⟩
  have hempty : ¬ (empty size).Edge a b := by
    simp [Edge, dependents, empty, rowOf_replicate]
  have hsize : (empty size).size = size := List.length_replicate
  rw [ofEdges, hfold, hsize]
  simp only [hempty, false_or]

theorem edge_ofEdges_of_lt {size : Nat} {edges : List (Nat × Nat)}
    (h : ∀ e ∈ edges, e.1 < size ∧ e.2 < size) {a b : Nat} :
    (ofEdges size edges).Edge a b ↔ (a, b) ∈ edges :=
  edge_ofEdges.trans (and_iff_left_of_imp (h (a, b)))

/-- A path after an insertion either was there before, or passes the new edge. -/
theorem path_insert {x y a b : Nat} (h : (g.insert (x, y)).Path a b) :
    g.Path a b ∨ ReflTransGen g.Edge a x ∧ ReflTransGen g.Edge y b := by
  induction h with
  | single h =>
    obtain h | ⟨h, -⟩ := edge_insert.1 h
    · exact .inl (.single h)
    · cases h
      exact .inr ⟨.refl, .refl⟩
  | tail _ h ih =>
    obtain h | ⟨h, -⟩ := edge_insert.1 h
    · obtain hab | ⟨hax, hyb⟩ := ih
      · exact .inl (hab.tail h)
      · exact .inr ⟨hax, hyb.tail h⟩
    · cases h
      obtain hab | ⟨hax, -⟩ := ih
      · exact .inr ⟨hab.to_reflTransGen, .refl⟩
      · exact .inr ⟨hax, .refl⟩

theorem Acyclic.insert (h : g.Acyclic) {x y : Nat} (hne : x ≠ y) (hyx : ¬ g.Path y x) :
    (g.insert (x, y)).Acyclic := by
  intro n hn
  obtain hn | ⟨hnx, hyn⟩ := path_insert hn
  · exact h n hn
  · obtain rfl | hyx' := reflTransGen_iff_eq_or_transGen.1 (hyn.trans hnx)
    · exact hne rfl
    · exact hyx hyx'

end FlightGen.Graph
