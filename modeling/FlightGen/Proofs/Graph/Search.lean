import Mathlib.Data.List.Perm.Subperm
import FlightGen.Proofs.Graph.Path

/-! Search in a graph. Every step uses up one look at a node, so that the search ends, and
it ends at the target exactly if a path leads there. -/

namespace FlightGen.Graph

open Relation

variable {g : Graph} {source target : Nat}

namespace Search

variable {s t : Search}

theorem step_eq_inl {answer : Bool} (h : s.step g target = .inl answer) :
    s.stack = [] ∧ answer = false ∨ target ∈ s.stack ∧ answer = true := by
  unfold step at h
  split at h
  · cases h
    exact .inl ⟨‹_›, rfl⟩
  · rename_i node stack hstack
    split at h
    · rename_i hnode
      cases h
      exact .inr ⟨by simp [hstack, hnode], rfl⟩
    · split at h <;> cases h

/-! ### The end of a search -/

/-- A search ends after a number of steps, with an answer. -/
inductive Ends (g : Graph) (target : Nat) : Nat → Search → Bool → Prop
  | now {s : Search} {answer : Bool} (h : s.step g target = .inl answer) : Ends g target 0 s answer
  | later {steps : Nat} {s t : Search} {answer : Bool} (h : s.step g target = .inr t)
      (ht : Ends g target steps t answer) : Ends g target (steps + 1) s answer

theorem ends_finds (g : Graph) (target : Nat) (s : Search) :
    ∃ steps ≤ s.weight g, Ends g target steps s (s.finds g target) := by
  fun_induction finds g target s with
  | case1 s answer h => exact ⟨0, Nat.zero_le _, .now h⟩
  | case2 s t h ih =>
    obtain ⟨steps, hle, hends⟩ := ih
    have hweight := weight_step h
    exact ⟨steps + 1, by omega, .later h hends⟩

/-! ### What a search finds -/

/-- A search from `source` on its way. It visits nodes at the end of paths, and whatever
an edge leads to from the source or from a visited node is visited or on the stack. -/
structure Sweeps (g : Graph) (source target : Nat) (s : Search) : Prop where
  nodup : s.unseen.Nodup
  sound : ∀ n ∈ s.stack, g.Path source n
  missed : target < g.size → target ∈ s.unseen
  covered : ∀ a b, a = source ∨ a ∉ s.unseen → g.Edge a b → b ∈ s.stack ∨ b ∉ s.unseen

theorem Sweeps.step (hs : s.Sweeps g source target)
    (h : s.step g target = .inr t) : t.Sweeps g source target := by
  obtain ⟨node, stack, hstack, hne, ⟨hmem, rfl⟩ | ⟨hmem, rfl⟩⟩ := step_eq_inr h
  · -- A new node is visited, so that its dependents have to be on the stack.
    have hpath : g.Path source node := hs.sound node (by simp [hstack])
    refine ⟨hs.nodup.erase node, fun n hn => ?_, fun ht => ?_, fun a b ha hab => ?_⟩
    · obtain hn | hn := List.mem_append.1 hn
      · exact hpath.tail (mem_dependents.1 (List.mem_reverse.1 hn))
      · exact hs.sound n (by simp [hstack, hn])
    · exact (List.mem_erase_of_ne hne.symm).2 (hs.missed ht)
    · simp only [hs.nodup.mem_erase_iff, List.mem_append, List.mem_reverse] at ha ⊢
      by_cases hnode : a = node
      · subst hnode
        exact .inl (.inl (mem_dependents.2 hab))
      · have ha : a = source ∨ a ∉ s.unseen := ha.imp_right fun h hin => h ⟨hnode, hin⟩
        obtain hb | hb := hs.covered a b ha hab
        · rw [hstack] at hb
          obtain rfl | hb := List.mem_cons.1 hb
          · exact .inr fun h => h.1 rfl
          · exact .inl (.inr hb)
        · exact .inr fun h => hb h.2
  · refine ⟨hs.nodup, fun n hn => hs.sound n (by simp [hstack, hn]), hs.missed, fun a b ha hab => ?_⟩
    obtain hb | hb := hs.covered a b ha hab
    · rw [hstack] at hb
      obtain rfl | hb := List.mem_cons.1 hb
      · exact .inr hmem
      · exact .inl hb
    · exact .inr hb

/-- With nothing left on the stack, all nodes at the end of paths were visited. -/
theorem Sweeps.notMem_unseen (hs : s.Sweeps g source target) (hstack : s.stack = []) {n : Nat}
    (h : g.Path source n) : n ∉ s.unseen := by
  have hclosed : ∀ a b, a = source ∨ a ∉ s.unseen → g.Edge a b → b ∉ s.unseen := by
    simpa [hstack] using hs.covered
  induction h with
  | single hab => exact hclosed source _ (.inl rfl) hab
  | tail _ hbc ih => exact hclosed _ _ (.inr ih) hbc

theorem Sweeps.answer (hs : s.Sweeps g source target) {answer : Bool}
    (h : s.step g target = .inl answer) : answer = true ↔ g.Path source target := by
  obtain ⟨hstack, rfl⟩ | ⟨hmem, rfl⟩ := step_eq_inl h
  · refine ⟨fun h => Bool.noConfusion h, fun hpath => ?_⟩
    obtain ⟨c, -, hedge⟩ := TransGen.tail'_iff.1 hpath
    exact absurd (hs.missed hedge.lt.2) (hs.notMem_unseen hstack hpath)
  · exact iff_of_true rfl (hs.sound target hmem)

theorem Sweeps.finds_iff (hs : s.Sweeps g source target) :
    s.finds g target = true ↔ g.Path source target := by
  fun_induction finds g target s with
  | case1 s answer h => exact hs.answer h
  | case2 s t h ih => exact ih (hs.step h)

theorem sweeps_start (source target : Nat) :
    (start g source).Sweeps g source target := by
  refine ⟨List.nodup_range, fun n hn => ?_, List.mem_range.2, ?_⟩
  · exact .single (mem_dependents.1 (List.mem_reverse.1 hn))
  · rintro a b (rfl | ha) hab
    · exact .inl (List.mem_reverse.2 (mem_dependents.2 hab))
    · exact absurd (List.mem_range.2 hab.lt.1) ha

section Weight

variable {edges : List (Nat × Nat)} (hg : ∀ a b, g.Edge a b → (a, b) ∈ edges)
include hg

/-- The edges from some nodes, each once. -/
theorem length_flatMap_dependents_le {nodes : List Nat} (h : nodes.Nodup) :
    (nodes.flatMap g.dependents).length ≤ edges.length := by
  let pairs := nodes.flatMap fun a => (g.dependents a).map (a, ·)
  have hnodup : pairs.Nodup := by
    refine List.nodup_flatMap.2 ⟨fun a _ => (g.nodup_dependents a).map fun _ _ => by simp, ?_⟩
    refine h.imp fun hne => ?_
    simp only [Function.onFun, List.disjoint_left, List.mem_map]
    rintro _ ⟨b, -, rfl⟩ ⟨c, -, heq⟩
    exact hne (congrArg Prod.fst heq).symm
  have hsubset : pairs ⊆ edges := by
    intro e he
    obtain ⟨a, -, he⟩ := List.mem_flatMap.1 he
    obtain ⟨b, hb, rfl⟩ := List.mem_map.1 he
    exact hg a b (mem_dependents.1 hb)
  calc (nodes.flatMap g.dependents).length = pairs.length := by simp [pairs, List.length_flatMap]
    _ ≤ edges.length := (List.subperm_of_subset hnodup hsubset).length_le

/-- The source is not marked, so its edges may be followed twice. -/
theorem weight_start_le (source : Nat) : (start g source).weight g ≤ 2 * edges.length := by
  have hsource := length_flatMap_dependents_le hg (List.nodup_singleton source)
  have hall := length_flatMap_dependents_le hg (List.nodup_range (n := g.size))
  simp only [List.flatMap_singleton] at hsource
  simp only [weight, start, List.length_reverse]
  omega

end Weight

end Search

/-- Search finds exactly the nodes at the end of paths. -/
theorem reaches_iff : g.reaches source target = true ↔ g.Path source target :=
  (Search.sweeps_start source target).finds_iff

/-- A graph has the edges that were inserted. In it every search ends, after at most two steps for
an edge, and it finds the nodes at the end of paths: a node finds itself exactly if it lies on a
cycle. -/
theorem reaches_exact {size : Nat} {edges : List (Nat × Nat)}
    (h : ∀ e ∈ edges, e.1 < size ∧ e.2 < size) {g : Graph} (hg : ofEdges size edges = g)
    (source target : Nat) :
    g.size = size ∧ (∀ a b, g.Edge a b ↔ (a, b) ∈ edges) ∧
    (∃ steps ≤ 2 * edges.length,
      Search.Ends g target steps (.start g source) (g.reaches source target)) ∧
    (g.reaches source target = true ↔ g.Path source target) ∧
    (g.reaches source source = true ↔ g.OnCycle source) := by
  subst hg
  have hedge (a b : Nat) : (ofEdges size edges).Edge a b ↔ (a, b) ∈ edges := edge_ofEdges_of_lt h
  refine ⟨size_ofEdges size edges, hedge, ?_, reaches_iff, reaches_iff.trans onCycle_iff.symm⟩
  obtain ⟨steps, hle, hends⟩ := Search.ends_finds _ target (.start (ofEdges size edges) source)
  have hweight := Search.weight_start_le (fun a b => (hedge a b).1) source
  exact ⟨steps, by omega, hends⟩

theorem reaches_exact_knot :
    ((ofEdges 3 [(0, 1), (1, 2), (2, 1), (0, 1)]).reaches 1 1 = true ∧
      (ofEdges 3 [(0, 1), (1, 2), (2, 1), (0, 1)]).OnCycle 1) ∧
    (ofEdges 3 [(0, 1), (1, 2), (2, 1), (0, 1)]).reaches 0 0 = false ∧
      ¬ (ofEdges 3 [(0, 1), (1, 2), (2, 1), (0, 1)]).OnCycle 0 := by
  have hyes : (ofEdges 3 [(0, 1), (1, 2), (2, 1), (0, 1)]).reaches 1 1 = true := by decide +kernel
  have hno : (ofEdges 3 [(0, 1), (1, 2), (2, 1), (0, 1)]).reaches 0 0 = false := by decide +kernel
  refine ⟨⟨hyes, ((reaches_exact (by decide) rfl 1 1).2.2.2.2).1 hyes⟩, hno, fun hcycle => ?_⟩
  have hself := ((reaches_exact (by decide) rfl 0 0).2.2.2.2).2 hcycle
  rw [hno] at hself
  cases hself

end FlightGen.Graph
