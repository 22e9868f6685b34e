import Mathlib.Data.List.Nodup
import FlightGen.Proofs.Graph.Path
import FlightGen.Proofs.Precedence

/-! Placing nodes by counting dependencies. Between two nodes every count is the number of
dependencies that are not placed, and the nodes at hand are those with a count of zero. -/

namespace FlightGen.Graph.Placement

variable {g : Graph} {s : Placement}

/-! ### Counting down -/

@[simp]
theorem length_counts_release (s : Placement) (n : Nat) :
    (s.release n).counts.length = s.counts.length := by
  simp [release]

theorem count_release {m n : Nat} (h : n < s.counts.length) :
    (s.release n).count m = s.count m - if m = n then 1 else 0 := by
  by_cases hm : m = n
  · subst hm
    simp [count, release, h]
  · simp [count, release, List.getElem?_set_ne (Ne.symm hm), hm]

theorem mem_ready_release {m n : Nat} :
    m ∈ (s.release n).ready ↔ m ∈ s.ready ∨ m = n ∧ s.count n = 1 := by
  have hone : s.count n - 1 = 0 ↔ s.count n = 1 := by omega
  simp only [release, hone]
  split
  · simp_all [or_comm]
  · simp_all

/-- Nodes at hand have no positive count, so that none comes to hand twice. -/
theorem nodup_ready_release {n : Nat} (h : s.ready.Nodup) (hready : ∀ m ∈ s.ready, s.count m ≤ 0) :
    (s.release n).ready.Nodup := by
  simp only [release]
  split
  · refine List.nodup_cons.2 ⟨fun hn => ?_, h⟩
    have := hready n hn
    omega
  · exact h

theorem placed_foldl_release (nodes : List Nat) (s : Placement) :
    (nodes.foldl release s).placed = s.placed := by
  induction nodes generalizing s with
  | nil => rfl
  | cons n nodes ih => exact ih (s.release n)

theorem length_counts_foldl_release (nodes : List Nat) (s : Placement) :
    (nodes.foldl release s).counts.length = s.counts.length := by
  induction nodes generalizing s with
  | nil => rfl
  | cons n nodes ih => rw [List.foldl_cons, ih, length_counts_release]

theorem placed_place (g : Graph) (s : Placement) (n : Nat) :
    (s.place g n).placed = s.placed ++ [n] :=
  placed_foldl_release _ _

section

variable {nodes : List Nat} (hlt : ∀ n ∈ nodes, n < s.counts.length) (hnodup : nodes.Nodup)
include hlt hnodup

theorem count_foldl_release (m : Nat) :
    (nodes.foldl release s).count m = s.count m - if m ∈ nodes then 1 else 0 := by
  induction nodes generalizing s with
  | nil => simp
  | cons n nodes ih =>
    obtain ⟨hn, hlt⟩ := List.forall_mem_cons.1 hlt
    obtain ⟨hnotMem, hnodup⟩ := List.nodup_cons.1 hnodup
    rw [List.foldl_cons, ih (by simpa using hlt) hnodup, count_release hn]
    by_cases hm : m = n
    · subst hm
      simp [hnotMem]
    · simp [hm]

theorem mem_ready_foldl_release {m : Nat} :
    m ∈ (nodes.foldl release s).ready ↔ m ∈ s.ready ∨ m ∈ nodes ∧ s.count m = 1 := by
  induction nodes generalizing s with
  | nil => simp
  | cons n nodes ih =>
    obtain ⟨hn, hlt⟩ := List.forall_mem_cons.1 hlt
    obtain ⟨hnotMem, hnodup⟩ := List.nodup_cons.1 hnodup
    rw [List.foldl_cons, ih (by simpa using hlt) hnodup, mem_ready_release, count_release hn]
    by_cases hm : m = n
    · subst hm
      simp [hnotMem]
    · simp [hm]

omit hnodup in
theorem nodup_ready_foldl_release (h : s.ready.Nodup) (hready : ∀ m ∈ s.ready, s.count m ≤ 0) :
    (nodes.foldl release s).ready.Nodup := by
  induction nodes generalizing s with
  | nil => exact h
  | cons n nodes ih =>
    obtain ⟨hn, hlt⟩ := List.forall_mem_cons.1 hlt
    refine ih (by simpa using hlt) (nodup_ready_release h hready) fun m hm => ?_
    rw [count_release hn]
    obtain hm | ⟨rfl, hone⟩ := mem_ready_release.1 hm
    · have := hready m hm
      split <;> omega
    · simp [hone]

end

/-! ### The counts and the nodes at hand -/

/-- The dependencies of a node that are not placed. -/
def waitsFor (g : Graph) (placed : List Nat) (n : Nat) : List Nat :=
  (g.dependencies n).filter (· ∉ placed)

theorem mem_waitsFor {placed : List Nat} {a n : Nat} :
    a ∈ waitsFor g placed n ↔ a ∈ g.dependencies n ∧ a ∉ placed := by
  simp [waitsFor]

theorem length_waitsFor_append {placed : List Nat} {a n : Nat} (ha : a ∉ placed) :
    ((waitsFor g (placed ++ [a]) n).length : Int) =
      (waitsFor g placed n).length - if a ∈ g.dependencies n then 1 else 0 := by
  have hnodup : (waitsFor g placed n).Nodup := (g.nodup_dependencies n).filter _
  have heq : waitsFor g (placed ++ [a]) n = (waitsFor g placed n).erase a := by
    rw [hnodup.erase_eq_filter]
    simp only [waitsFor, List.filter_filter]
    refine List.filter_congr fun x _ => ?_
    rw [Bool.eq_iff_iff]
    simp [and_comm]
  rw [heq, List.length_erase]
  by_cases h : a ∈ g.dependencies n
  · have hmem : a ∈ waitsFor g placed n := mem_waitsFor.2 ⟨h, ha⟩
    have := List.length_pos_of_mem hmem
    simp only [hmem, h, if_true]
    omega
  · have hmem : a ∉ waitsFor g placed n := fun hmem => h (mem_waitsFor.1 hmem).1
    simp [hmem, h]

/-- What holds whenever all dependents of the last node are counted down. -/
structure Sound (g : Graph) (s : Placement) : Prop where
  size : s.counts.length = g.size
  counts : ∀ n < g.size, s.count n = (waitsFor g s.placed n).length
  ready : ∀ n, n ∈ s.ready ↔ n < g.size ∧ n ∉ s.placed ∧ s.count n = 0
  nodup_ready : s.ready.Nodup
  placed_lt : ∀ n ∈ s.placed, n < g.size
  nodup : s.placed.Nodup
  /-- Every placed node stands behind its dependencies. -/
  behind : ∀ n ∈ s.placed, ∀ a ∈ g.dependencies n, [a, n].Sublist s.placed

theorem sound_unplaced (g : Graph) : g.unplaced.Sound g where
  size := by simp [unplaced]
  counts n hn := by simp [unplaced, count, waitsFor, hn]
  ready n := by
    simp only [unplaced, count, List.mem_filter, List.mem_range, decide_eq_true_eq]
    refine and_congr_right fun hn => ?_
    simp [hn]
  nodup_ready := List.nodup_range.filter _
  placed_lt := by simp [unplaced]
  nodup := by simp [unplaced]
  behind := by simp [unplaced]

namespace Sound

variable {n a : Nat} (hs : s.Sound g)
include hs

theorem count_eq_zero_iff (hn : n < g.size) :
    s.count n = 0 ↔ ∀ a ∈ g.dependencies n, a ∈ s.placed := by
  rw [hs.counts n hn]
  simp only [Int.natCast_eq_zero, List.length_eq_zero_iff, waitsFor, List.filter_eq_nil_iff,
    decide_eq_true_eq, not_not]

theorem count_nonneg (hn : n < g.size) : 0 ≤ s.count n := by
  rw [hs.counts n hn]
  exact Int.natCast_nonneg _

theorem placed_of_dependency (hn : n ∈ s.placed) (ha : a ∈ g.dependencies n) : a ∈ s.placed :=
  mem_left_of_before (hs.behind n hn a ha)

/-- A node at hand still counts at all its dependents. -/
theorem one_le_count (ha : a ∈ s.ready) (hn : n ∈ g.dependents a) : 1 ≤ s.count n := by
  obtain ⟨ha, hnot, -⟩ := (hs.ready a).1 ha
  rw [hs.counts n (mem_dependents.1 hn).lt.2]
  have hmem : a ∈ waitsFor g s.placed n := mem_waitsFor.2 ⟨mem_dependents_iff.1 hn, hnot⟩
  have := List.length_pos_of_mem hmem
  omega

theorem dependents_lt (n : Nat) (hn : n ∈ g.dependents a) : n < (s.take a).counts.length := by
  show n < s.counts.length
  rw [hs.size]
  exact (mem_dependents.1 hn).lt.2

/-- All counts after some of the dependents of `a` are counted down. -/
theorem count_foldl_release_take {nodes : List Nat} (hsub : nodes.Sublist (g.dependents a)) :
    (nodes.foldl release (s.take a)).count n = s.count n - if n ∈ nodes then 1 else 0 :=
  count_foldl_release (fun m hm => hs.dependents_lt m (hsub.subset hm))
    ((g.nodup_dependents a).sublist hsub) n

theorem count_place : (s.place g a).count n = s.count n - if n ∈ g.dependents a then 1 else 0 :=
  hs.count_foldl_release_take (List.Sublist.refl _)

/-- A dependent of a node at hand is not placed, nor is it that node. -/
theorem notMem_placed_of_dependent (ha : a ∈ s.ready) (hn : n ∈ g.dependents a) :
    n ∉ s.placed ++ [a] := by
  obtain ⟨hlt, hnot, hzero⟩ := (hs.ready a).1 ha
  have hone := hs.one_le_count ha hn
  intro hmem
  obtain hmem | hmem := List.mem_append.1 hmem
  · exact hnot (hs.placed_of_dependency hmem (mem_dependents_iff.1 hn))
  · cases List.mem_singleton.1 hmem
    omega

theorem mem_ready_place (ha : a ∈ s.ready) : n ∈ (s.place g a).ready ↔
    n < g.size ∧ n ∉ (s.place g a).placed ∧ (s.place g a).count n = 0 := by
  have hready : n ∈ (s.place g a).ready ↔
      n ∈ s.ready.erase a ∨ n ∈ g.dependents a ∧ s.count n = 1 :=
    mem_ready_foldl_release hs.dependents_lt (g.nodup_dependents a)
  rw [hready, hs.nodup_ready.mem_erase_iff, hs.ready, hs.count_place, placed_place]
  by_cases hn : n ∈ g.dependents a
  · -- Only counting down can bring it to hand.
    have hone := hs.one_le_count ha hn
    have hlt := (mem_dependents.1 hn).lt.2
    have hnot := hs.notMem_placed_of_dependent ha hn
    simp only [hn, hlt, hnot, if_true, not_false_eq_true, true_and]
    omega
  · simp only [hn, if_false, false_and, or_false, Int.sub_zero, List.mem_append,
      List.mem_singleton, not_or]
    tauto

theorem place (ha : a ∈ s.ready) : (s.place g a).Sound g := by
  obtain ⟨hlt, hnot, hzero⟩ := (hs.ready a).1 ha
  refine ⟨?_, fun n hn => ?_, fun n => hs.mem_ready_place ha, ?_, ?_, ?_, ?_⟩
  · exact (length_counts_foldl_release _ _).trans hs.size
  · rw [placed_place, length_waitsFor_append hnot, hs.count_place, hs.counts n hn]
    simp only [mem_dependents_iff]
  · refine nodup_ready_foldl_release hs.dependents_lt (hs.nodup_ready.erase a) fun m hm => ?_
    exact Int.le_of_eq ((hs.ready m).1 (List.mem_of_mem_erase hm)).2.2
  · rw [placed_place]
    simpa [or_imp, forall_and, hlt] using hs.placed_lt
  · rw [placed_place, ← List.concat_eq_append]
    exact List.Nodup.concat hnot hs.nodup
  · intro n hn b hb
    rw [placed_place] at hn ⊢
    obtain hn | hn := List.mem_append.1 hn
    · exact (hs.behind n hn b hb).trans (List.sublist_append_left _ _)
    · cases List.mem_singleton.1 hn
      exact before_append_cons ((hs.count_eq_zero_iff hlt).1 hzero b hb)

/-- The run ends soundly, with no node at hand. -/
theorem finish : (s.finish g).Sound g ∧ (s.finish g).ready = [] := by
  fun_induction Placement.finish g s with
  | case1 s h => exact ⟨hs, List.min?_eq_none_iff.1 h⟩
  | case2 s n h ih => exact ih (hs.place (List.min?_mem h))

end Sound

theorem exists_placed_finish (g : Graph) (s : Placement) :
    ∃ rest, (s.finish g).placed = s.placed ++ rest := by
  fun_induction Placement.finish g s with
  | case1 s h => exact ⟨[], by simp⟩
  | case2 s n h ih =>
    obtain ⟨rest, hrest⟩ := ih
    exact ⟨n :: rest, by simp [hrest, placed_place]⟩

/-! ### The states of a run -/

/-- The states that a run passes, with the nodes that are still to be counted down. -/
inductive Passes (g : Graph) : Placement → List Nat → Prop
  | start : Passes g g.unplaced []
  | take {s : Placement} {n : Nat} (hs : Passes g s []) (h : s.ready.min? = some n) :
      Passes g (s.take n) (g.dependents n)
  | release {s : Placement} {n : Nat} {rest : List Nat} (hs : Passes g s (n :: rest)) :
      Passes g (s.release n) rest

namespace Passes

variable {rest : List Nat}

theorem foldl_release (hs : s.Passes g rest) : (rest.foldl Placement.release s).Passes g [] := by
  induction rest generalizing s with
  | nil => exact hs
  | cons n rest ih => exact ih hs.release

theorem finish (hs : s.Passes g []) : (s.finish g).Passes g [] := by
  fun_induction Placement.finish g s with
  | case1 s h => exact hs
  | case2 s n h ih => exact ih (hs.take h).foldl_release

/-- A state that a run passes is sound, or it lies between two sound ones. -/
theorem sound_or_within (hs : s.Passes g rest) : s.Sound g ∧ rest = [] ∨
    ∃ t : Placement, t.Sound g ∧ ∃ a ∈ t.ready, ∃ done, g.dependents a = done ++ rest ∧
      s = done.foldl Placement.release (t.take a) := by
  induction hs with
  | start => exact .inl ⟨sound_unplaced g, rfl⟩
  | @take s n _ h ih =>
    refine .inr ⟨s, ?_, n, List.min?_mem h, [], rfl, rfl⟩
    obtain ⟨hsound, -⟩ | ⟨t, ht, a, ha, done, hdone, rfl⟩ := ih
    · exact hsound
    · rw [List.append_nil] at hdone
      rw [← hdone]
      exact ht.place ha
  | @release s n rest _ ih =>
    obtain ⟨-, hnil⟩ | ⟨t, ht, a, ha, done, hdone, rfl⟩ := ih
    · cases hnil
    · exact .inr ⟨t, ht, a, ha, done ++ [n], by simp [hdone], by simp⟩

theorem size (hs : s.Passes g rest) : s.counts.length = g.size := by
  obtain ⟨hsound, -⟩ | ⟨t, ht, a, -, done, -, rfl⟩ := hs.sound_or_within
  · exact hsound.size
  · exact (length_counts_foldl_release _ _).trans ht.size

/-- Nothing is counted below zero. -/
theorem count_nonneg (hs : s.Passes g rest) {n : Nat} (hn : n < g.size) : 0 ≤ s.count n := by
  obtain ⟨hsound, -⟩ | ⟨t, ht, a, ha, done, hdone, rfl⟩ := hs.sound_or_within
  · exact hsound.count_nonneg hn
  · have hsub : done.Sublist (g.dependents a) := by
      rw [hdone]
      exact List.sublist_append_left _ _
    rw [ht.count_foldl_release_take hsub]
    split
    · have := ht.one_le_count ha (hsub.subset ‹_›)
      omega
    · have := ht.count_nonneg hn
      omega

theorem counts_nonneg (hs : s.Passes g rest) {count : Int} (h : count ∈ s.counts) : 0 ≤ count := by
  obtain ⟨n, hn, rfl⟩ := List.mem_iff_getElem.1 h
  have hcount := hs.count_nonneg (n := n) (hs.size ▸ hn)
  simpa [Placement.count, hn] using hcount

end Passes

end FlightGen.Graph.Placement
