import Mathlib.Data.List.Nodup

/-! Precedence in a list. That `a` stands before `b` in `xs` is written `[a, b] <+ xs`. -/

namespace FlightGen

open List (Nodup Sublist)

variable {α : Type} {xs : List α} {a b c : α}

theorem mem_left_of_before (h : [a, b].Sublist xs) : a ∈ xs :=
  h.subset (by simp)

theorem mem_right_of_before (h : [a, b].Sublist xs) : b ∈ xs :=
  h.subset (by simp)

theorem before_append_cons {us vs : List α} (ha : a ∈ us) : [a, b].Sublist (us ++ b :: vs) :=
  (List.singleton_sublist.2 ha).append (List.singleton_sublist.2 List.mem_cons_self)

theorem before_cons_iff {x : α} :
    [a, b].Sublist (x :: xs) ↔ [a, b].Sublist xs ∨ a = x ∧ b ∈ xs := by
  constructor
  · rintro (_ | _)
    · exact .inl ‹_›
    · exact .inr ⟨rfl, List.singleton_sublist.1 ‹_›⟩
  · rintro (h | ⟨rfl, h⟩)
    · exact h.cons _
    · exact (List.singleton_sublist.2 h).cons_cons _

theorem before_or_before (ha : a ∈ xs) (hb : b ∈ xs) (hne : a ≠ b) :
    [a, b].Sublist xs ∨ [b, a].Sublist xs := by
  induction xs with
  | nil => cases ha
  | cons x xs ih =>
    simp only [before_cons_iff]
    obtain rfl | ha' := List.mem_cons.1 ha
    · exact .inl (.inr ⟨rfl, (List.mem_cons.1 hb).resolve_left hne.symm⟩)
    · obtain rfl | hb' := List.mem_cons.1 hb
      · exact .inr (.inr ⟨rfl, ha'⟩)
      · exact (ih ha' hb').imp .inl .inl

/-- What stands before the only occurrence of an element. -/
theorem before_append_cons_iff {us vs : List α} (hn : (us ++ b :: vs).Nodup) :
    [a, b].Sublist (us ++ b :: vs) ↔ a ∈ us := by
  refine ⟨fun h => ?_, before_append_cons⟩
  induction us with
  | nil =>
    have hb : b ∉ vs := (List.nodup_cons.1 hn).1
    obtain h | ⟨-, h⟩ := before_cons_iff.1 h
    · exact absurd (mem_right_of_before h) hb
    · exact absurd h hb
  | cons u us ih =>
    obtain h | ⟨rfl, -⟩ := before_cons_iff.1 h
    · exact List.mem_cons_of_mem _ (ih (List.nodup_cons.1 hn).2 h)
    · exact List.mem_cons_self

theorem before_asymm (hn : xs.Nodup) (hab : [a, b].Sublist xs) : ¬ [b, a].Sublist xs := by
  induction xs with
  | nil => cases hab
  | cons x xs ih =>
    obtain ⟨hx, hn'⟩ := List.nodup_cons.1 hn
    intro hba
    obtain hab' | ⟨rfl, hb⟩ := before_cons_iff.1 hab
    · obtain hba' | ⟨rfl, -⟩ := before_cons_iff.1 hba
      · exact ih hn' hab' hba'
      · exact hx (mem_right_of_before hab')
    · obtain hba' | ⟨rfl, ha⟩ := before_cons_iff.1 hba
      · exact hx (mem_right_of_before hba')
      · exact hx ha

theorem before_trans (hn : xs.Nodup) (hab : [a, b].Sublist xs) (hbc : [b, c].Sublist xs) :
    [a, c].Sublist xs := by
  induction xs with
  | nil => cases hab
  | cons x xs ih =>
    obtain ⟨hx, hn'⟩ := List.nodup_cons.1 hn
    obtain hbc' | ⟨rfl, -⟩ := before_cons_iff.1 hbc
    · obtain hab' | ⟨rfl, -⟩ := before_cons_iff.1 hab
      · exact (ih hn' hab' hbc').cons _
      · exact before_cons_iff.2 (.inr ⟨rfl, mem_right_of_before hbc'⟩)
    · obtain hab' | ⟨-, hb⟩ := before_cons_iff.1 hab
      · exact absurd (mem_right_of_before hab') hx
      · exact absurd hb hx

theorem idxOf_lt_of_before [DecidableEq α] (hn : xs.Nodup) (h : [a, b].Sublist xs) :
    xs.idxOf a < xs.idxOf b := by
  obtain ⟨us, vs, rfl⟩ := List.append_of_mem (mem_right_of_before h)
  have ha : a ∈ us := (before_append_cons_iff hn).1 h
  have hb : b ∉ us := fun hb => List.disjoint_of_nodup_append hn hb List.mem_cons_self
  rw [List.idxOf_append_of_mem ha, List.idxOf_append_of_notMem hb, List.idxOf_cons_self]
  exact List.idxOf_lt_length_of_mem ha

theorem before_iff_idxOf_lt [DecidableEq α] (hn : xs.Nodup) (ha : a ∈ xs) (hb : b ∈ xs) :
    [a, b].Sublist xs ↔ xs.idxOf a < xs.idxOf b := by
  refine ⟨idxOf_lt_of_before hn, fun hlt => ?_⟩
  have hne : a ≠ b := by
    rintro rfl
    exact Nat.lt_irrefl _ hlt
  obtain h | h := before_or_before ha hb hne
  · exact h
  · have := idxOf_lt_of_before hn h
    omega

/-- An element is found by a key that no other element has. -/
theorem findIdx?_key [DecidableEq α] {β : Type} [DecidableEq β] (key : α → β) (ha : a ∈ xs)
    (hkey : ∀ x ∈ xs, key x = key a → x = a) :
    xs.findIdx? (key · = key a) = some (xs.idxOf a) := by
  induction xs with
  | nil => cases ha
  | cons x xs ih =>
    obtain ⟨hx, hxs⟩ := List.forall_mem_cons.1 hkey
    rw [List.findIdx?_cons, List.idxOf_cons]
    by_cases h : x = a
    · simp [h]
    · have hne : key x ≠ key a := fun heq => h (hx heq)
      have hbeq : (x == a) = false := by simpa using h
      obtain rfl | ha := List.mem_cons.1 ha
      · exact absurd rfl h
      · simp [hbeq, hne, ih ha hxs]

theorem before_map_iff {β : Type} {key : α → β} (hkey : ∀ x ∈ xs, ∀ y ∈ xs, key x = key y → x = y)
    (ha : a ∈ xs) (hb : b ∈ xs) :
    [key a, key b].Sublist (xs.map key) ↔ [a, b].Sublist xs := by
  refine ⟨fun h => ?_, fun h => h.map key⟩
  obtain ⟨ys, hys, heq⟩ := List.sublist_map_iff.1 h
  obtain ⟨x, zs, rfl, hx, hzs⟩ := List.map_eq_cons_iff.1 heq.symm
  obtain ⟨y, ws, rfl, hy, hnil⟩ := List.map_eq_cons_iff.1 hzs
  cases List.map_eq_nil_iff.1 hnil
  have hxa : x = a := hkey x (mem_left_of_before hys) a ha hx
  have hyb : y = b := hkey y (mem_right_of_before hys) b hb hy
  rwa [hxa, hyb] at hys

/-- Where all elements of a kind stand before the others, they are the first ones. -/
theorem eq_filter_append {p : α → Bool} (hn : xs.Nodup)
    (h : ∀ a ∈ xs, ∀ b ∈ xs, p a = true → p b = false → [a, b].Sublist xs) :
    xs = xs.filter p ++ xs.filter (!p ·) := by
  induction xs with
  | nil => rfl
  | cons x xs ih =>
    obtain ⟨hx, hn'⟩ := List.nodup_cons.1 hn
    cases hp : p x with
    | true =>
      have hxs : xs = xs.filter p ++ xs.filter (!p ·) := by
        refine ih hn' fun a ha b hb hpa hpb => ?_
        have hab := h a (List.mem_cons_of_mem _ ha) b (List.mem_cons_of_mem _ hb) hpa hpb
        obtain hab | ⟨rfl, -⟩ := before_cons_iff.1 hab
        · exact hab
        · exact absurd ha hx
      simpa [hp] using hxs
    | false =>
      have hnone : ∀ a ∈ xs, p a = false := by
        intro a ha
        by_contra hpa
        have hax := h a (List.mem_cons_of_mem _ ha) x List.mem_cons_self (by simpa using hpa) hp
        obtain hax | ⟨rfl, -⟩ := before_cons_iff.1 hax
        · exact hx (mem_right_of_before hax)
        · exact hx ha
      have hall : ∀ a ∈ x :: xs, p a = false := List.forall_mem_cons.2 ⟨hp, hnone⟩
      rw [List.filter_eq_nil_iff.2 (by simpa using hall),
        List.filter_eq_self.2 (by simpa using hall), List.nil_append]

end FlightGen
