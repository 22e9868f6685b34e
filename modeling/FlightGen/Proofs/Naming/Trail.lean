import Mathlib.Logic.Relation
import FlightGen.Proofs.Naming.Table

/-! Trails through name tables. Naming changes a table only by reservations and assignments,
each in one scope and of one kind. What holds of a single change therefore holds of a whole
trail of changes: the table grows, scopes aside from the trail keep their names, every
identifier is built from the text that it stands for, and none is given that was reserved. -/

namespace FlightGen

namespace NameTable

/-- All identifiers are built from the texts they were assigned to. -/
def Rendered (t : NameTable) : Prop :=
  ∀ scope kind raw ident, t.lookup scope kind raw = some ident →
    ∃ base, Identifier.render? raw = some base ∧ Names.Extends base ident

theorem rendered_empty : Rendered {} := by
  intro scope kind raw ident h
  simp [NameTable.lookup, NameTable.names] at h

/-! ### One change -/

/-- A change of a table in a scope and of a kind that `P` admits. -/
inductive Change (P : String → NameKind → Prop) (t : NameTable) : NameTable → Prop
  | reserve {scope : String} {kind : NameKind} (ident : String) (h : P scope kind) :
      Change P t (t.reserve scope kind ident)
  | assign {scope raw ident : String} {kind : NameKind} {t' : NameTable} (h : P scope kind)
      (ht : t.assign scope kind raw = .ok (ident, t')) : Change P t t'
  | assignFresh {scope raw ident : String} {t' : NameTable} (h : P scope .localVar)
      (ht : t.assignFresh scope .localVar raw = .ok (ident, t')) : Change P t t'

variable {P : String → NameKind → Prop} {t t' : NameTable}

theorem Change.grows (h : Change P t t') : t.Grows t' := by
  cases h with
  | reserve ident => exact t.grows_reserve _ _ ident
  | assign _ ht => exact grows_assign ht
  | assignFresh _ ht => exact (assignFresh_eq_ok ht).1

section

variable {scope scope' raw ident : String} {kind kind' : NameKind}

theorem names_assign (h : t.assign scope kind raw = .ok (ident, t'))
    (hne : ¬ (scope' = scope ∧ kind' = kind)) : t'.names scope' kind' = t.names scope' kind' := by
  obtain ⟨-, rfl⟩ | ⟨-, base, -, -, rfl⟩ := assign_cases h
  · rfl
  · rw [names_put, if_neg hne]

theorem Change.names_eq (h : Change P t t') (hP : ¬ P scope kind) :
    t'.names scope kind = t.names scope kind := by
  -- The change is in a scope that `P` admits, so it is not in this one.
  have hne : ∀ {scope' kind'}, P scope' kind' → ¬ (scope = scope' ∧ kind = kind') := by
    rintro scope' kind' h ⟨rfl, rfl⟩
    exact hP h
  cases h with
  | reserve ident h => rw [NameTable.reserve, names_put, if_neg (hne h)]
  | assign h ht => exact names_assign ht (hne h)
  | assignFresh h ht => rw [names_assign ht (hne h), names_put, if_neg (hne h)]

end

/-- An identifier that the table can give to a text: it is built from the text, and free. -/
structure Allocates (t : NameTable) (scope : String) (kind : NameKind) (raw ident : String) : Prop where
  built : ∃ base, Identifier.render? raw = some base ∧ Names.Extends base ident
  free : kind.key ident ∉ (t.names scope kind).taken

section

variable {scope scope' raw raw' ident ident' : String} {kind kind' : NameKind}

theorem lookup_of_assign (h : t.assign scope kind raw = .ok (ident, t'))
    (hl : t'.lookup scope' kind' raw' = some ident') :
    t.lookup scope' kind' raw' = some ident' ∨ t.Allocates scope' kind' raw' ident' := by
  obtain ⟨-, rfl⟩ | ⟨-, base, hbase, -, rfl⟩ := assign_cases h
  · exact .inl hl
  rw [NameTable.lookup, names_put] at hl
  split at hl
  · rename_i heq
    obtain ⟨rfl, rfl⟩ := heq
    rw [Names.lookup_allocate] at hl
    split at hl
    · rename_i hraw
      subst hraw
      cases hl
      exact .inr ⟨⟨base, hbase, Names.extends_available _ _ _⟩, Names.key_available _ _ _⟩
    · exact .inl hl
  · exact .inl hl

theorem lookup_forget :
    (t.put scope kind ((t.names scope kind).forget raw)).lookup scope' kind' raw' =
      if scope' = scope ∧ kind' = kind ∧ raw' = raw then none else t.lookup scope' kind' raw' := by
  rw [NameTable.lookup, names_put]
  by_cases hplace : scope' = scope ∧ kind' = kind
  · obtain ⟨rfl, rfl⟩ := hplace
    rw [if_pos ⟨rfl, rfl⟩, Names.lookup_forget]
    simp [NameTable.lookup]
  · rw [if_neg hplace, if_neg fun h => hplace ⟨h.1, h.2.1⟩]
    rfl

theorem lookup_of_forget
    (hl : (t.put scope kind ((t.names scope kind).forget raw)).lookup scope' kind' raw' = some ident') :
    t.lookup scope' kind' raw' = some ident' := by
  rw [lookup_forget] at hl
  split at hl
  · cases hl
  · exact hl

theorem taken_forget : ((t.put scope kind ((t.names scope kind).forget raw)).names scope' kind').taken =
    (t.names scope' kind').taken := by
  rw [names_put]
  split
  · rename_i heq
    obtain ⟨rfl, rfl⟩ := heq
    rfl
  · rfl

theorem lookup_of_reserve (hl : (t.reserve scope kind ident).lookup scope' kind' raw' = some ident') :
    t.lookup scope' kind' raw' = some ident' := by
  rw [NameTable.lookup, NameTable.reserve, names_put] at hl
  split at hl
  · rename_i heq
    obtain ⟨rfl, rfl⟩ := heq
    exact hl
  · exact hl

/-- What a text is called after a change, it was called before, or it has just come to it. -/
theorem Change.lookup_cases (h : Change P t t') (hl : t'.lookup scope kind raw = some ident) :
    t.lookup scope kind raw = some ident ∨ t.Allocates scope kind raw ident := by
  cases h with
  | reserve => exact .inl (lookup_of_reserve hl)
  | assign _ ha => exact lookup_of_assign ha hl
  | assignFresh _ ha =>
    obtain hl | ⟨hbuilt, hfree⟩ := lookup_of_assign ha hl
    · exact .inl (lookup_of_forget hl)
    · rw [taken_forget] at hfree
      exact .inr ⟨hbuilt, hfree⟩

end

theorem Change.rendered (h : Change P t t') (ht : t.Rendered) : t'.Rendered := by
  intro scope kind raw ident hl
  obtain hl | hnew := h.lookup_cases hl
  · exact ht scope kind raw ident hl
  · exact hnew.built

/-- Keys that are taken, though no text has an identifier with one of them. -/
structure Reserves (t : NameTable) (scope : String) (kind : NameKind) (keys : List String) : Prop where
  taken : keys ⊆ (t.names scope kind).taken
  free : ∀ raw ident, t.lookup scope kind raw = some ident → kind.key ident ∉ keys

theorem Change.reserves {scope : String} {kind : NameKind} {keys : List String} (h : Change P t t')
    (ht : t.Reserves scope kind keys) : t'.Reserves scope kind keys := by
  refine ⟨List.Subset.trans ht.taken (h.grows.taken scope kind), fun raw ident hl => ?_⟩
  obtain hl | hnew := h.lookup_cases hl
  · exact ht.free raw ident hl
  · exact fun hmem => hnew.free (ht.taken hmem)

/-! ### Trails -/

/-- Changes in turn, all of them in scopes and of kinds that `P` admits. -/
def Trail (P : String → NameKind → Prop) : NameTable → NameTable → Prop :=
  Relation.ReflTransGen (Change P)

theorem Change.mono {Q : String → NameKind → Prop} (hPQ : ∀ scope kind, P scope kind → Q scope kind)
    (h : Change P t t') : Change Q t t' := by
  cases h with
  | reserve ident h => exact .reserve ident (hPQ _ _ h)
  | assign h ht => exact .assign (hPQ _ _ h) ht
  | assignFresh h ht => exact .assignFresh (hPQ _ _ h) ht

/-- Changes in turn, wherever they are. -/
def Reaches (t t' : NameTable) : Prop := Trail (fun _ _ => True) t t'

theorem Reaches.trans {t'' : NameTable} (h : t.Reaches t') (h' : t'.Reaches t'') : t.Reaches t'' :=
  Relation.ReflTransGen.trans h h'

theorem Trail.reaches (h : Trail P t t') : t.Reaches t' := by
  induction h with
  | refl => exact .refl
  | tail _ hchange ih => exact ih.tail (hchange.mono fun _ _ _ => trivial)

theorem Trail.grows (h : Trail P t t') : t.Grows t' := by
  induction h with
  | refl => exact .refl t
  | tail _ hchange ih => exact ih.trans hchange.grows

theorem Trail.names_eq (h : Trail P t t') {scope : String} {kind : NameKind} (hP : ¬ P scope kind) :
    t'.names scope kind = t.names scope kind := by
  induction h with
  | refl => rfl
  | tail _ hchange ih => rw [hchange.names_eq hP, ih]

theorem Trail.reserves (h : Trail P t t') {scope : String} {kind : NameKind} {keys : List String}
    (ht : t.Reserves scope kind keys) : t'.Reserves scope kind keys := by
  induction h with
  | refl => exact ht
  | tail _ hchange ih => exact hchange.reserves ih

theorem Trail.rendered (h : Trail P t t') (ht : t.Rendered) : t'.Rendered := by
  induction h with
  | refl => exact ht
  | tail _ hchange ih => exact hchange.rendered ih

end NameTable

end FlightGen
