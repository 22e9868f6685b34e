import Mathlib.Data.Finset.Card
import Mathlib.Data.List.Nodup
import FlightGen.Naming
import FlightGen.Proofs.Identifier

/-! Identifiers in a name table. A new identifier is free, so that texts which have
an identifier at the same time have different ones; all of them are words. -/

namespace FlightGen

open Identifier (IsWord isWord_underscore isWord_toString)

/-! ### Free identifiers -/

theorem toUpper_of_isDigit {c : Char} (h : c.isDigit = true) : c.toUpper = c := by
  simp only [Char.isDigit, Bool.and_eq_true, decide_eq_true_eq] at h
  unfold Char.toUpper
  split
  · rename_i hlower
    have h9 := UInt32.le_iff_toNat_le.1 h.2
    have ha := UInt32.le_iff_toNat_le.1 hlower.1
    simp at h9 ha
    omega
  · rfl

theorem toDigits_injective {i j : Nat} (h : Nat.toDigits 10 i = Nat.toDigits 10 j) : i = j := by
  rw [← Nat.ofDigitChars_ten_toDigits (n := i), h, Nat.ofDigitChars_ten_toDigits]

namespace Names

theorem toList_suffixed (base : String) (k : Nat) :
    (suffixed base k).toList = base.toList ++ '_' :: Nat.toDigits 10 k := by
  simp [suffixed, toString, Nat.repr]

theorem toList_key_suffixed (kind : NameKind) (base : String) (k : Nat) :
    (kind.key (suffixed base k)).toList = (kind.key base).toList ++ '_' :: Nat.toDigits 10 k := by
  unfold NameKind.key
  split
  · have h : (Nat.toDigits 10 k).map Char.toUpper = Nat.toDigits 10 k := by
      refine (List.map_congr_left fun c hc => ?_).trans (List.map_id _)
      exact toUpper_of_isDigit (Nat.isDigit_of_mem_toDigits (by decide) (by decide) hc)
    simp [String.toUpper, String.toList_map, toList_suffixed, h]
  · exact toList_suffixed base k

theorem key_suffixed_injective {kind : NameKind} {base : String} {i j : Nat}
    (h : kind.key (suffixed base i) = kind.key (suffixed base j)) : i = j := by
  have h' := congrArg String.toList h
  rw [toList_key_suffixed, toList_key_suffixed] at h'
  exact toDigits_injective (List.cons.inj (List.append_cancel_left h')).2

/-- The suffixes that are tried are one more than the keys in use, so that not all of
them can be taken. -/
theorem key_available (kind : NameKind) (taken : List String) (base : String) :
    kind.key (available kind taken base) ∉ taken := by
  unfold available
  split
  · set candidates := (List.range (taken.length + 1)).map fun i => suffixed base (i + 2)
    show kind.key ((candidates.find? fun ident => kind.key ident ∉ taken).getD base) ∉ taken
    cases hfind : candidates.find? fun ident => kind.key ident ∉ taken with
    | some ident => simpa using List.find?_some hfind
    | none =>
      have hall : ∀ i < taken.length + 1, kind.key (suffixed base (i + 2)) ∈ taken := by
        intro i hi
        simpa using List.find?_eq_none.1 hfind (suffixed base (i + 2))
          (List.mem_map.2 ⟨i, List.mem_range.2 hi, rfl⟩)
      have hcard := Finset.card_le_card_of_injOn (s := Finset.range (taken.length + 1))
        (t := taken.toFinset) (fun i => kind.key (suffixed base (i + 2)))
        (fun i hi => List.mem_toFinset.2 (hall i (Finset.mem_range.1 hi)))
        (fun i _ j _ h => Nat.add_right_cancel (key_suffixed_injective h))
      have hle := List.toFinset_card_le taken
      rw [Finset.card_range] at hcard
      omega
  · assumption

/-- What collisions make of a base: the base itself, or the base with a suffix. -/
inductive Extends (base : String) : String → Prop
  | self : Extends base base
  | suffixed (k : Nat) : Extends base (suffixed base k)

theorem extends_available (kind : NameKind) (taken : List String) (base : String) :
    Extends base (available kind taken base) := by
  unfold available
  split
  · set candidates := (List.range (taken.length + 1)).map fun i => suffixed base (i + 2)
    show Extends base ((candidates.find? fun ident => kind.key ident ∉ taken).getD base)
    cases hfind : candidates.find? fun ident => kind.key ident ∉ taken with
    | some ident =>
      obtain ⟨i, -, rfl⟩ := List.mem_map.1 (List.mem_of_find?_eq_some hfind)
      exact .suffixed _
    | none => exact .self
  · exact .self

theorem Extends.isWord {base ident : String} (h : Extends base ident) (hbase : IsWord base) :
    IsWord ident := by
  cases h with
  | self => exact hbase
  | suffixed k => exact (hbase.append isWord_underscore).append (isWord_toString k)

/-! ### The names of a scope -/

/-- Assigned identifiers are words, their keys are taken, and no two texts share one. -/
structure Valid (kind : NameKind) (names : Names) : Prop where
  word : ∀ raw ident, names.assigned.lookup raw = some ident → IsWord ident
  taken : ∀ raw ident, names.assigned.lookup raw = some ident → kind.key ident ∈ names.taken
  injective : ∀ raw raw' ident ident', names.assigned.lookup raw = some ident →
    names.assigned.lookup raw' = some ident' → kind.key ident = kind.key ident' → raw = raw'

theorem valid_empty (kind : NameKind) : Valid kind {} := by
  constructor <;> simp

theorem Valid.reserve {kind : NameKind} {names : Names} (h : names.Valid kind) (ident : String) :
    (names.reserve kind ident).Valid kind :=
  ⟨h.word, fun raw i hi => List.mem_cons_of_mem _ (h.taken raw i hi), h.injective⟩

theorem lookup_forget (raw raw' : String) (names : Names) :
    (names.forget raw).assigned.lookup raw' =
      if raw' = raw then none else names.assigned.lookup raw' := by
  obtain ⟨taken, assigned⟩ := names
  simp only [forget]
  induction assigned with
  | nil => simp
  | cons entry rest ih => grind

theorem Valid.forget {kind : NameKind} {names : Names} (h : names.Valid kind) (raw : String) :
    (names.forget raw).Valid kind := by
  have hlookup : ∀ raw' ident, (names.forget raw).assigned.lookup raw' = some ident →
      names.assigned.lookup raw' = some ident := by
    intro raw' ident hi
    rw [lookup_forget] at hi
    split at hi
    · cases hi
    · exact hi
  exact ⟨fun r i hi => h.word r i (hlookup r i hi), fun r i hi => h.taken r i (hlookup r i hi),
    fun r r' i i' hi hi' => h.injective r r' i i' (hlookup r i hi) (hlookup r' i' hi')⟩

theorem lookup_allocate (kind : NameKind) (raw base raw' : String) (names : Names) :
    (names.allocate kind raw base).2.assigned.lookup raw' =
      if raw' = raw then some (names.allocate kind raw base).1 else names.assigned.lookup raw' := by
  simp only [allocate, List.lookup_cons]
  by_cases h : raw' = raw
  · simp [h]
  · have hne : (raw' == raw) = false := by simpa using h
    simp [h, hne]

theorem Valid.allocate {kind : NameKind} {names : Names} (h : names.Valid kind) (raw : String)
    {base : String} (hbase : IsWord base) : (names.allocate kind raw base).2.Valid kind := by
  have hfree : kind.key (names.allocate kind raw base).1 ∉ names.taken :=
    key_available kind names.taken base
  constructor
  · intro r i hi
    rw [lookup_allocate] at hi
    split at hi
    · cases hi
      exact (extends_available _ _ _).isWord hbase
    · exact h.word r i hi
  · intro r i hi
    rw [lookup_allocate] at hi
    split at hi
    · cases hi
      exact List.mem_cons_self
    · exact List.mem_cons_of_mem _ (h.taken r i hi)
  · intro r r' i i' hi hi' hkey
    rw [lookup_allocate] at hi hi'
    split at hi <;> split at hi'
    · rename_i hr hr'
      rw [hr, hr']
    · cases hi
      exact absurd (hkey ▸ h.taken r' i' hi') hfree
    · cases hi'
      exact absurd (hkey ▸ h.taken r i hi) hfree
    · exact h.injective r r' i i' hi hi' hkey

end Names

/-! ### Tables -/

namespace NameTable

/-- In every scope the identifiers of a kind are words and kept apart. -/
def Valid (t : NameTable) : Prop := ∀ scope kind, (t.names scope kind).Valid kind

theorem valid_empty : Valid {} := fun _ kind => Names.valid_empty kind

theorem names_put (t : NameTable) (scope scope' : String) (kind kind' : NameKind) (names : Names) :
    (t.put scope kind names).names scope' kind' =
      if scope' = scope ∧ kind' = kind then names else t.names scope' kind' := by
  simp only [NameTable.names, put, List.lookup_cons]
  by_cases h : scope' = scope ∧ kind' = kind
  · simp [h]
  · have hne : ((scope', kind') == (scope, kind)) = false := by simpa using h
    simp [h, hne]

theorem Valid.put {t : NameTable} (h : t.Valid) {scope : String} {kind : NameKind} {names : Names}
    (hn : names.Valid kind) : (t.put scope kind names).Valid := by
  intro scope' kind'
  rw [names_put]
  split
  · rename_i heq
    rw [heq.2]
    exact hn
  · exact h scope' kind'

/-- What naming does to a table. Taken identifiers stay taken. Only the texts of local
variables get new identifiers in place of old ones. -/
structure Grows (t t' : NameTable) : Prop where
  valid : t.Valid → t'.Valid
  taken : ∀ scope kind, (t.names scope kind).taken ⊆ (t'.names scope kind).taken
  lookup : ∀ scope kind raw ident, kind ≠ .localVar → t.lookup scope kind raw = some ident →
    t'.lookup scope kind raw = some ident

theorem Grows.refl (t : NameTable) : t.Grows t :=
  ⟨id, fun _ _ => List.Subset.refl _, fun _ _ _ _ _ h => h⟩

theorem Grows.trans {t t' t'' : NameTable} (h : t.Grows t') (h' : t'.Grows t'') : t.Grows t'' :=
  ⟨h'.valid ∘ h.valid, fun s k => List.Subset.trans (h.taken s k) (h'.taken s k),
    fun s k r i hk hi => h'.lookup s k r i hk (h.lookup s k r i hk hi)⟩

theorem grows_reserve (t : NameTable) (scope : String) (kind : NameKind) (ident : String) :
    t.Grows (t.reserve scope kind ident) where
  valid h := h.put ((h scope kind).reserve ident)
  taken s k := by
    rw [NameTable.reserve, names_put]
    split
    · rename_i heq
      obtain ⟨rfl, rfl⟩ := heq
      exact List.subset_cons_self _ _
    · exact List.Subset.refl _
  lookup s k r i _ hi := by
    rw [NameTable.lookup, NameTable.reserve, names_put]
    split
    · rename_i heq
      obtain ⟨rfl, rfl⟩ := heq
      exact hi
    · exact hi

theorem mem_taken_reserve (t : NameTable) (scope : String) (kind : NameKind) (ident : String) :
    kind.key ident ∈ ((t.reserve scope kind ident).names scope kind).taken := by
  rw [NameTable.reserve, names_put, if_pos ⟨rfl, rfl⟩]
  exact List.mem_cons_self

/-- The two ways in which a text comes to its identifier. -/
theorem assign_cases {t t' : NameTable} {scope raw ident : String} {kind : NameKind}
    (h : t.assign scope kind raw = .ok (ident, t')) :
    (t.lookup scope kind raw = some ident ∧ t' = t) ∨
    (t.lookup scope kind raw = none ∧ ∃ base, Identifier.render? raw = some base ∧
      ident = ((t.names scope kind).allocate kind raw base).1 ∧
      t' = t.put scope kind ((t.names scope kind).allocate kind raw base).2) := by
  unfold assign at h
  split at h
  · rename_i hl
    cases h
    exact .inl ⟨hl, rfl⟩
  · rename_i hl
    split at h
    · cases h
    · rename_i base hbase
      cases h
      exact .inr ⟨hl, base, hbase, rfl, rfl⟩

theorem assign_error {t : NameTable} {scope raw : String} {kind : NameKind} {e : ModelError}
    (h : t.assign scope kind raw = .error e) : e = .invalidIdentifier (entityPath scope raw) raw := by
  unfold assign at h
  split at h
  · cases h
  · split at h
    · cases h; rfl
    · cases h

theorem lookup_assign {t t' : NameTable} {scope raw ident : String} {kind : NameKind}
    (h : t.assign scope kind raw = .ok (ident, t')) : t'.lookup scope kind raw = some ident := by
  obtain ⟨hl, rfl⟩ | ⟨-, base, -, rfl, rfl⟩ := assign_cases h
  · exact hl
  · rw [NameTable.lookup, names_put, if_pos ⟨rfl, rfl⟩, Names.lookup_allocate, if_pos rfl]

theorem grows_assign {t t' : NameTable} {scope raw ident : String} {kind : NameKind}
    (h : t.assign scope kind raw = .ok (ident, t')) : t.Grows t' := by
  obtain ⟨-, rfl⟩ | ⟨hl, base, hbase, rfl, rfl⟩ := assign_cases h
  · exact .refl _
  · refine ⟨fun hv => hv.put ((hv scope kind).allocate raw (isIdentifier_render hbase).1.isWord), fun s k => ?_,
      fun s k r i _ hi => ?_⟩
    · rw [names_put]
      split
      · rename_i heq
        obtain ⟨rfl, rfl⟩ := heq
        exact List.subset_cons_self _ _
      · exact List.Subset.refl _
    · rw [NameTable.lookup, names_put]
      split
      · rename_i heq
        obtain ⟨rfl, rfl⟩ := heq
        rw [Names.lookup_allocate, if_neg]
        · exact hi
        · rintro rfl
          rw [hl] at hi
          cases hi
      · exact hi

/-- A fresh identifier of a local variable was free, and is taken from then on. -/
theorem assignFresh_eq_ok {t t' : NameTable} {scope raw ident : String}
    (h : t.assignFresh scope .localVar raw = .ok (ident, t')) :
    t.Grows t' ∧ ident ∉ (t.names scope .localVar).taken ∧
      ident ∈ (t'.names scope .localVar).taken := by
  unfold assignFresh at h
  set t₀ := t.put scope .localVar ((t.names scope .localVar).forget raw) with ht₀
  have hnames : t₀.names scope .localVar = (t.names scope .localVar).forget raw := by
    rw [ht₀, names_put, if_pos ⟨rfl, rfl⟩]
  have hgrows : t.Grows t₀ := by
    refine ⟨fun hv => hv.put ((hv scope _).forget raw), fun s k => ?_, fun s k r i hk hi => ?_⟩
    · rw [ht₀, names_put]
      split
      · rename_i heq
        obtain ⟨rfl, rfl⟩ := heq
        exact List.Subset.refl _
      · exact List.Subset.refl _
    · rw [NameTable.lookup, ht₀, names_put, if_neg fun heq => hk heq.2]
      exact hi
  refine ⟨hgrows.trans (grows_assign h), ?_⟩
  obtain ⟨hl, -⟩ | ⟨-, base, -, rfl, rfl⟩ := assign_cases h
  · rw [NameTable.lookup, hnames, Names.lookup_forget, if_pos rfl] at hl
    cases hl
  · rw [hnames, names_put, if_pos ⟨rfl, rfl⟩]
    exact ⟨Names.key_available .localVar _ base, List.mem_cons_self⟩

end NameTable

end FlightGen
