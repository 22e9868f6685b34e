import FlightGen.Proofs.Naming.Effect

/-! An account of the variables that are taken. A way from one table to another tells which
variables come to be taken on it, and which texts lose the variable that they have. And once a
text has an identifier, its plain spelling is taken, by this text or by what came before it. -/

namespace FlightGen

/-- A base is taken once an identifier has been built from it. -/
theorem Names.key_mem_allocate (kind : NameKind) (raw base : String) (names : Names) :
    kind.key base ∈ (names.allocate kind raw base).2.taken := by
  show kind.key base ∈ kind.key (available kind names.taken base) :: names.taken
  unfold available
  split
  · rename_i hmem
    exact List.mem_cons_of_mem _ hmem
  · exact List.mem_cons_self

namespace NameTable

variable {P : String → NameKind → Prop} {t t' t'' : NameTable} {scope raw ident : String}
  {kind : NameKind}

/-! ### Plain spellings -/

/-- Texts with an identifier have their plain spelling taken. -/
def Claimed (t : NameTable) : Prop :=
  ∀ scope kind raw ident base, t.lookup scope kind raw = some ident →
    Identifier.render? raw = some base → kind.key base ∈ (t.names scope kind).taken

theorem claimed_empty : Claimed {} := by
  intro scope kind raw ident base h
  simp [NameTable.lookup, NameTable.names] at h

theorem Claimed.assign (ht : t.Claimed) (h : t.assign scope kind raw = .ok (ident, t')) :
    t'.Claimed := by
  obtain ⟨-, rfl⟩ | ⟨-, base, hbase, -, rfl⟩ := assign_cases h
  · exact ht
  intro scope' kind' raw' ident' base' hl hbase'
  rw [NameTable.lookup, names_put] at hl
  rw [names_put]
  split at hl
  · rename_i hplace
    obtain ⟨rfl, rfl⟩ := hplace
    rw [if_pos ⟨rfl, rfl⟩]
    rw [Names.lookup_allocate] at hl
    split at hl
    · rename_i hraw
      subst hraw
      cases hbase.symm.trans hbase'
      exact Names.key_mem_allocate _ _ _ _
    · exact List.mem_cons_of_mem _ (ht _ _ _ _ _ hl hbase')
  · rename_i hplace
    rw [if_neg hplace]
    exact ht _ _ _ _ _ hl hbase'

theorem Change.claimed (h : Change P t t') (ht : t.Claimed) : t'.Claimed := by
  cases h with
  | reserve ident h =>
    intro scope kind raw ident' base hl hbase
    exact (grows_reserve _ _ _ ident).taken _ _ (ht _ _ _ _ _ (lookup_of_reserve hl) hbase)
  | assign _ ha => exact ht.assign ha
  | assignFresh _ ha =>
    refine Claimed.assign (fun scope kind raw ident base hl hbase => ?_) ha
    rw [taken_forget]
    exact ht _ _ _ _ _ (lookup_of_forget hl) hbase

theorem Trail.claimed (h : Trail P t t') (ht : t.Claimed) : t'.Claimed := by
  induction h with
  | refl => exact ht
  | tail _ hchange ih => exact hchange.claimed ih

/-! ### Variables -/

/-- The variables that are taken in a scope. -/
def locals (t : NameTable) (scope : String) : List String := (t.names scope .localVar).taken

/-- A way on which all variables that come to be taken are told by `takes`, and all texts that
lose their variable by `renews`. -/
structure Leads (takes renews : String → String → Prop) (t t' : NameTable) : Prop where
  reaches : t.Reaches t'
  taken : ∀ scope x, x ∈ t'.locals scope → x ∈ t.locals scope ∨ takes scope x
  kept : ∀ scope raw ident, t.lookup scope .localVar raw = some ident →
    t'.lookup scope .localVar raw = some ident ∨ renews scope raw

variable {takes renews : String → String → Prop}

theorem Leads.refl (t : NameTable) : Leads takes renews t t :=
  ⟨.refl, fun _ _ h => .inl h, fun _ _ _ h => .inl h⟩

theorem Leads.trans (h : Leads takes renews t t') (h' : Leads takes renews t' t'') :
    Leads takes renews t t'' := by
  refine ⟨h.reaches.trans h'.reaches, fun scope x hx => ?_, fun scope raw ident hl => ?_⟩
  · obtain hx | hx := h'.taken scope x hx
    · exact h.taken scope x hx
    · exact .inr hx
  · obtain hl | hl := h.kept scope raw ident hl
    · exact h'.kept scope raw ident hl
    · exact .inr hl

/-- Where no variable is named, all variables stay as they are. -/
theorem Leads.of_trail (h : Trail (fun _ kind => kind ≠ .localVar) t t') :
    Leads takes renews t t' := by
  have hnames : ∀ scope, t'.names scope .localVar = t.names scope .localVar :=
    fun scope => h.names_eq (by simp)
  refine ⟨h.reaches, fun scope x hx => .inl ?_, fun scope raw ident hl => .inl ?_⟩
  · rwa [locals, hnames] at hx
  · rwa [NameTable.lookup, hnames]

theorem Leads.reserve (h : takes scope ident) :
    Leads takes renews t (t.reserve scope .localVar ident) := by
  refine ⟨.single (.reserve ident trivial), fun scope' x hx => ?_, fun scope' raw ident' hl => .inl ?_⟩
  · rw [locals, NameTable.reserve, names_put] at hx
    split at hx
    · rename_i hplace
      obtain rfl | hx := List.mem_cons.1 hx
      · exact .inr (hplace.1 ▸ h)
      · exact .inl (hplace.1 ▸ hx)
    · exact .inl hx
  · rw [NameTable.lookup, NameTable.reserve, names_put]
    split
    · rename_i hplace
      exact hplace.1 ▸ hl
    · exact hl

/-- An assignment leaves all variables that texts have. -/
theorem Leads.assign (ht : t.assign scope .localVar raw = .ok (ident, t')) (h : takes scope ident) :
    Leads takes renews t t' := by
  have hreaches : t.Reaches t' := .single (.assign trivial ht)
  obtain ⟨-, rfl⟩ | ⟨hnone, base, -, rfl, rfl⟩ := assign_cases ht
  · exact .refl _
  refine ⟨hreaches, fun scope' x hx => ?_, fun scope' raw' ident' hl => .inl ?_⟩
  · rw [locals, names_put] at hx
    split at hx
    · rename_i hplace
      obtain rfl | hx := List.mem_cons.1 hx
      · exact .inr (hplace.1 ▸ h)
      · exact .inl (hplace.1 ▸ hx)
    · exact .inl hx
  · rw [NameTable.lookup, names_put]
    split
    · rename_i hplace
      obtain ⟨rfl, -⟩ := hplace
      rw [Names.lookup_allocate, if_neg]
      · exact hl
      · rintro rfl
        cases hnone.symm.trans hl
    · exact hl

/-- A variable drawn afresh replaces the one that its text had. -/
theorem Leads.assignFresh (ht : t.assignFresh scope .localVar raw = .ok (ident, t'))
    (h : takes scope ident) (hraw : renews scope raw) : Leads takes renews t t' := by
  have hassign : Leads takes renews _ t' := .assign ht h
  refine ⟨.single (.assignFresh trivial ht), fun scope' x hx => ?_, fun scope' raw' ident' hl => ?_⟩
  · have hx := hassign.taken scope' x hx
    rwa [locals, taken_forget] at hx
  · by_cases hplace : scope' = scope ∧ raw' = raw
    · obtain ⟨rfl, rfl⟩ := hplace
      exact .inr hraw
    · refine hassign.kept scope' raw' ident' ?_
      rw [lookup_forget, if_neg fun h => hplace ⟨h.1, h.2.2⟩]
      exact hl

end NameTable

namespace Naming

variable {α β : Type} {takes renews : String → String → Prop} {t t' : NameTable}

theorem leads_reserveAll {scope : String} {idents : List String} {u : Unit}
    (h : reserveAll scope .localVar idents t = .ok (u, t'))
    (htakes : ∀ ident ∈ idents, takes scope ident) : NameTable.Leads takes renews t t' := by
  induction idents generalizing t with
  | nil =>
    cases h
    exact .refl _
  | cons ident idents ih =>
    obtain ⟨_, t₁, h₁, h⟩ := bind_eq_ok.1 h
    cases h₁
    obtain ⟨hident, hidents⟩ := List.forall_mem_cons.1 htakes
    exact (NameTable.Leads.reserve hident).trans (ih h hidents)

theorem exists_mem_zip {f : α → Naming β} {xs : List α} {ys : List β} {y : β}
    (h : xs.mapM f t = .ok (ys, t')) (hy : y ∈ ys) : ∃ x, (x, y) ∈ xs.zip ys := by
  rw [← List.map_snd_zip (forall₂_mapM h).length_eq.ge] at hy
  obtain ⟨p, hp, rfl⟩ := List.mem_map.1 hy
  exact ⟨p.1, hp⟩

/-- Each result of a traversal comes about on the way, if its elements all lead onward. -/
theorem leads_mapM (takes renews : String → String → Prop) {f : α → Naming β} {xs : List α}
    {ys : List β} (h : xs.mapM f t = .ok (ys, t'))
    (hf : ∀ p ∈ xs.zip ys, ∀ s s', f p.1 s = .ok (p.2, s') → NameTable.Leads takes renews s s') :
    NameTable.Leads takes renews t t' ∧ ∀ p ∈ xs.zip ys, ∃ s s', NameTable.Leads takes renews t s ∧
      f p.1 s = .ok (p.2, s') ∧ NameTable.Leads takes renews s' t' := by
  induction xs generalizing t ys with
  | nil =>
    obtain ⟨rfl, rfl⟩ := pure_eq_ok.1 h
    exact ⟨.refl _, by simp⟩
  | cons x xs ih =>
    obtain ⟨y, ys', t₁, hy, hys, rfl⟩ := mapM_cons_eq_ok.1 h
    rw [List.zip_cons_cons] at hf ⊢
    obtain ⟨hx, hxs⟩ := List.forall_mem_cons.1 hf
    have hfirst := hx t t₁ hy
    obtain ⟨hrest, hbuilt⟩ := ih hys hxs
    refine ⟨hfirst.trans hrest, List.forall_mem_cons.2 ⟨⟨t, t₁, .refl _, hy, hrest⟩, fun p hp => ?_⟩⟩
    obtain ⟨s, s', hs, hp, hs'⟩ := hbuilt p hp
    exact ⟨s, s', hfirst.trans hs, hp, hs'⟩

end Naming

end FlightGen
