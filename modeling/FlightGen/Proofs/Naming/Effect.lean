import FlightGen.Proofs.Fallible
import FlightGen.Proofs.Naming.Trail

/-! Naming as an effect. Whatever a computation names, it leaves a trail of changes in the
table, and identifiers drawn afresh are new each time. -/

namespace FlightGen.Naming

variable {α β : Type}

theorem bind_eq_ok {x : Naming α} {f : α → Naming β} {t t'' : NameTable} {b : β} :
    (x >>= f) t = .ok (b, t'') ↔ ∃ a t', x t = .ok (a, t') ∧ f a t' = .ok (b, t'') := by
  show (x t >>= fun p => f p.1 p.2) = _ ↔ _
  rw [FlightGen.bind_eq_ok, Prod.exists]

theorem pure_eq_ok {a b : α} {t t' : NameTable} :
    (pure a : Naming α) t = .ok (b, t') ↔ a = b ∧ t = t' := by
  show (Except.ok (a, t) : Except ModelError (α × NameTable)) = .ok (b, t') ↔ _
  rw [Except.ok.injEq, Prod.mk.injEq]

theorem lift_eq_ok {x : Except ModelError α} {a : α} {t t' : NameTable} :
    (liftM x : Naming α) t = .ok (a, t') ↔ x = .ok a ∧ t = t' := by
  cases x <;> simp [liftM, monadLift, MonadLift.monadLift, StateT.lift, bind, Except.bind, pure,
    Except.pure]

theorem mapM_cons_eq_ok {f : α → Naming β} {x : α} {xs : List α} {ys : List β}
    {t t'' : NameTable} :
    (x :: xs).mapM f t = .ok (ys, t'') ↔ ∃ y ys' t', f x t = .ok (y, t') ∧
      xs.mapM f t' = .ok (ys', t'') ∧ ys = y :: ys' := by
  rw [List.mapM_cons, bind_eq_ok]
  constructor
  · rintro ⟨y, t', hy, h⟩
    obtain ⟨ys', t₁, hys, h⟩ := bind_eq_ok.1 h
    obtain ⟨rfl, rfl⟩ := pure_eq_ok.1 h
    exact ⟨y, ys', t', hy, hys, rfl⟩
  · rintro ⟨y, ys', t', hy, hys, rfl⟩
    exact ⟨y, t', hy, bind_eq_ok.2 ⟨ys', t'', hys, rfl⟩⟩

theorem forall₂_mapM {f : α → Naming β} {xs : List α} {ys : List β} {t t' : NameTable}
    (h : xs.mapM f t = .ok (ys, t')) :
    List.Forall₂ (fun x y => ∃ s s', f x s = .ok (y, s')) xs ys := by
  induction xs generalizing ys t with
  | nil =>
    obtain ⟨rfl, -⟩ := pure_eq_ok.1 h
    exact .nil
  | cons x xs ih =>
    obtain ⟨y, ys', t₁, hy, hys, rfl⟩ := mapM_cons_eq_ok.1 h
    exact .cons ⟨t, t₁, hy⟩ (ih hys)

/-! ### Trails -/

/-- A computation that names in scopes and kinds which `P` admits. -/
def Within (P : String → NameKind → Prop) (x : Naming α) : Prop :=
  ∀ t a t', x t = .ok (a, t') → t.Trail P t'

namespace Within

variable {P : String → NameKind → Prop}

theorem pure (a : α) : Within P (pure a) := by
  intro t b t' h
  obtain ⟨-, rfl⟩ := pure_eq_ok.1 h
  exact .refl

theorem lift (x : Except ModelError α) : Within P (liftM x) := by
  intro t b t' h
  obtain ⟨-, rfl⟩ := lift_eq_ok.1 h
  exact .refl

theorem bind {x : Naming α} {f : α → Naming β} (hx : Within P x) (hf : ∀ a, Within P (f a)) :
    Within P (x >>= f) := by
  intro t b t'' h
  obtain ⟨a, t', ha, hb⟩ := bind_eq_ok.1 h
  exact (hx t a t' ha).trans (hf a t' b t'' hb)

theorem mapM {f : α → Naming β} (hf : ∀ a, Within P (f a)) (xs : List α) :
    Within P (xs.mapM f) := by
  induction xs with
  | nil => exact pure []
  | cons x xs ih =>
    rw [List.mapM_cons]
    exact (hf x).bind fun y => ih.bind fun ys => pure _

theorem fail_bind (e : ModelError) (f : α → Naming β) : Within P (fail e >>= f) := by
  intro t b t' h
  obtain ⟨_, _, hfail, -⟩ := bind_eq_ok.1 h
  cases hfail

variable {scope : String} {kind : NameKind}

theorem assign (raw : String) (h : P scope kind) : Within P (assign scope kind raw) :=
  fun _ _ _ ht => .single (.assign h ht)

theorem assignFresh (raw : String) (h : P scope .localVar) :
    Within P (assignFresh scope .localVar raw) :=
  fun _ _ _ ht => .single (.assignFresh h ht)

theorem reserveAll (idents : List String) (h : P scope kind) :
    Within P (reserveAll scope kind idents) := by
  induction idents with
  | nil => exact pure ()
  | cons ident idents ih =>
    refine bind (fun t a t' ht => ?_) fun _ => ih
    cases ht
    exact .single (.reserve ident h)

end Within

theorem mem_taken_reserveAll {scope : String} {kind : NameKind} {idents : List String}
    {t t' : NameTable} {u : Unit} (h : reserveAll scope kind idents t = .ok (u, t')) :
    ∀ ident ∈ idents, kind.key ident ∈ (t'.names scope kind).taken := by
  induction idents generalizing t with
  | nil => simp
  | cons ident idents ih =>
    obtain ⟨_, t₁, h₁, h⟩ := bind_eq_ok.1 h
    cases h₁
    refine List.forall_mem_cons.2 ⟨?_, ih h⟩
    have hgrows := (Within.reserveAll (P := fun _ _ => True) idents trivial _ _ _ h).grows
    exact hgrows.taken scope kind (t.mem_taken_reserve scope kind ident)

theorem lookup_of_reserveAll {scope scope' raw ident : String} {kind kind' : NameKind}
    {idents : List String} {t t' : NameTable} {u : Unit}
    (h : reserveAll scope kind idents t = .ok (u, t'))
    (hl : t'.lookup scope' kind' raw = some ident) : t.lookup scope' kind' raw = some ident := by
  induction idents generalizing t with
  | nil =>
    cases h
    exact hl
  | cons ident idents ih =>
    obtain ⟨_, t₁, h₁, h⟩ := bind_eq_ok.1 h
    cases h₁
    exact NameTable.lookup_of_reserve (ih h)

/-- What is reserved in an untouched scope goes to no text. -/
theorem reserves_reserveAll {scope : String} {kind : NameKind} {idents : List String}
    {t t' : NameTable} {u : Unit} (hempty : t.names scope kind = {})
    (h : reserveAll scope kind idents t = .ok (u, t')) :
    t'.Reserves scope kind (idents.map kind.key) := by
  constructor
  · intro key hkey
    obtain ⟨ident, hident, rfl⟩ := List.mem_map.1 hkey
    exact mem_taken_reserveAll h ident hident
  · intro raw ident hl
    simpa [NameTable.lookup, hempty] using lookup_of_reserveAll h hl

/-- Each result of a traversal comes about between two tables on the way. -/
theorem forall₂_of_mapM {f : α → Naming β} {A : String → NameKind → Prop}
    (hwithin : ∀ x, (f x).Within A) {xs : List α} {ys : List β} {t t' : NameTable}
    (h : xs.mapM f t = .ok (ys, t')) :
    List.Forall₂ (fun x y => ∃ s s', t.Reaches s ∧ f x s = .ok (y, s') ∧ s'.Reaches t') xs ys := by
  induction xs generalizing ys t with
  | nil =>
    obtain ⟨rfl, -⟩ := pure_eq_ok.1 h
    exact .nil
  | cons x xs ih =>
    obtain ⟨y, ys', t₁, hy, hys, rfl⟩ := mapM_cons_eq_ok.1 h
    refine .cons ⟨t, t₁, .refl, hy, (Within.mapM hwithin xs _ _ _ hys).reaches⟩ ((ih hys).imp ?_)
    rintro x' y' ⟨s, s', hs, hy', hs'⟩
    exact ⟨s, s', (hwithin x _ _ _ hy).reaches.trans hs, hy', hs'⟩

/-! ### Fresh identifiers -/

/-- The identifiers in a result are distinct, were free in a scope of local variables,
and are taken afterwards. -/
def Fresh (scope : String) (idents : α → List String) (x : Naming α) : Prop :=
  ∀ t a t', x t = .ok (a, t') → t.Grows t' ∧ (idents a).Nodup ∧
    ∀ ident ∈ idents a, ident ∉ (t.names scope .localVar).taken ∧
      ident ∈ (t'.names scope .localVar).taken

theorem fresh_assignFresh (scope raw : String) :
    Fresh scope (fun ident => [ident]) (assignFresh scope .localVar raw) := by
  intro t a t' h
  obtain ⟨hgrows, hfree, htaken⟩ := NameTable.assignFresh_eq_ok h
  exact ⟨hgrows, List.nodup_singleton a, by simpa using ⟨hfree, htaken⟩⟩

theorem Fresh.mapM {scope : String} {idents : β → List String} {f : α → Naming β}
    (hf : ∀ x, Fresh scope idents (f x)) (xs : List α) :
    Fresh scope (List.flatMap idents) (xs.mapM f) := by
  induction xs with
  | nil =>
    intro t ys t' h
    obtain ⟨rfl, rfl⟩ := pure_eq_ok.1 h
    exact ⟨.refl t, by simp, by simp⟩
  | cons x xs ih =>
    intro t ys t' h
    obtain ⟨y, ys', t₁, hy, hys, rfl⟩ := mapM_cons_eq_ok.1 h
    obtain ⟨hgrow₁, hnodup₁, hfree₁⟩ := hf x t y t₁ hy
    obtain ⟨hgrow₂, hnodup₂, hfree₂⟩ := ih t₁ ys' t' hys
    refine ⟨hgrow₁.trans hgrow₂, ?_, ?_⟩
    · rw [List.flatMap_cons]
      refine hnodup₁.append hnodup₂ fun ident h₁ h₂ => ?_
      exact (hfree₂ ident h₂).1 (hfree₁ ident h₁).2
    · intro ident hmem
      rw [List.flatMap_cons, List.mem_append] at hmem
      obtain hmem | hmem := hmem
      · exact ⟨(hfree₁ ident hmem).1, hgrow₂.taken _ _ (hfree₁ ident hmem).2⟩
      · exact ⟨fun h => (hfree₂ ident hmem).1 (hgrow₁.taken _ _ h), (hfree₂ ident hmem).2⟩

/-! ### Failure -/

/-- Whatever the table, the errors are all of one kind. -/
def FailsOnly (P : ModelError → Prop) (x : Naming α) : Prop := ∀ t, FlightGen.FailsOnly P (x t)

namespace FailsOnly

variable {P : ModelError → Prop}

theorem pure (a : α) : FailsOnly P (pure a) := fun t => .ok (a, t)

theorem bind {x : Naming α} {f : α → Naming β} (hx : FailsOnly P x) (hf : ∀ a, FailsOnly P (f a)) :
    FailsOnly P (x >>= f) :=
  fun t => (hx t).bind fun p _ => hf p.1 p.2

theorem mapM {f : α → Naming β} (hf : ∀ x, FailsOnly P (f x)) (xs : List α) :
    FailsOnly P (xs.mapM f) := by
  induction xs with
  | nil => exact pure []
  | cons x xs ih =>
    rw [List.mapM_cons]
    exact (hf x).bind fun y => ih.bind fun ys => pure _

theorem assignFresh {scope raw : String} {kind : NameKind}
    (h : ∀ path text, P (.invalidIdentifier path text)) :
    FailsOnly P (assignFresh scope kind raw) := by
  intro t e he
  rw [NameTable.assign_error he]
  exact h _ _

theorem reserveAll (scope : String) (kind : NameKind) (idents : List String) :
    FailsOnly P (reserveAll scope kind idents) := by
  induction idents with
  | nil => exact pure ()
  | cons ident idents ih => exact bind (fun t => .ok _) fun _ => ih

end FailsOnly

end FlightGen.Naming
