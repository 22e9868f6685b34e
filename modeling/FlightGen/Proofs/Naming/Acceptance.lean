import FlightGen.Proofs.Naming.Effect

/-! When naming succeeds. A text has an identifier exactly if it holds a letter or a digit, no
matter what has been named before; so the success of a computation that names can be told by a
condition without any table. -/

namespace FlightGen

/-! ### Texts -/

/-- A text from which an identifier can be built. -/
def Nameable (text : String) : Prop := ∃ c ∈ text.toList, c.isAlphanum = true

instance (text : String) : Decidable (Nameable text) :=
  inferInstanceAs (Decidable (∃ c ∈ text.toList, c.isAlphanum = true))

namespace Identifier

theorem exists_mem_pieces {cs : List Char} {c : Char} :
    (∃ piece ∈ pieces cs, c ∈ piece) ↔ c ∈ cs ∧ isWordChar c = true := by
  induction cs with
  | nil => simp [pieces]
  | cons x cs ih =>
    by_cases hx : isWordChar x = true
    · have hfirst : (∃ piece ∈ pieces (x :: cs), c ∈ piece) ↔
          c = x ∨ ∃ piece ∈ pieces cs, c ∈ piece := by
        rw [pieces, if_pos hx]
        cases pieces cs <;> simp [or_assoc]
      rw [hfirst, ih, List.mem_cons, or_and_right]
      refine or_congr_left ⟨?_, And.left⟩
      rintro rfl
      exact ⟨rfl, hx⟩
    · rw [pieces, if_neg hx, List.exists_mem_cons_iff, ih, List.mem_cons, or_and_right]
      simp only [List.not_mem_nil, false_or, iff_or_self, and_imp]
      rintro rfl hword
      exact absurd hword hx

theorem exists_mem_words {cs : List Char} {c : Char} :
    (∃ word ∈ words cs, c ∈ word) ↔ c ∈ cs ∧ isWordChar c = true := by
  rw [← exists_mem_pieces]
  constructor
  · rintro ⟨word, hword, hc⟩
    exact ⟨word, List.mem_of_mem_filter hword, hc⟩
  · rintro ⟨piece, hpiece, hc⟩
    refine ⟨piece, List.mem_filter.2 ⟨hpiece, ?_⟩, hc⟩
    simpa using List.ne_nil_of_mem hc

/-- Joining words adds underscores only. -/
theorem mem_intercalate {words : List (List Char)} {c : Char} (hc : c ≠ '_') :
    c ∈ ['_'].intercalate words ↔ ∃ word ∈ words, c ∈ word := by
  induction words with
  | nil => simp [List.intercalate]
  | cons word rest ih =>
    cases rest with
    | nil => simp [List.intercalate]
    | cons next rest =>
      have hsplit : ['_'].intercalate (word :: next :: rest) =
          word ++ '_' :: ['_'].intercalate (next :: rest) := by
        simp [List.intercalate]
      rw [hsplit, List.mem_append, List.mem_cons, List.exists_mem_cons_iff, ih]
      simp [hc]

theorem exists_render?_iff {raw : String} : (∃ ident, render? raw = some ident) ↔ Nameable raw := by
  have hne : ∀ c : Char, c.isAlphanum = true → c ≠ '_' := by
    rintro c hc rfl
    cases hc
  have hjoined : (['_'].intercalate (words raw.toList)).any Char.isAlphanum = true ↔
      Nameable raw := by
    rw [List.any_eq_true]
    refine exists_congr fun c => and_congr_left fun hc => ?_
    rw [mem_intercalate (hne c hc), exists_mem_words]
    simp [isWordChar, hc]
  rw [← hjoined, render?]
  simp

end Identifier

namespace NameTable

variable {t : NameTable} {scope raw : String} {kind : NameKind}

theorem exists_assign_iff (ht : t.Rendered) :
    (∃ ident t', t.assign scope kind raw = .ok (ident, t')) ↔ Nameable raw := by
  rw [← Identifier.exists_render?_iff]
  unfold assign
  cases hlookup : t.lookup scope kind raw with
  | some ident =>
    obtain ⟨base, hbase, -⟩ := ht scope kind raw ident hlookup
    exact ⟨fun _ => ⟨base, hbase⟩, fun _ => ⟨ident, t, rfl⟩⟩
  | none => cases Identifier.render? raw <;> simp

theorem Rendered.forget (ht : t.Rendered) :
    (t.put scope kind ((t.names scope kind).forget raw)).Rendered :=
  fun scope' kind' raw' ident' h => ht scope' kind' raw' ident' (lookup_of_forget h)

end NameTable

/-! ### Computations -/

namespace Naming

variable {α β : Type}

/-- Whatever has been named before, a computation succeeds exactly if a condition holds. -/
structure Accepts (P : Prop) (x : Naming α) : Prop where
  succeeds : ∀ t, t.Rendered → ((∃ a t', x t = .ok (a, t')) ↔ P)
  rendered : ∀ t a t', t.Rendered → x t = .ok (a, t') → t'.Rendered

namespace Accepts

variable {P Q : Prop}

theorem congr {x : Naming α} (h : Accepts P x) (hPQ : P ↔ Q) : Accepts Q x :=
  propext hPQ ▸ h

theorem pure (a : α) : Accepts True (pure a) := by
  refine ⟨fun t _ => ⟨fun _ => trivial, fun _ => ⟨a, t, rfl⟩⟩, fun t b t' ht h => ?_⟩
  obtain ⟨-, rfl⟩ := pure_eq_ok.1 h
  exact ht

theorem lift {x : Except ModelError α} (h : (∃ a, x = .ok a) ↔ P) : Accepts P (liftM x) := by
  refine ⟨fun t _ => ?_, fun t b t' ht hx => ?_⟩
  · simp [lift_eq_ok, ← h]
  · obtain ⟨-, rfl⟩ := lift_eq_ok.1 hx
    exact ht

/-- The second part may count on the condition of the first, and on its result. -/
theorem bind {x : Naming α} {f : α → Naming β} (hx : Accepts P x)
    (hf : ∀ t a t', P → x t = .ok (a, t') → Accepts Q (f a)) : Accepts (P ∧ Q) (x >>= f) := by
  refine ⟨fun t ht => ⟨?_, ?_⟩, fun t b t'' ht h => ?_⟩
  · rintro ⟨b, t'', h⟩
    obtain ⟨a, t', ha, hb⟩ := bind_eq_ok.1 h
    have hP := (hx.succeeds t ht).1 ⟨a, t', ha⟩
    have hrest := hf t a t' hP ha
    exact ⟨hP, (hrest.succeeds t' (hx.rendered t a t' ht ha)).1 ⟨b, t'', hb⟩⟩
  · rintro ⟨hP, hQ⟩
    obtain ⟨a, t', ha⟩ := (hx.succeeds t ht).2 hP
    have hrest := hf t a t' hP ha
    obtain ⟨b, t'', hb⟩ := (hrest.succeeds t' (hx.rendered t a t' ht ha)).2 hQ
    exact ⟨b, t'', bind_eq_ok.2 ⟨a, t', ha, hb⟩⟩
  · obtain ⟨a, t', ha, hb⟩ := bind_eq_ok.1 h
    have hrest := hf t a t' ((hx.succeeds t ht).1 ⟨a, t', ha⟩) ha
    exact hrest.rendered t' b t'' (hx.rendered t a t' ht ha) hb

theorem bind_of_true {x : Naming α} {f : α → Naming β} (hx : Accepts True x)
    (hf : ∀ t a t', x t = .ok (a, t') → Accepts Q (f a)) : Accepts Q (x >>= f) :=
  (hx.bind fun t a t' _ => hf t a t').congr (and_iff_right trivial)

theorem bind_pure {x : Naming α} (hx : Accepts P x) (f : α → β) :
    Accepts P (x >>= fun a => Pure.pure (f a)) :=
  (hx.bind fun _ a _ _ _ => pure (f a)).congr (and_iff_left trivial)

theorem mapM {f : α → Naming β} {P : α → Prop} {xs : List α} (h : ∀ x ∈ xs, Accepts (P x) (f x)) :
    Accepts (∀ x ∈ xs, P x) (xs.mapM f) := by
  induction xs with
  | nil => exact (pure []).congr (by simp)
  | cons x xs ih =>
    obtain ⟨hx, hxs⟩ := List.forall_mem_cons.1 h
    rw [List.mapM_cons]
    refine (hx.bind fun _ y _ _ _ => (ih hxs).bind_pure (y :: ·)).congr ?_
    exact List.forall_mem_cons.symm

theorem fail_bind (e : ModelError) (f : α → Naming β) : Accepts False (fail e >>= f) := by
  have hnone : ∀ t b t', (fail e >>= f) t ≠ .ok (b, t') := by
    intro t b t' h
    obtain ⟨_, _, hfail, -⟩ := bind_eq_ok.1 h
    cases hfail
  refine ⟨fun t _ => iff_false_intro ?_, fun t b t' _ h => absurd h (hnone t b t')⟩
  rintro ⟨b, t', h⟩
  exact hnone t b t' h

theorem assign (scope : String) (kind : NameKind) (raw : String) :
    Accepts (Nameable raw) (assign scope kind raw) where
  succeeds _ ht := NameTable.exists_assign_iff ht
  rendered t a t' ht h :=
    (Within.assign (P := fun _ _ => True) raw trivial t a t' h).rendered ht

theorem assignFresh (scope raw : String) :
    Accepts (Nameable raw) (assignFresh scope .localVar raw) where
  succeeds _ ht := NameTable.exists_assign_iff ht.forget
  rendered t a t' ht h :=
    (Within.assignFresh (P := fun _ _ => True) raw trivial t a t' h).rendered ht

theorem reserve (scope : String) (kind : NameKind) (ident : String) :
    Accepts True (reserve scope kind ident) := by
  refine ⟨fun t _ => iff_true_intro ⟨(), _, rfl⟩, fun t a t' ht h => ?_⟩
  cases h
  exact fun scope' kind' raw' ident' hl => ht _ _ _ _ (NameTable.lookup_of_reserve hl)

theorem reserveAll (scope : String) (kind : NameKind) (idents : List String) :
    Accepts True (reserveAll scope kind idents) := by
  induction idents with
  | nil => exact pure ()
  | cons ident idents ih =>
    exact (reserve scope kind ident).bind_of_true fun _ _ _ _ => ih

end Accepts

end Naming

end FlightGen
