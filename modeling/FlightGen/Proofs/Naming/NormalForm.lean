import FlightGen.Proofs.Naming.Acceptance
import FlightGen.Proofs.Naming.Spelling

/-! Identifiers as normal forms. A text becomes its runs of identifier characters, joined by
underscores, with room in front of a digit or an underscore behind a reserved word. What
has this form already stays as it is. -/

namespace FlightGen.Identifier

open Token (not_isDigit_of_isWordStart)

/-! ### Runs -/

/-- The maximal runs of identifier characters of a text. -/
inductive Runs : List Char → List (List Char) → Prop
  | nil : Runs [] []
  | gap {c : Char} {cs : List Char} {runs : List (List Char)} (hc : isWordChar c = false)
      (h : Runs cs runs) : Runs (c :: cs) runs
  | run {run cs : List Char} {runs : List (List Char)} (hne : run ≠ [])
      (hrun : ∀ c ∈ run, isWordChar c = true) (hend : ∀ c ∈ cs.head?, isWordChar c = false)
      (h : Runs cs runs) : Runs (run ++ cs) (run :: runs)

theorem exists_runs (cs : List Char) : ∃ runs, Runs cs runs := by
  induction h : cs.length using Nat.strong_induction_on generalizing cs with
  | _ n ih =>
    subst h
    cases cs with
    | nil => exact ⟨[], .nil⟩
    | cons c cs =>
      cases hc : isWordChar c with
      | false =>
        obtain ⟨runs, hruns⟩ := ih cs.length (by simp) cs rfl
        exact ⟨runs, .gap hc hruns⟩
      | true =>
        have hlength : (cs.dropWhile isWordChar).length < (c :: cs).length :=
          Nat.lt_succ_of_le (List.length_dropWhile_le _ _)
        obtain ⟨runs, hruns⟩ := ih _ hlength _ rfl
        refine ⟨(c :: cs.takeWhile isWordChar) :: runs, ?_⟩
        have hsplit : c :: cs = (c :: cs.takeWhile isWordChar) ++ cs.dropWhile isWordChar := by
          simp
        rw [hsplit]
        refine .run (by simp) (List.forall_mem_cons.2 ⟨hc, fun x hx => ?_⟩) (fun x hx => ?_) hruns
        · exact List.mem_takeWhile_imp hx
        · have := List.head?_dropWhile_not isWordChar cs
          rw [hx] at this
          simpa using this

/-- The piece before a character that no identifier holds is empty. -/
theorem exists_pieces {cs : List Char} (h : ∀ c ∈ cs.head?, isWordChar c = false) :
    ∃ rest, pieces cs = [] :: rest := by
  cases cs with
  | nil => exact ⟨[], rfl⟩
  | cons c cs =>
    have hc : isWordChar c = false := h c rfl
    exact ⟨pieces cs, by simp [pieces, hc]⟩

theorem pieces_append {run cs piece : List Char} {rest : List (List Char)}
    (hrun : ∀ c ∈ run, isWordChar c = true) (h : pieces cs = piece :: rest) :
    pieces (run ++ cs) = (run ++ piece) :: rest := by
  induction run with
  | nil => exact h
  | cons c run ih =>
    obtain ⟨hc, hrun⟩ := List.forall_mem_cons.1 hrun
    rw [List.cons_append, pieces, if_pos hc, ih hrun]
    rfl

/-- Words are the maximal runs. -/
theorem Runs.words_eq {cs : List Char} {runs : List (List Char)} (h : Runs cs runs) :
    words cs = runs := by
  induction h with
  | nil => rfl
  | gap hc _ ih =>
    rw [words, pieces, if_neg (by simp [hc])]
    simpa [words] using ih
  | run hne hrun hend _ ih =>
    obtain ⟨rest, hrest⟩ := exists_pieces hend
    rw [words, pieces_append hrun hrest, List.append_nil]
    rw [words, hrest] at ih
    simpa [hne] using ih

theorem runs_words (cs : List Char) : Runs cs (words cs) := by
  obtain ⟨runs, h⟩ := exists_runs cs
  rwa [h.words_eq]

/-! ### Joining -/

def joined (runs : List (List Char)) : String :=
  "_".intercalate (runs.map String.ofList)

theorem toList_joined (runs : List (List Char)) : (joined runs).toList = ['_'].intercalate runs := by
  simp [joined, String.toList_intercalate]

/-! ### Normal forms -/

/-- An identifier with a letter or a digit stays as it is. -/
theorem render_of_isIdentifier {ident : String} (h : IsIdentifier ident) (hname : Nameable ident) :
    render? ident = some ident := by
  obtain ⟨c, cs, hcs, hc, -⟩ := isName_iff.1 h.1
  have hne : ident.toList ≠ [] := by simp [hcs]
  have hwords : words ident.toList = [ident.toList] := by
    have hruns := Runs.run hne (fun c hc => h.1.isWord c hc) (by simp) .nil
    rw [List.append_nil] at hruns
    exact hruns.words_eq
  have hguard : guardDigit ident.toList = ident.toList := by
    rw [hcs, guardDigit, not_isDigit_of_isWordStart hc]
    rfl
  have hany : ident.toList.any Char.isAlphanum = true := List.any_eq_true.2 hname
  simp [render?, hwords, hguard, hany, avoidReserved, h.2]

/-- What joined runs become: there is room in front of a digit, and an underscore behind a
reserved word. -/
inductive Completes (text : String) : String → Prop
  | digit {c : Char} (h : text.toList.head? = some c) (hc : c.isDigit = true) :
      Completes text ("id_" ++ text)
  | reserved (h : text ∈ reserved) : Completes text (text ++ "_")
  | plain (hdigit : ∀ c ∈ text.toList.head?, c.isDigit = false) (h : text ∉ reserved) :
      Completes text text

theorem completes_avoidReserved (text : String) :
    Completes text (avoidReserved (String.ofList (guardDigit text.toList))) := by
  cases htext : text.toList with
  | nil =>
    have hempty : text = "" := String.toList_inj.1 htext
    subst hempty
    exact .plain (by simp) (by decide)
  | cons c cs =>
    cases hc : c.isDigit with
    | true =>
      have hguard : String.ofList (guardDigit (c :: cs)) = "id_" ++ text := by
        rw [← String.toList_inj]
        simp [guardDigit, hc, htext]
      have hfree : "id_" ++ text ∉ reserved := fun h =>
        underscore_notMem_reserved _ h (by simp)
      rw [hguard, avoidReserved, if_neg hfree]
      exact .digit (by simp [htext]) hc
    | false =>
      have hguard : String.ofList (guardDigit (c :: cs)) = text := by
        simp [guardDigit, hc, ← htext]
      rw [hguard, avoidReserved]
      split
      · exact .reserved ‹_›
      · exact .plain (by simp [htext, hc]) ‹_›

theorem Completes.nameable {text ident : String} (h : Completes text ident)
    (hname : Nameable text) : Nameable ident := by
  obtain ⟨c, hc, hchar⟩ := hname
  cases h with
  | digit => exact ⟨c, by simp [hc], hchar⟩
  | reserved => exact ⟨c, by simp [hc], hchar⟩
  | plain => exact ⟨c, hc, hchar⟩

theorem exists_completes {raw ident : String} (h : render? raw = some ident) :
    ∃ runs, Runs raw.toList runs ∧ Nameable (joined runs) ∧ Completes (joined runs) ident := by
  simp only [render?, Option.ite_none_right_eq_some, Option.some.injEq, ← toList_joined] at h
  obtain ⟨hany, rfl⟩ := h
  exact ⟨_, runs_words _, List.any_eq_true.1 hany, completes_avoidReserved _⟩

/-- Texts without a letter or a digit have no identifier. The one of any other text is
spelled as one, stands for itself, and consists of the runs of the text. -/
theorem render_normalForm (raw : String) :
    (render? raw = none ↔ ∀ c ∈ raw.toList, c.isAlphanum = false) ∧
    ∀ ident, render? raw = some ident → IsIdentifier ident ∧ render? ident = some ident ∧
      ∃ runs, Runs raw.toList runs ∧ Completes (joined runs) ident := by
  constructor
  · rw [← Option.not_isSome_iff_eq_none, Option.isSome_iff_exists, exists_render?_iff]
    simp [Nameable]
  · intro ident h
    obtain ⟨runs, hruns, hname, hcompletes⟩ := exists_completes h
    have hident := isIdentifier_render h
    have hself := render_of_isIdentifier hident (hcompletes.nameable hname)
    exact ⟨hident, hself, runs, hruns, hcompletes⟩

theorem render_normalForm_axis :
    render? "3 axis-slew" = some "id_3_axis_slew" ∧ render? "id_3_axis_slew" = some "id_3_axis_slew" := by
  have h : render? "3 axis-slew" = some "id_3_axis_slew" := by decide +kernel
  exact ⟨h, ((render_normalForm "3 axis-slew").2 _ h).2.1⟩

end FlightGen.Identifier
