import Mathlib.Data.List.Basic
import FlightGen.Identifier

/-! The spelling of identifiers. They start with a letter or an underscore, go on with letters,
digits and underscores, and are no reserved words. What is made of a text is spelled so. -/

namespace FlightGen

/-! ### Words -/

namespace Identifier

/-- A text of letters, digits and underscores. -/
def IsWord (s : String) : Prop := ∀ c ∈ s.toList, isWordChar c = true

theorem isWordChar_of_isDigit {c : Char} (h : c.isDigit = true) : isWordChar c = true := by
  simp [isWordChar, Char.isAlphanum, h]

theorem isWordChar_of_isWordStart {c : Char} (h : isWordStart c = true) : isWordChar c = true := by
  simp only [isWordStart, Bool.or_eq_true] at h
  obtain h | h := h <;> simp [isWordChar, Char.isAlphanum, h]

theorem isWordStart_of_isWordChar {c : Char} (h : isWordChar c = true) (hd : c.isDigit = false) :
    isWordStart c = true := by
  simpa [isWordChar, isWordStart, Char.isAlphanum, hd] using h

theorem IsWord.append {s t : String} (hs : IsWord s) (ht : IsWord t) : IsWord (s ++ t) := by
  intro c hc
  rw [String.toList_append] at hc
  exact (List.mem_append.1 hc).elim (hs c) (ht c)

theorem isWord_underscore : IsWord "_" := by
  intro c hc
  have hc : c = '_' := by simpa using hc
  rw [hc]
  rfl

theorem isWord_toString (n : Nat) : IsWord (toString n) := by
  intro c hc
  have hc : c ∈ Nat.toDigits 10 n := by simpa [toString, Nat.repr] using hc
  exact isWordChar_of_isDigit (Nat.isDigit_of_mem_toDigits (by decide) (by decide) hc)

theorem isWordChar_of_mem_pieces {cs piece : List Char} (h : piece ∈ pieces cs) :
    ∀ c ∈ piece, isWordChar c = true := by
  induction cs generalizing piece with
  | nil => simp [pieces] at h; simp [h]
  | cons c cs ih =>
    rw [pieces] at h
    split at h
    · rename_i hc
      split at h
      · rename_i hnil
        simp only [List.mem_singleton] at h
        subst h
        simpa using hc
      · rename_i first rest hrest
        obtain rfl | h := List.mem_cons.1 h
        · exact List.forall_mem_cons.2 ⟨hc, ih (hrest ▸ List.mem_cons_self)⟩
        · exact ih (hrest ▸ List.mem_cons_of_mem _ h)
    · obtain rfl | h := List.mem_cons.1 h
      · simp
      · exact ih h

theorem isWordChar_of_mem_intercalate {pieces : List (List Char)}
    (h : ∀ piece ∈ pieces, ∀ c ∈ piece, isWordChar c = true) :
    ∀ c ∈ ['_'].intercalate pieces, isWordChar c = true := by
  induction pieces with
  | nil => simp [List.intercalate]
  | cons piece rest ih =>
    obtain ⟨hpiece, hrest⟩ := List.forall_mem_cons.1 h
    cases rest with
    | nil => simpa [List.intercalate] using hpiece
    | cons next rest =>
      have hsplit : ['_'].intercalate (piece :: next :: rest) =
          piece ++ '_' :: ['_'].intercalate (next :: rest) := by
        simp [List.intercalate]
      intro c hc
      rw [hsplit, List.mem_append, List.mem_cons] at hc
      obtain hc | rfl | hc := hc
      · exact hpiece c hc
      · rfl
      · exact ih hrest c hc

end Identifier

open Identifier

/-! ### Names -/

/-- The names of variables that a text can hold. -/
def IsName (name : String) : Prop :=
  match name.toList with
  | [] => False
  | c :: cs => isWordStart c = true ∧ ∀ x ∈ cs, isWordChar x = true

instance : DecidablePred IsName := fun name =>
  match h : name.toList with
  | [] => .isFalse (by simp [IsName, h])
  | c :: cs => decidable_of_iff (isWordStart c = true ∧ cs.all isWordChar = true)
      (by simp [IsName, h])

theorem isName_iff {s : String} : IsName s ↔ ∃ c cs, s.toList = c :: cs ∧ isWordStart c = true ∧
    ∀ x ∈ cs, isWordChar x = true := by
  unfold IsName
  cases s.toList <;> simp

theorem IsName.isWord {s : String} (h : IsName s) : IsWord s := by
  obtain ⟨c, cs, hs, hc, hcs⟩ := isName_iff.1 h
  rw [IsWord, hs]
  exact List.forall_mem_cons.2 ⟨isWordChar_of_isWordStart hc, hcs⟩

theorem IsName.notMem {s : String} (h : IsName s) {c : Char}
    (hc : isWordChar c = false) : c ∉ s.toList := by
  intro hmem
  have hword := h.isWord c hmem
  rw [hc] at hword
  cases hword

theorem IsName.append {s t : String} (hs : IsName s) (ht : IsWord t) : IsName (s ++ t) := by
  obtain ⟨c, cs, h, hc, hcs⟩ := isName_iff.1 hs
  refine isName_iff.2 ⟨c, cs ++ t.toList, by simp [h], hc, fun x hx => ?_⟩
  obtain hx | hx := List.mem_append.1 hx
  · exact hcs x hx
  · exact ht x hx

/-! ### Identifiers -/

/-- A text that can name something in the emitted code. -/
def IsIdentifier (s : String) : Prop := IsName s ∧ s ∉ reserved

instance : DecidablePred IsIdentifier := fun s =>
  inferInstanceAs (Decidable (IsName s ∧ s ∉ reserved))

theorem underscore_notMem_reserved : ∀ word ∈ reserved, '_' ∉ word.toList := by
  decide +kernel

theorem IsName.isIdentifier {s : String} (h : IsName s) (hmem : '_' ∈ s.toList) : IsIdentifier s :=
  ⟨h, fun hs => underscore_notMem_reserved s hs hmem⟩

theorem isName_guardDigit {cs : List Char} (hne : cs ≠ []) (h : ∀ c ∈ cs, isWordChar c = true) :
    IsName (String.ofList (guardDigit cs)) := by
  cases cs with
  | nil => contradiction
  | cons c cs =>
    rw [guardDigit]
    split
    · refine isName_iff.2 ⟨'i', 'd' :: '_' :: c :: cs, by simp, by decide, ?_⟩
      simp only [List.forall_mem_cons] at h ⊢
      exact ⟨by decide, by decide, h⟩
    · rename_i hdigit
      obtain ⟨hc, hcs⟩ := List.forall_mem_cons.1 h
      exact isName_iff.2 ⟨c, cs, by simp, isWordStart_of_isWordChar hc (by simpa using hdigit), hcs⟩

theorem isIdentifier_avoidReserved {s : String} (h : IsName s) :
    IsIdentifier (avoidReserved s) := by
  unfold avoidReserved
  split
  · exact (h.append isWord_underscore).isIdentifier (by simp)
  · rename_i hs
    exact ⟨h, hs⟩

/-- What is made of a text is an identifier. -/
theorem isIdentifier_render {raw ident : String} (h : render? raw = some ident) :
    IsIdentifier ident := by
  simp only [render?, Option.ite_none_right_eq_some, Option.some.injEq] at h
  obtain ⟨hany, rfl⟩ := h
  refine isIdentifier_avoidReserved (isName_guardDigit ?_ ?_)
  · rintro hnil
    simp [hnil] at hany
  · exact isWordChar_of_mem_intercalate fun piece hp =>
      isWordChar_of_mem_pieces (List.mem_of_mem_filter hp)

end FlightGen
