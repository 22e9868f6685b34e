import FlightGen.Proofs.Expr.Lexeme
import FlightGen.Proofs.Naming.Trail

/-! The spelling of given names. What tables give out are identifiers: suffixes keep the spelling,
and so does upper case. -/

namespace FlightGen

open Identifier (isWordStart isWordChar isWord_underscore isWord_toString reserved)

/-! ### Tables -/

theorem Names.Extends.isIdentifier {base ident : String} (h : Extends base ident)
    (hbase : IsIdentifier base) : IsIdentifier ident := by
  cases h with
  | self => exact hbase
  | suffixed k =>
    have hname := (hbase.1.append isWord_underscore).append (isWord_toString k)
    exact hname.isIdentifier (by simp)

/-- Tables give out identifiers. -/
theorem NameTable.Rendered.isIdentifier {t : NameTable} (ht : t.Rendered) {scope raw ident : String}
    {kind : NameKind} (h : t.lookup scope kind raw = some ident) : IsIdentifier ident := by
  obtain ⟨base, hbase, hextends⟩ := ht scope kind raw ident h
  exact hextends.isIdentifier (isIdentifier_render hbase)

/-! ### Upper case -/

theorem toUpper_toUpper (s : String) : s.toUpper.toUpper = s.toUpper := by
  simp [String.toUpper, Function.comp_def]

theorem isWordChar_toUpper {c : Char} (h : isWordChar c = true) : isWordChar c.toUpper = true := by
  by_cases hdigit : c.isDigit = true
  · rw [toUpper_of_isDigit hdigit]
    exact h
  · simp only [isWordChar, Char.isAlphanum, hdigit, Bool.or_false, Bool.or_eq_true, beq_iff_eq] at h
    obtain h | rfl := h
    · simp [isWordChar, Char.isAlphanum, h]
    · decide

theorem isWordStart_toUpper {c : Char} (h : isWordStart c = true) : isWordStart c.toUpper = true := by
  simp only [isWordStart, Bool.or_eq_true, beq_iff_eq] at h
  obtain h | rfl := h
  · simp [isWordStart, h]
  · decide

theorem IsName.toUpper {s : String} (h : IsName s) : IsName s.toUpper := by
  obtain ⟨c, cs, hs, hc, hcs⟩ := isName_iff.1 h
  refine isName_iff.2 ⟨c.toUpper, cs.map Char.toUpper, by simp [String.toUpper, hs],
    isWordStart_toUpper hc, ?_⟩
  exact List.forall_mem_map.2 fun x hx => isWordChar_toUpper (hcs x hx)

theorem toUpper_ne_of_reserved : ∀ word ∈ reserved, word.toUpper ≠ word := by
  decide +kernel

/-- Reserved words are not in upper case. -/
theorem IsIdentifier.toUpper {s : String} (h : IsIdentifier s) : IsIdentifier s.toUpper :=
  ⟨h.1.toUpper, fun hs => toUpper_ne_of_reserved _ hs (toUpper_toUpper s)⟩

end FlightGen
