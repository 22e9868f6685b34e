import Mathlib.Data.List.DropRight
import Mathlib.Data.String.Basic
import FlightGen.Proofs.Decimal
import FlightGen.Proofs.Expr.Grammar
import FlightGen.Proofs.Identifier

/-! Lexemes. Text whose scanning cannot run on into what follows it composes: numbers, names,
and what operators and parentheses make of such texts. -/

namespace FlightGen

open Identifier (isWordStart isWordChar isWordChar_of_isDigit isWordChar_of_isWordStart)

/-- A number proper whose sign bit is clear. -/
def IsUnsigned (x : Float) : Prop :=
  match Binary64.form x with
  | .nan => False
  | .infinite negative => negative = false
  | .finite negative _ => negative = false

instance : DecidablePred IsUnsigned := fun x =>
  match h : Binary64.form x with
  | .nan => .isFalse (by simp [IsUnsigned, h])
  | .infinite negative => decidable_of_iff (negative = false) (by simp [IsUnsigned, h])
  | .finite negative _ => decidable_of_iff (negative = false) (by simp [IsUnsigned, h])

namespace Token

/-! ### Scanning without offsets -/

/-- The tokens of a text, wherever it stands. -/
def Yields (cs : List Char) (ts : List Token) : Prop :=
  ∀ offset, ∃ located, scanFrom offset 0 cs = .ok located ∧ located.map (·.token) = ts

theorem yields_nil : Yields [] [] := fun _ => ⟨[], rfl, rfl⟩

theorem tokenizes_of_yields {source : String} {ts : List Token} (h : Yields source.toList ts) :
    Tokenizes source ts :=
  h 0

theorem scanFrom_skip (offset : Nat) (run rest : List Char) :
    scanFrom offset run.length (run ++ rest) = scanFrom (offset + String.utf8Len run) 0 rest := by
  induction run generalizing offset with
  | nil => rfl
  | cons c run ih =>
    rw [List.length_cons, List.cons_append, scanFrom, ih, String.utf8Len_cons]
    congr 1
    omega

theorem yields_cons {c : Char} {run rest : List Char} {ts : List Token} (t : Option Token)
    (hfirst : first c (run ++ rest) = .ok (t, run.length)) (hrest : Yields rest ts) :
    Yields (c :: (run ++ rest)) (t.toList ++ ts) := by
  intro offset
  obtain ⟨located, hlocated, rfl⟩ := hrest (offset + c.utf8Size + String.utf8Len run)
  rw [scanFrom, hfirst]
  simp only [scanFrom_skip, hlocated]
  cases t with
  | none => exact ⟨located, rfl, rfl⟩
  | some token => exact ⟨⟨offset, token⟩ :: located, rfl, rfl⟩

/-! ### Lexemes -/

/-- Text before which names and numbers end. -/
def Breaks (rest : List Char) : Prop := ∀ c ∈ rest.head?, c = ' ' ∨ c = ')'

/-- Text that yields these tokens before any break, and does not extend an operator before it. -/
structure Lexes (cs : List Char) (ts : List Token) : Prop where
  head : ∃ c, cs.head? = some c ∧ c ≠ '='
  yields : ∀ rest us, Breaks rest → Yields rest us → Yields (cs ++ rest) (ts ++ us)

theorem Lexes.yields_all {cs : List Char} {ts : List Token} (h : Lexes cs ts) : Yields cs ts := by
  simpa using h.yields [] [] (by simp [Breaks]) yields_nil

theorem toNat_of_isWordChar {c : Char} (h : isWordChar c = true) :
    (48 ≤ c.toNat ∧ c.toNat ≤ 57) ∨ (65 ≤ c.toNat ∧ c.toNat ≤ 90) ∨ c.toNat = 95 ∨
      (97 ≤ c.toNat ∧ c.toNat ≤ 122) := by
  simp only [isWordChar, Char.isAlphanum, Char.isAlpha, Char.isUpper, Char.isLower, Char.isDigit,
    Bool.or_eq_true, Bool.and_eq_true, decide_eq_true_eq, beq_iff_eq, ge_iff_le,
    UInt32.le_iff_toNat_le] at h
  obtain ((⟨hlow, hhigh⟩ | ⟨hlow, hhigh⟩) | ⟨hlow, hhigh⟩) | rfl := h
  · exact .inr (.inl ⟨hlow, hhigh⟩)
  · exact .inr (.inr (.inr ⟨hlow, hhigh⟩))
  · exact .inl ⟨hlow, hhigh⟩
  · decide

theorem not_blank_of_isWordChar {c : Char} (h : isWordChar c = true) : Text.isBlank c = false := by
  have hrange := toNat_of_isWordChar h
  simp only [Text.isBlank, Bool.or_eq_false_iff, Bool.and_eq_false_imp, decide_eq_true_eq,
    decide_eq_false_iff_not, beq_eq_false_iff_ne]
  omega

/-- A word character is no mark by itself. -/
theorem ne_of_isWordChar {c d : Char} (h : isWordChar c = true) (hd : isWordChar d = false) : c ≠ d := by
  rintro rfl
  simp [h] at hd

theorem not_isDigit_of_isWordStart {c : Char} (h : isWordStart c = true) : c.isDigit = false := by
  by_contra hdigit
  simp only [Bool.not_eq_false, Char.isDigit, Bool.and_eq_true, decide_eq_true_eq, ge_iff_le,
    UInt32.le_iff_toNat_le] at hdigit
  simp only [isWordStart, Char.isAlpha, Char.isUpper, Char.isLower, Bool.or_eq_true,
    Bool.and_eq_true, decide_eq_true_eq, beq_iff_eq, ge_iff_le, UInt32.le_iff_toNat_le] at h
  obtain ⟨hlow, hhigh⟩ := hdigit
  obtain (⟨hlow', -⟩ | ⟨hlow', -⟩) | rfl := h
  · exact absurd (hlow'.trans hhigh) (by decide)
  · exact absurd (hlow'.trans hhigh) (by decide)
  · exact absurd hhigh (by decide)

theorem takeWhile_isWordChar {run rest : List Char} (hrun : ∀ c ∈ run, isWordChar c = true)
    (hrest : Breaks rest) : (run ++ rest).takeWhile isWordChar = run := by
  rw [List.takeWhile_append_of_pos hrun]
  cases rest with
  | nil => simp
  | cons c rest =>
    obtain rfl | rfl := hrest c rfl <;> simp [isWordChar, Char.isAlphanum]

/-- Digits and points continue number text after any character. -/
theorem numberRun_append {run : List Char} (h : ∀ c ∈ run, c.isDigit || c == '.') (last : Char)
    (rest : List Char) :
    numberRun last (run ++ rest) = run ++ numberRun (run.getLastD last) rest := by
  induction run generalizing last with
  | nil => rfl
  | cons c run ih =>
    obtain ⟨hc, hrun⟩ := List.forall_mem_cons.1 h
    rw [List.cons_append, numberRun, ih hrun, List.getLastD_cons]
    obtain hc | hc := Bool.or_eq_true_iff.1 hc <;> simp [hc]

theorem numberRun_of_breaks {rest : List Char} (h : Breaks rest) (last : Char) :
    numberRun last rest = [] := by
  cases rest with
  | nil => rfl
  | cons c rest => obtain rfl | rfl := h c rfl <;> simp [numberRun]

/-- A character of a word is neither a separator nor blank nor a parenthesis. -/
theorem ne_mark {c : Char} (h : isWordChar c = true) (d : Char) (hd : isWordChar d = false) :
    (c == d) = false :=
  beq_eq_false_iff_ne.2 (ne_of_isWordChar h hd)

theorem first_number {c : Char} {cs : List Char} {d : Decimal} (hc : (c.isDigit || c == '.') = true)
    (hread : Decimal.read? (c :: numberRun c cs) = some d) :
    first c cs = .ok (some (number d.toFloat), (numberRun c cs).length) := by
  obtain hdigit | hpoint := Bool.or_eq_true_iff.1 hc
  · have hword := isWordChar_of_isDigit hdigit
    have hmark := ne_mark hword
    simp only [first, hmark ';' rfl, hmark '\n' rfl, hmark '(' rfl, hmark ')' rfl,
      not_blank_of_isWordChar hword, hdigit, hread, Bool.or_false, Bool.true_or, Bool.false_eq_true,
      if_false, if_true]
  · obtain rfl := beq_iff_eq.1 hpoint
    simp only [first, hread]
    rfl

theorem first_word {c : Char} {cs : List Char} (hc : isWordStart c = true) :
    first c cs = .ok (some (word (String.ofList (c :: cs.takeWhile isWordChar))),
      (cs.takeWhile isWordChar).length) := by
  have hword := isWordChar_of_isWordStart hc
  have hmark := ne_mark hword
  simp only [first, hmark ';' rfl, hmark '\n' rfl, hmark '(' rfl, hmark ')' rfl, hmark '.' rfl,
    not_blank_of_isWordChar hword, not_isDigit_of_isWordStart hc, hc, Bool.or_false,
    Bool.false_eq_true, if_false, if_true]

theorem lexes_number {cs : List Char} {d : Decimal} (h : d.Plain cs) :
    Lexes cs [number d.toFloat] := by
  obtain ⟨c, run, rfl, hc, hrun⟩ := h.eq_cons
  have hword := isWordChar_of_isDigit hc
  refine ⟨⟨c, rfl, ne_of_isWordChar hword rfl⟩, fun rest us hrest hyields => ?_⟩
  have hnumber : numberRun c (run ++ rest) = run := by
    rw [numberRun_append hrun, numberRun_of_breaks hrest, List.append_nil]
  refine yields_cons (some (number d.toFloat)) ?_ hyields
  rw [first_number (by simp [hc]) (by rw [hnumber, h.read_eq]), hnumber]

theorem lexes_name {name : String} (h : IsName name) : Lexes name.toList [word name] := by
  obtain ⟨c, run, hname, hc, hrun⟩ := isName_iff.1 h
  have hword := isWordChar_of_isWordStart hc
  rw [hname]
  refine ⟨⟨c, rfl, ne_of_isWordChar hword rfl⟩, fun rest us hrest hyields => ?_⟩
  refine yields_cons (some (word name)) ?_ hyields
  rw [first_word hc, takeWhile_isWordChar hrun hrest, ← hname, String.ofList_toList]

theorem breaks_cons {c : Char} {rest : List Char} (h : c = ' ' ∨ c = ')') : Breaks (c :: rest) := by
  intro d hd
  cases hd
  exact h

/-- A mark of one character. -/
theorem yields_mark {c : Char} {rest : List Char} {ts : List Token} (t : Option Token)
    (hfirst : first c rest = .ok (t, 0)) (hrest : Yields rest ts) :
    Yields (c :: rest) (t.toList ++ ts) :=
  @yields_cons c [] rest ts t hfirst hrest

theorem Lexes.group {cs : List Char} {ts : List Token} (h : Lexes cs ts) :
    Lexes ('(' :: (cs ++ [')'])) (openParen :: (ts ++ [closeParen])) := by
  refine ⟨⟨'(', rfl, by decide⟩, fun rest us _ hyields => ?_⟩
  have hclose : Yields (')' :: rest) (closeParen :: us) :=
    yields_mark (some closeParen) rfl hyields
  have hinner := h.yields _ _ (breaks_cons (.inr rfl)) hclose
  simpa using yields_mark (some openParen) rfl hinner

theorem Lexes.unary {cs : List Char} {ts : List Token} (h : Lexes cs ts) (op : UnaryOp) :
    Lexes (op.symbol.toList ++ cs) (op.token :: ts) := by
  obtain ⟨c, hhead, hc⟩ := h.head
  cases op with
  | negate =>
    refine ⟨⟨'-', rfl, by decide⟩, fun rest us hrest hyields => ?_⟩
    exact yields_mark (some (binary (.arith .subtract))) rfl (h.yields rest us hrest hyields)
  | not =>
    refine ⟨⟨'!', rfl, by decide⟩, fun rest us hrest hyields => ?_⟩
    have hnext : (cs ++ rest).head? = some c := by rw [List.head?_append, hhead]; rfl
    -- No text starts with an equals sign, with which the mark would be an operator.
    have hop : operator? '!' (some c) = some (bang, 0) := by
      unfold operator?
      grind
    have hfirst : first '!' (cs ++ rest) = .ok (some bang, 0) := by
      simp only [first, hnext, hop]
      rfl
    exact yields_mark (some bang) hfirst (h.yields rest us hrest hyields)

theorem first_symbol (op : BinaryOp) : ∃ c run, op.symbol.toList = c :: run ∧
    ∀ rest, first c (run ++ ' ' :: rest) = .ok (some (binary op), run.length) := by
  cases op with
  | logic op => cases op <;> exact ⟨_, _, rfl, fun _ => rfl⟩
  | equal => exact ⟨_, _, rfl, fun _ => rfl⟩
  | notEqual => exact ⟨_, _, rfl, fun _ => rfl⟩
  | order op => cases op <;> exact ⟨_, _, rfl, fun _ => rfl⟩
  | arith op => cases op <;> exact ⟨_, _, rfl, fun _ => rfl⟩

theorem yields_symbol {rest : List Char} {us : List Token} (op : BinaryOp)
    (h : Yields (' ' :: rest) us) : Yields (op.symbol.toList ++ ' ' :: rest) (binary op :: us) := by
  obtain ⟨c, run, hsymbol, hfirst⟩ := first_symbol op
  rw [hsymbol]
  exact yields_cons (some (binary op)) (hfirst rest) h

theorem Lexes.binary {l r : List Char} {ts us : List Token} (hl : Lexes l ts) (hr : Lexes r us)
    (op : BinaryOp) :
    Lexes (l ++ (' ' :: (op.symbol.toList ++ ' ' :: r))) (ts ++ .binary op :: us) := by
  obtain ⟨c, hhead, hc⟩ := hl.head
  refine ⟨⟨c, by rw [List.head?_append, hhead]; rfl, hc⟩, fun rest vs hrest hyields => ?_⟩
  have hright := @yields_mark ' ' _ _ none rfl (hr.yields rest vs hrest hyields)
  have hsymbol := @yields_mark ' ' _ _ none rfl (yields_symbol op hright)
  simpa using hl.yields _ _ (breaks_cons (.inl rfl)) hsymbol

end Token

end FlightGen
