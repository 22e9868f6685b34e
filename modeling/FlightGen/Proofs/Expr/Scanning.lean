import FlightGen.Proofs.Expr.Lexeme

/-! Scanning. A text is made up of the spellings of its tokens and of white space, in order,
and each token stands at the offset where its spelling starts. White space ends every token,
so what it divides can be scanned in parts. -/

namespace FlightGen

open String (utf8Len)
open Identifier (isWordStart isWordChar isWordChar_of_isDigit)

/-! ### Number text -/

namespace Decimal

open Token (numberRun numberRun_append)

theorem plain_of_isDigit {digits : List Char} (h : ∀ c ∈ digits, c.isDigit = true) :
    ∀ c ∈ digits, c.isDigit || c == '.' := by
  intro c hc
  simp [h c hc]

/-- An exponent is a mark, an optional sign and digits. -/
theorem exists_of_readExponent {tail : List Char} {n : Int} (h : readExponent? tail = some n) :
    tail = [] ∨ ∃ mark sign digits, tail = mark :: (sign ++ digits) ∧ (mark = 'e' ∨ mark = 'E') ∧
      sign ∈ [[], ['-'], ['+']] ∧ ∀ c ∈ digits, c.isDigit = true := by
  unfold readExponent? at h
  split at h
  · exact .inl rfl
  · rename_i mark rest
    have hparts : ∀ sign digits, sign ∈ [[], ['-'], ['+']] →
        ((mark = 'e' || mark = 'E') && digits ≠ [] && digits.all Char.isDigit) = true →
        ∃ mark' sign' digits', mark :: (sign ++ digits) = mark' :: (sign' ++ digits') ∧
          (mark' = 'e' ∨ mark' = 'E') ∧ sign' ∈ [[], ['-'], ['+']] ∧ ∀ c ∈ digits', c.isDigit = true := by
      intro sign digits hsign hcond
      simp only [Bool.and_eq_true, Bool.or_eq_true, decide_eq_true_eq, List.all_eq_true] at hcond
      exact ⟨mark, sign, digits, rfl, hcond.1.1, hsign, hcond.2⟩
    right
    simp only at h
    split at h <;> obtain ⟨hcond, -⟩ := Option.ite_none_right_eq_some.1 h
    · exact hparts ['-'] _ (by decide) hcond
    · exact hparts ['+'] _ (by decide) hcond
    · exact hparts [] _ (by decide) hcond

theorem numberRun_of_readExponent {tail : List Char} {n : Int} (h : readExponent? tail = some n)
    (last : Char) : numberRun last tail = tail := by
  obtain rfl | ⟨mark, sign, digits, rfl, hmark, hsign, hdigits⟩ := exists_of_readExponent h
  · rfl
  · have hrun : ∀ last, numberRun last digits = digits := fun last => by
      simpa [numberRun] using numberRun_append (plain_of_isDigit hdigits) last []
    simp only [List.mem_cons, List.not_mem_nil, or_false] at hsign
    obtain rfl | rfl := hmark <;> obtain rfl | rfl | rfl := hsign <;> simp [numberRun, hrun]

/-- Text that reads as a number: digits with an optional point, and an exponent. -/
theorem exists_of_read {cs : List Char} {d : Decimal} (h : read? cs = some d) :
    ∃ plain tail, cs = plain ++ tail ∧ plain ≠ [] ∧ (∀ c ∈ plain, c.isDigit || c == '.') ∧
      ∃ n, readExponent? tail = some n := by
  have htake : ∀ xs : List Char, ∀ c ∈ xs.takeWhile Char.isDigit, c.isDigit || c == '.' :=
    fun xs => plain_of_isDigit fun c => List.mem_takeWhile_imp
  have hcs : cs = cs.takeWhile Char.isDigit ++ cs.dropWhile Char.isDigit :=
    List.takeWhile_append_dropWhile.symm
  unfold read? at h
  split at h
  rename_i fraction tail hsplit
  obtain ⟨hdigits, h⟩ := Option.ite_none_left_eq_some.1 h
  obtain ⟨n, hn, -⟩ := Option.map_eq_some_iff.1 h
  split at hsplit
  · rename_i rest hrest
    cases hsplit
    refine ⟨cs.takeWhile Char.isDigit ++ '.' :: rest.takeWhile Char.isDigit, _, ?_, by simp, ?_, n, hn⟩
    · rw [List.append_assoc, List.cons_append, List.takeWhile_append_dropWhile, ← hrest]
      exact hcs
    · exact List.forall_mem_append.2 ⟨htake cs, List.forall_mem_cons.2 ⟨rfl, htake rest⟩⟩
  · cases hsplit
    refine ⟨cs.takeWhile Char.isDigit, _, hcs, ?_, htake cs, n, hn⟩
    simpa using hdigits

theorem numberRun_of_read {cs : List Char} {d : Decimal} (h : read? cs = some d) :
    ∃ c run, cs = c :: run ∧ (c.isDigit || c == '.') = true ∧ numberRun c run = run := by
  obtain ⟨plain, tail, rfl, hne, hplain, n, hn⟩ := exists_of_read h
  obtain ⟨c, run, rfl⟩ := List.exists_cons_of_ne_nil hne
  obtain ⟨hc, hrun⟩ := List.forall_mem_cons.1 hplain
  refine ⟨c, run ++ tail, rfl, hc, ?_⟩
  rw [numberRun_append hrun, numberRun_of_readExponent hn]

end Decimal

namespace Token

/-! ### Spellings -/

/-- The spellings of each token. -/
inductive Spells : List Char → Token → Prop
  | separator {c : Char} : c = ';' ∨ c = '\n' → Spells [c] separator
  | openParen : Spells ['('] openParen
  | closeParen : Spells [')'] closeParen
  | number {cs : List Char} {d : Decimal} : Decimal.read? cs = some d → Spells cs (number d.toFloat)
  | word {name : String} : IsName name → Spells name.toList (word name)
  | binary (op : BinaryOp) : Spells op.symbol.toList (binary op)
  | bang : Spells ['!'] bang
  | assign : Spells ['='] assign

/-! ### Blanks end tokens -/

section Blank

variable {b : Char} (hb : Text.isBlank b = true)

include hb

theorem ne_of_isBlank {d : Char} (hd : Text.isBlank d = false) : b ≠ d := by
  rintro rfl
  simp [hb] at hd

theorem not_isWordChar_of_isBlank : isWordChar b = false := by
  by_contra h
  simp [not_blank_of_isWordChar (Bool.not_eq_false _ ▸ h)] at hb

theorem numberRun_append_blank (last : Char) (cs rest : List Char) :
    numberRun last (cs ++ b :: rest) = numberRun last cs := by
  induction cs generalizing last with
  | nil =>
    have hword := not_isWordChar_of_isBlank hb
    have hdigit : b.isDigit = false := by
      by_contra h
      simp [isWordChar_of_isDigit (Bool.not_eq_false _ ▸ h)] at hword
    have hne := fun d hd => @ne_of_isBlank b hb d hd
    simp [numberRun, hdigit, hne '.' rfl, hne 'e' rfl, hne 'E' rfl, hne '+' rfl, hne '-' rfl]
  | cons c cs ih => rw [List.cons_append, numberRun, numberRun, ih]

theorem takeWhile_append_blank (cs rest : List Char) :
    (cs ++ b :: rest).takeWhile isWordChar = cs.takeWhile isWordChar := by
  induction cs with
  | nil => simp [not_isWordChar_of_isBlank hb]
  | cons c cs ih => simp only [List.cons_append, List.takeWhile_cons, ih]

theorem operator?_append_blank (c : Char) (cs rest : List Char) :
    operator? c (cs ++ b :: rest).head? = operator? c cs.head? := by
  cases cs with
  | cons d cs => rfl
  | nil =>
    have heq : b ≠ '=' := ne_of_isBlank hb rfl
    have hand : b ≠ '&' := ne_of_isBlank hb rfl
    have hor : b ≠ '|' := ne_of_isBlank hb rfl
    show operator? c (some b) = operator? c none
    unfold operator?
    grind

/-- A blank neither belongs to the token before it nor decides which one that is. -/
theorem first_append_blank (c : Char) (cs rest : List Char) :
    first c (cs ++ b :: rest) = first c cs := by
  simp only [first, numberRun_append_blank hb, operator?_append_blank hb, takeWhile_append_blank hb]

end Blank

/-! ### The first token -/

/-- A spelling by itself is scanned as its token. -/
theorem Spells.first_eq {lexeme : List Char} {t : Token} (h : Spells lexeme t) :
    ∃ c run, lexeme = c :: run ∧ first c run = .ok (some t, run.length) := by
  cases h with
  | separator hc => obtain rfl | rfl := hc <;> exact ⟨_, _, rfl, rfl⟩
  | openParen => exact ⟨_, _, rfl, rfl⟩
  | closeParen => exact ⟨_, _, rfl, rfl⟩
  | @number _ d hread =>
    obtain ⟨c, run, rfl, hc, hrun⟩ := Decimal.numberRun_of_read hread
    refine ⟨c, run, rfl, ?_⟩
    rw [first_number hc (by rw [hrun, hread]), hrun]
  | @word name hname =>
    obtain ⟨c, run, hcs, hc, hrun⟩ := isName_iff.1 hname
    refine ⟨c, run, hcs, ?_⟩
    rw [first_word hc, List.takeWhile_eq_self_iff.2 hrun, ← hcs, String.ofList_toList]
  | binary op =>
    obtain ⟨c, run, hsymbol, hfirst⟩ := first_symbol op
    refine ⟨c, run, hsymbol, ?_⟩
    rw [← first_append_blank (b := ' ') rfl c run [], hfirst]
  | bang => exact ⟨_, _, rfl, rfl⟩
  | assign => exact ⟨_, _, rfl, rfl⟩

theorem spells_of_operator? {c : Char} {next : Option Char} {t : Token} {more : Nat}
    (h : operator? c next = some (t, more)) :
    Spells (c :: next.toList.take more) t ∧ (next.toList.take more).length = more := by
  unfold operator? at h
  split at h <;> cases h <;> refine ⟨?_, rfl⟩
  exacts [.binary .equal, .binary .notEqual, .binary (.order .lessEqual), .binary (.order .greaterEqual),
    .binary (.logic .and), .binary (.logic .or), .binary (.arith .add), .binary (.arith .subtract),
    .binary (.arith .multiply), .binary (.arith .divide), .binary (.order .less),
    .binary (.order .greater), .bang, .assign]

theorem exists_numberRun_append (last : Char) (cs : List Char) : ∃ rest, cs = numberRun last cs ++ rest := by
  induction cs generalizing last with
  | nil => exact ⟨[], rfl⟩
  | cons c cs ih =>
    obtain ⟨rest, hrest⟩ := ih c
    simp only [numberRun]
    split_ifs
    · exact ⟨rest, by rw [List.cons_append, ← hrest]⟩
    · exact ⟨c :: cs, rfl⟩

/-- What is scanned first: a blank, which is passed over, or the spelling of a token. -/
theorem exists_of_first {c : Char} {cs : List Char} {token? : Option Token} {more : Nat}
    (h : first c cs = .ok (token?, more)) :
    (token? = none ∧ more = 0 ∧ Text.isBlank c = true ∧ c ≠ '\n') ∨
      ∃ t run rest, token? = some t ∧ cs = run ++ rest ∧ run.length = more ∧ Spells (c :: run) t := by
  have hmark : ∀ t, Spells [c] t → (.ok (some t, 0) : Except ParseFault _) = .ok (token?, more) →
      ∃ t run rest, token? = some t ∧ cs = run ++ rest ∧ run.length = more ∧ Spells (c :: run) t := by
    intro t ht heq
    cases heq
    exact ⟨t, [], cs, rfl, rfl, rfl, ht⟩
  unfold first at h
  split_ifs at h with hsep hblank hopen hclose hnumber hstart
  · refine .inr (hmark separator (.separator ?_) h)
    simpa using hsep
  · cases h
    exact .inl ⟨rfl, rfl, hblank, by simp_all⟩
  · obtain rfl := beq_iff_eq.1 hopen
    exact .inr (hmark openParen .openParen h)
  · obtain rfl := beq_iff_eq.1 hclose
    exact .inr (hmark closeParen .closeParen h)
  · right
    obtain ⟨rest, hrest⟩ := exists_numberRun_append c cs
    simp only at h
    split at h
    · rename_i d hread
      cases h
      exact ⟨_, _, rest, rfl, hrest, rfl, .number hread⟩
    · cases h
  · cases h
    have hname : IsName (String.ofList (c :: cs.takeWhile isWordChar)) := by
      rw [IsName, String.toList_ofList]
      exact ⟨hstart, fun x => List.mem_takeWhile_imp⟩
    refine .inr ⟨_, _, _, rfl, List.takeWhile_append_dropWhile.symm, rfl, ?_⟩
    simpa using Spells.word hname
  · right
    split at h
    · rename_i t more' hop
      cases h
      obtain ⟨hspells, hlength⟩ := spells_of_operator? hop
      rw [← List.take_one, List.take_take] at hspells hlength
      exact ⟨t, _, _, rfl, (List.take_append_drop _ cs).symm, hlength, hspells⟩
    · cases h

/-! ### The whole text -/

/-- White space other than newlines, and one spelling after another, each of a token that stands
at the offset of its first character. -/
inductive Covers : Nat → List Char → List Located → Prop
  | nil (offset : Nat) : Covers offset [] []
  | blank {offset : Nat} {c : Char} {cs : List Char} {located : List Located} :
    Text.isBlank c = true → c ≠ '\n' → Covers (offset + c.utf8Size) cs located →
      Covers offset (c :: cs) located
  | token {offset : Nat} {lexeme cs : List Char} {t : Token} {located : List Located} :
    Spells lexeme t → Covers (offset + utf8Len lexeme) cs located →
      Covers offset (lexeme ++ cs) (⟨offset, t⟩ :: located)

/-- One step of scanning, at a blank or at a token. -/
theorem scanFrom_cons {offset : Nat} {c : Char} {cs : List Char} {located : List Located}
    (h : scanFrom offset 0 (c :: cs) = .ok located) :
    (Text.isBlank c = true ∧ c ≠ '\n' ∧ scanFrom (offset + c.utf8Size) 0 cs = .ok located) ∨
      ∃ t run rest after, cs = run ++ rest ∧ Spells (c :: run) t ∧
        scanFrom (offset + utf8Len (c :: run)) 0 rest = .ok after ∧ located = ⟨offset, t⟩ :: after := by
  rw [scanFrom] at h
  split at h
  · cases h
  · rename_i token? more hfirst
    obtain ⟨after, hafter, h⟩ := bind_eq_ok.1 h
    cases pure_eq_ok.1 h
    obtain ⟨rfl, rfl, hblank, hc⟩ | ⟨t, run, rest, rfl, rfl, rfl, hspells⟩ := exists_of_first hfirst
    · exact .inl ⟨hblank, hc, hafter⟩
    · rw [scanFrom_skip] at hafter
      refine .inr ⟨t, run, rest, after, rfl, hspells, ?_, rfl⟩
      rwa [String.utf8Len_cons, Nat.add_comm (utf8Len run), ← Nat.add_assoc]

theorem covers_of_scanFrom {offset : Nat} {cs : List Char} {located : List Located}
    (h : scanFrom offset 0 cs = .ok located) : Covers offset cs located := by
  -- A token takes characters together, so the induction is on the number of those left.
  induction hn : cs.length using Nat.strong_induction_on generalizing offset cs located with
  | _ n ih =>
    cases cs with
    | nil =>
      cases h
      exact .nil offset
    | cons c cs =>
      obtain ⟨hblank, hc, hrest⟩ | ⟨t, run, rest, after, rfl, hspells, hrest, rfl⟩ := scanFrom_cons h
      · exact .blank hblank hc (ih _ (by grind) hrest rfl)
      · exact .token hspells (ih _ (by grind) hrest rfl)

theorem Spells.utf8Len_pos {lexeme : List Char} {t : Token} (h : Spells lexeme t) : 0 < utf8Len lexeme := by
  obtain ⟨c, run, rfl, -⟩ := h.first_eq
  rw [String.utf8Len_cons]
  exact Nat.add_pos_right _ c.utf8Size_pos

namespace Covers

variable {offset : Nat} {cs : List Char} {located : List Located}

/-- Each token stands after some characters of the text, and before others. -/
theorem exists_append (h : Covers offset cs located) {t : Located} (ht : t ∈ located) :
    ∃ before after, cs = before ++ after ∧ t.offset = offset + utf8Len before ∧ 0 < utf8Len after := by
  induction h with
  | nil => cases ht
  | @blank offset c cs _ _ _ _ ih =>
    obtain ⟨before, after, rfl, hoffset, hpos⟩ := ih ht
    refine ⟨c :: before, after, rfl, ?_, hpos⟩
    rw [hoffset, String.utf8Len_cons]
    omega
  | @token offset lexeme cs _ _ hspells _ ih =>
    have hlexeme := hspells.utf8Len_pos
    obtain rfl | ht := List.mem_cons.1 ht
    · exact ⟨[], lexeme ++ cs, rfl, rfl, by rw [String.utf8Len_append]; omega⟩
    · obtain ⟨before, after, rfl, hoffset, hpos⟩ := ih ht
      refine ⟨lexeme ++ before, after, by rw [List.append_assoc], ?_, hpos⟩
      rw [hoffset, String.utf8Len_append]
      omega

theorem pairwise_offset (h : Covers offset cs located) :
    located.Pairwise fun t u => t.offset < u.offset := by
  induction h with
  | nil => exact .nil
  | blank _ _ _ ih => exact ih
  | @token offset lexeme cs _ _ hspells hrest ih =>
    refine .cons (fun u hu => ?_) ih
    obtain ⟨before, after, -, hoffset, -⟩ := hrest.exists_append hu
    have hlexeme := hspells.utf8Len_pos
    show offset < u.offset
    omega

theorem spells (h : Covers offset cs located) {t : Located} (ht : t ∈ located) :
    ∃ lexeme, Spells lexeme t.token := by
  induction h with
  | nil => cases ht
  | blank _ _ _ ih => exact ih ht
  | token hspells _ ih =>
    obtain rfl | ht := List.mem_cons.1 ht
    · exact ⟨_, hspells⟩
    · exact ih ht

end Covers

/-! ### Scanning in parts -/

theorem first_le_length {c : Char} {cs : List Char} {token? : Option Token} {more : Nat}
    (h : first c cs = .ok (token?, more)) : more ≤ cs.length := by
  obtain ⟨-, rfl, -⟩ | ⟨t, run, rest, -, rfl, rfl, -⟩ := exists_of_first h
  · exact Nat.zero_le _
  · simp

/-- No token reaches over a blank, so the text before it is scanned by itself. -/
theorem scanFrom_append_blank {b : Char} (hb : Text.isBlank b = true) (rest : List Char)
    {offset skip : Nat} {cs : List Char} (hskip : skip ≤ cs.length) :
    scanFrom offset skip (cs ++ b :: rest) = (do
      let before ← scanFrom offset skip cs
      let after ← scanFrom (offset + utf8Len cs) 0 (b :: rest)
      return before ++ after) := by
  induction cs generalizing offset skip with
  | nil =>
    obtain rfl : skip = 0 := by simpa using hskip
    exact (bind_pure _).symm
  | cons c cs ih =>
    have hoffset : offset + utf8Len (c :: cs) = offset + c.utf8Size + utf8Len cs := by
      rw [String.utf8Len_cons]
      omega
    rw [hoffset]
    cases skip with
    | succ skip => exact ih (by simpa using hskip)
    | zero =>
      rw [List.cons_append, scanFrom, scanFrom, first_append_blank hb]
      cases hfirst : first c cs with
      | error fault => rfl
      | ok step =>
        obtain ⟨token?, more⟩ := step
        simp only [ih (first_le_length hfirst), bind_assoc, pure_bind]
        cases token? <;> simp

/-- Where a text stands decides nothing but offsets. -/
theorem scanFrom_shift {offset skip : Nat} {cs : List Char} {located : List Located}
    (h : scanFrom offset skip cs = .ok located) (offset' : Nat) :
    ∃ located', scanFrom offset' skip cs = .ok located' ∧
      located'.map (·.token) = located.map (·.token) := by
  induction cs generalizing offset skip located offset' with
  | nil =>
    cases h
    exact ⟨[], rfl, rfl⟩
  | cons c cs ih =>
    cases skip with
    | succ skip => exact ih h _
    | zero =>
      rw [scanFrom] at h ⊢
      cases hfirst : first c cs with
      | error fault => simp [hfirst] at h
      | ok step =>
        obtain ⟨token?, more⟩ := step
        simp only [hfirst] at h
        obtain ⟨after, hafter, h⟩ := bind_eq_ok.1 h
        cases pure_eq_ok.1 h
        obtain ⟨after', hafter', hmap⟩ := ih hafter (offset' + c.utf8Size)
        refine ⟨_, bind_eq_ok.2 ⟨after', hafter', rfl⟩, ?_⟩
        cases token? <;> simp [hmap]

theorem yields_of_scanFrom {offset : Nat} {cs : List Char} {located : List Located}
    (h : scanFrom offset 0 cs = .ok located) : Yields cs (located.map (·.token)) :=
  scanFrom_shift h

theorem tokenizes_iff_yields {source : String} {ts : List Token} :
    Tokenizes source ts ↔ Yields source.toList ts := by
  refine ⟨?_, tokenizes_of_yields⟩
  rintro ⟨located, hscan, rfl⟩
  exact yields_of_scanFrom hscan

/-- A blank divides the tokens of a text. -/
theorem yields_append_blank {b : Char} (hb : Text.isBlank b = true) {cs rest : List Char}
    {ts : List Token} :
    Yields (cs ++ b :: rest) ts ↔ ∃ us vs, Yields cs us ∧ Yields (b :: rest) vs ∧ ts = us ++ vs := by
  constructor
  · intro h
    obtain ⟨located, hscan, rfl⟩ := h 0
    rw [scanFrom_append_blank hb rest (Nat.zero_le _)] at hscan
    obtain ⟨before, hbefore, hscan⟩ := bind_eq_ok.1 hscan
    obtain ⟨after, hafter, hscan⟩ := bind_eq_ok.1 hscan
    cases pure_eq_ok.1 hscan
    exact ⟨_, _, yields_of_scanFrom hbefore, yields_of_scanFrom hafter, List.map_append⟩
  · rintro ⟨us, vs, hus, hvs, rfl⟩ offset
    obtain ⟨before, hbefore, rfl⟩ := hus offset
    obtain ⟨after, hafter, rfl⟩ := hvs (offset + utf8Len cs)
    refine ⟨before ++ after, ?_, List.map_append⟩
    rw [scanFrom_append_blank hb rest (Nat.zero_le _), hbefore, hafter]
    rfl

theorem yields_mark_iff {c : Char} {rest : List Char} {ts : List Token} (t : Option Token)
    (hfirst : first c rest = .ok (t, 0)) :
    Yields (c :: rest) ts ↔ ∃ us, Yields rest us ∧ ts = t.toList ++ us := by
  constructor
  · intro h
    obtain ⟨located, hscan, rfl⟩ := h 0
    rw [scanFrom, hfirst] at hscan
    obtain ⟨after, hafter, hscan⟩ := bind_eq_ok.1 hscan
    cases pure_eq_ok.1 hscan
    refine ⟨_, yields_of_scanFrom hafter, ?_⟩
    cases t <;> rfl
  · rintro ⟨us, hus, rfl⟩
    exact yields_mark t hfirst hus

theorem yields_newline {rest : List Char} {ts : List Token} :
    Yields ('\n' :: rest) ts ↔ ∃ us, Yields rest us ∧ ts = separator :: us :=
  yields_mark_iff (some separator) rfl

theorem yields_blank {b : Char} (hb : Text.isBlank b = true) (hne : b ≠ '\n') {rest : List Char}
    {ts : List Token} : Yields (b :: rest) ts ↔ Yields rest ts := by
  have hfirst : first b rest = .ok (none, 0) := by
    simp [first, hb, hne, ne_of_isBlank hb (rfl : Text.isBlank ';' = false)]
  rw [yields_mark_iff none hfirst]
  simp

/-! ### Texts of given tokens -/

theorem Spells.yields {lexeme : List Char} {t : Token} (h : Spells lexeme t) : Yields lexeme [t] := by
  obtain ⟨c, run, rfl, hfirst⟩ := h.first_eq
  simpa using yields_cons (some t) (by rwa [List.append_nil]) yields_nil

/-- Spelled tokens, with a blank after each, are the tokens of the text. -/
theorem exists_tokenizes {ts : List Token} (h : ∀ t ∈ ts, ∃ lexeme, Spells lexeme t) :
    ∃ source, Tokenizes source ts := by
  suffices hcs : ∃ cs, Yields cs ts by
    obtain ⟨cs, hcs⟩ := hcs
    exact ⟨String.ofList cs, tokenizes_of_yields (by rwa [String.toList_ofList])⟩
  induction ts with
  | nil => exact ⟨[], yields_nil⟩
  | cons t ts ih =>
    obtain ⟨⟨lexeme, ht⟩, hts⟩ := List.forall_mem_cons.1 h
    obtain ⟨cs, hcs⟩ := ih hts
    have hrest : Yields (' ' :: cs) ts := (yields_blank rfl (by decide)).2 hcs
    exact ⟨lexeme ++ ' ' :: cs, (yields_append_blank rfl).2 ⟨[t], ts, ht.yields, hrest, rfl⟩⟩

/-- A token that printed text can hold. -/
def IsProper : Token → Prop
  | number x => IsUnsigned x
  | word name => IsName name
  | _ => True

theorem isUnsigned_toFloat (d : Decimal) : IsUnsigned d.toFloat := by
  have hle : ∀ b, b ≤ Binary64.infinity → IsUnsigned (Float.ofBits b.toUInt64) := by
    intro b hb
    rw [IsUnsigned, Binary64.form_ofBits hb]
    split_ifs <;> rfl
  unfold Decimal.toFloat
  simp only
  apply hle
  split_ifs
  · exact Nat.zero_le _
  · exact le_rfl
  · exact Nat.zero_le _
  · exact Nat.min_le_left _ _

theorem Spells.isProper {lexeme : List Char} {t : Token} (h : Spells lexeme t) : t.IsProper := by
  cases h with
  | number => exact isUnsigned_toFloat _
  | word hname => exact hname
  | _ => trivial

theorem Tokenizes.spells {source : String} {ts : List Token} (h : Tokenizes source ts) :
    ∀ t ∈ ts, ∃ lexeme, Spells lexeme t := by
  obtain ⟨located, hscan, rfl⟩ := h
  simpa using fun t ht => (covers_of_scanFrom hscan).spells ht

theorem Tokenizes.isProper {source : String} {ts : List Token} (h : Tokenizes source ts) :
    ∀ t ∈ ts, t.IsProper := by
  intro t ht
  obtain ⟨lexeme, hspells⟩ := h.spells t ht
  exact hspells.isProper

/-! ### Offsets -/

theorem isValid_of_append {source : String} {before after : List Char}
    (h : source.toList = before ++ after) :
    String.Pos.Raw.IsValid source ⟨utf8Len before⟩ := by
  refine String.Pos.Raw.isValid_iff_exists_append.2 ⟨String.ofList before, String.ofList after, ?_, ?_⟩
  · rw [← String.ofList_append, ← h, String.ofList_toList]
  · rw [String.rawEndPos_ofList]

/-- A text that cannot be scanned is faulted at one of its characters. -/
theorem exists_append_of_error {offset skip : Nat} {cs : List Char} {e : ParseError}
    (h : scanFrom offset skip cs = .error e) :
    ∃ before after, cs = before ++ after ∧ e.offset = offset + utf8Len before := by
  induction cs generalizing offset skip with
  | nil => cases h
  | cons c cs ih =>
    have hlater : ∀ {skip}, scanFrom (offset + c.utf8Size) skip cs = .error e →
        ∃ before after, c :: cs = before ++ after ∧ e.offset = offset + utf8Len before := by
      intro skip hrest
      obtain ⟨before, after, rfl, hoffset⟩ := ih hrest
      refine ⟨c :: before, after, rfl, ?_⟩
      rw [hoffset, String.utf8Len_cons]
      omega
    cases skip with
    | succ skip => exact hlater h
    | zero =>
      rw [scanFrom] at h
      split at h
      · cases h
        exact ⟨[], c :: cs, rfl, rfl⟩
      · obtain hrest | ⟨_, -, h⟩ := bind_eq_error.1 h
        · exact hlater hrest
        · cases h

theorem isValid_of_mem {source : String} {located : List Located} (h : scan source = .ok located)
    {t : Located} (ht : t ∈ located) : String.Pos.Raw.IsValid source ⟨t.offset⟩ := by
  obtain ⟨before, after, hsource, hoffset, -⟩ := (covers_of_scanFrom h).exists_append ht
  rw [hoffset, Nat.zero_add]
  exact isValid_of_append hsource

theorem isValid_of_scan_error {source : String} {e : ParseError} (h : scan source = .error e) :
    String.Pos.Raw.IsValid source ⟨e.offset⟩ := by
  obtain ⟨before, after, hsource, hoffset⟩ := exists_append_of_error h
  rw [hoffset, Nat.zero_add]
  exact isValid_of_append hsource

end Token

end FlightGen
