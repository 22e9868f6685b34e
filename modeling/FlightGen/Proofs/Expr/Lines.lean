import FlightGen.Proofs.Expr.Acceptance
import FlightGen.Proofs.Expr.Scanning
import FlightGen.Run

/-! Bodies line by line. A newline always is a separator, and no token and no assignment reaches
over one: the assignments of a body are those of its parts, one after another. White space at the
end of a line says nothing, so the lines that a block keeps read as the body they were taken from. -/

namespace FlightGen

/-! ### Separators divide bodies -/

theorem Body.append {ts us : List Token} {items items' : List Assignment} (h : Body ts items)
    (h' : Body us items') : Body (ts ++ .separator :: us) (items ++ items') := by
  induction h with
  | nil => exact .separator h'
  | separator _ ih => exact .separator ih
  | last target hderives => exact .item target hderives h'
  | item target hderives _ ih =>
    rw [List.cons_append, List.cons_append, List.append_assoc]
    exact .item target hderives ih

/-- A separator before which there is no other ends the first part of any division. -/
theorem append_separator_cases {ts us vs ws : List Token} (hts : ∀ t ∈ ts, t.isSeparator = false)
    (h : ts ++ .separator :: vs = us ++ .separator :: ws) :
    (us = ts ∧ ws = vs) ∨ ∃ rest, us = ts ++ .separator :: rest ∧ vs = rest ++ .separator :: ws := by
  obtain ⟨rest, rfl, htail⟩ | ⟨rest, rfl, htail⟩ := List.append_eq_append_iff.1 h
  · cases rest with
    | nil => simp_all
    | cons t rest => simp_all
  · cases rest with
    | nil => simp_all
    | cons t rest =>
      obtain ⟨rfl, -⟩ := List.cons.inj htail
      exact absurd (hts .separator (by simp)) (by decide)

theorem Body.split {ts us : List Token} {items : List Assignment}
    (h : Body (ts ++ .separator :: us) items) :
    ∃ before after, Body ts before ∧ Body us after ∧ items = before ++ after := by
  generalize hvs : ts ++ .separator :: us = vs at h
  induction h generalizing ts with
  | nil => simp at hvs
  | separator h ih =>
    cases ts with
    | nil =>
      cases hvs
      exact ⟨[], _, .nil, h, rfl⟩
    | cons t ts =>
      cases hvs
      obtain ⟨before, after, hbefore, hafter, rfl⟩ := ih rfl
      exact ⟨before, after, .separator hbefore, hafter, rfl⟩
  | @last vs _ target hderives =>
    have hmem : Token.separator ∈ .word target :: .assign :: vs := hvs ▸ by simp
    have hvs' : Token.separator ∈ vs := by simpa using hmem
    exact absurd (hderives.not_separator.2 _ hvs') (by decide)
  | @item vs _ _ items target hderives h ih =>
    have hopen : ∀ t ∈ .word target :: .assign :: vs, t.isSeparator = false := by
      simpa [Token.isSeparator] using hderives.not_separator.2
    obtain ⟨rfl, rfl⟩ | ⟨rest, rfl, rfl⟩ := append_separator_cases hopen hvs.symm
    · exact ⟨_, items, .last target hderives, h, rfl⟩
    · obtain ⟨before, after, hbefore, hafter, rfl⟩ := ih rfl
      exact ⟨_, after, .item target hderives hbefore, hafter, rfl⟩

/-! ### Texts -/

/-- A text that reads as these assignments, wherever it stands. -/
def Assignment.Reads (cs : List Char) (items : List Assignment) : Prop :=
  ∃ ts, Token.Yields cs ts ∧ Body ts items

namespace Assignment

theorem parseAll_eq_ok {source : String} {items : List Assignment} :
    parseAll source = .ok items ↔ Reads source.toList items := by
  constructor
  · intro h
    obtain ⟨located, hscan, -⟩ := bind_eq_ok.1 h
    have htokens : Token.Tokenizes source (located.map (·.token)) := ⟨located, hscan, rfl⟩
    exact ⟨_, Token.tokenizes_iff_yields.1 htokens,
      BodyReading.run_iff_body.1 ((readText_eq_ok htokens).1 h)⟩
  · rintro ⟨ts, hts, hbody⟩
    exact (readText_eq_ok (Token.tokenizes_of_yields hts)).2 (BodyReading.run_iff_body.2 hbody)

theorem reads_nil {items : List Assignment} : Reads [] items ↔ items = [] := by
  constructor
  · rintro ⟨ts, hts, hbody⟩
    obtain ⟨located, hscan, rfl⟩ := hts 0
    cases hscan
    cases hbody
    rfl
  · rintro rfl
    exact ⟨[], Token.yields_nil, .nil⟩

theorem reads_newline {cs rest : List Char} {items : List Assignment} :
    Reads (cs ++ '\n' :: rest) items ↔
      ∃ before after, Reads cs before ∧ Reads rest after ∧ items = before ++ after := by
  constructor
  · rintro ⟨ts, hts, hbody⟩
    obtain ⟨us, vs, hus, hvs, rfl⟩ := (Token.yields_append_blank rfl).1 hts
    obtain ⟨ws, hws, rfl⟩ := Token.yields_newline.1 hvs
    obtain ⟨before, after, hbefore, hafter, rfl⟩ := hbody.split
    exact ⟨before, after, ⟨us, hus, hbefore⟩, ⟨ws, hws, hafter⟩, rfl⟩
  · rintro ⟨before, after, ⟨us, hus, hbefore⟩, ⟨ws, hws, hafter⟩, rfl⟩
    refine ⟨us ++ .separator :: ws, ?_, hbefore.append hafter⟩
    exact (Token.yields_append_blank rfl).2 ⟨us, _, hus, Token.yields_newline.2 ⟨ws, hws, rfl⟩, rfl⟩

theorem reads_intercalate {line : List Char} {lines : List (List Char)} {items : List Assignment} :
    Reads (['\n'].intercalate (line :: lines)) items ↔
      ∃ before after, Reads line before ∧ Reads (['\n'].intercalate lines) after ∧
        items = before ++ after := by
  cases lines with
  | nil => simp [reads_nil]
  | cons next lines =>
    rw [List.intercalate_cons_cons, List.append_assoc]
    exact reads_newline

end Assignment

/-! ### White space at the end of a line -/

namespace Token

theorem yields_blanks {blanks : List Char} (h : ∀ b ∈ blanks, Text.isBlank b = true ∧ b ≠ '\n')
    {ts : List Token} : Yields blanks ts ↔ ts = [] := by
  induction blanks with
  | nil =>
    refine ⟨fun hts => ?_, fun hts => hts ▸ yields_nil⟩
    obtain ⟨located, hscan, rfl⟩ := hts 0
    cases hscan
    rfl
  | cons b blanks ih =>
    obtain ⟨⟨hb, hne⟩, hblanks⟩ := List.forall_mem_cons.1 h
    rw [yields_blank hb hne]
    exact ih hblanks

theorem yields_append_blanks {cs blanks : List Char}
    (h : ∀ b ∈ blanks, Text.isBlank b = true ∧ b ≠ '\n') {ts : List Token} :
    Yields (cs ++ blanks) ts ↔ Yields cs ts := by
  cases blanks with
  | nil => rw [List.append_nil]
  | cons b blanks =>
    rw [yields_append_blank (h b List.mem_cons_self).1]
    simp [yields_blanks h]

theorem yields_trimEnd {line : List Char} (h : '\n' ∉ line) {ts : List Token} :
    Yields (Text.trimEnd line) ts ↔ Yields line ts := by
  have hblanks : ∀ b ∈ line.rtakeWhile Text.isBlank, Text.isBlank b = true ∧ b ≠ '\n' := by
    intro b hb
    refine ⟨List.mem_rtakeWhile_imp hb, ?_⟩
    rintro rfl
    exact h ((List.rtakeWhile_suffix _ _).subset hb)
  rw [← yields_append_blanks hblanks]
  show Yields (line.rdropWhile Text.isBlank ++ _) ts ↔ _
  rw [List.rdropWhile_append_rtakeWhile]

end Token

/-! ### Lines -/

namespace Text

theorem splitLines_line {line : List Char} (h : '\n' ∉ line) (hne : line ≠ []) :
    splitLines line = [line] := by
  induction line with
  | nil => exact absurd rfl hne
  | cons c line ih =>
    obtain ⟨hc, hline⟩ := not_or.1 (mt List.mem_cons.2 h)
    rw [splitLines, if_neg fun heq => hc heq.symm]
    cases line with
    | nil => rfl
    | cons d line => rw [ih hline (List.cons_ne_nil d line)]

theorem splitLines_newline {line : List Char} (h : '\n' ∉ line) (rest : List Char) :
    splitLines (line ++ '\n' :: rest) = line :: splitLines rest := by
  induction line with
  | nil => rfl
  | cons c line ih =>
    obtain ⟨hc, hline⟩ := not_or.1 (mt List.mem_cons.2 h)
    rw [List.cons_append, splitLines, if_neg fun heq => hc heq.symm, ih hline]

end Text

namespace Assignment

theorem reads_trimEnd {line : List Char} (h : '\n' ∉ line) {items : List Assignment} :
    Reads (Text.trimEnd line) items ↔ Reads line items :=
  exists_congr fun _ => and_congr_left' (Token.yields_trimEnd h)

/-- The trimmed lines of a text, joined again, read as the text. -/
theorem reads_join (cs : List Char) (items : List Assignment) :
    Reads (['\n'].intercalate ((Text.splitLines cs).map Text.trimEnd)) items ↔ Reads cs items := by
  -- The lines are peeled off the front, so the induction is on the length of what is left.
  induction hn : cs.length using Nat.strong_induction_on generalizing cs items with
  | _ n ih =>
    by_cases hmem : '\n' ∈ cs
    · obtain ⟨line, rest, rfl, hline⟩ := List.eq_append_cons_of_mem hmem
      have hrest := fun after => ih _ (by grind) rest after rfl
      rw [Text.splitLines_newline hline, List.map_cons, reads_intercalate, reads_newline]
      simp only [reads_trimEnd hline, hrest]
    · obtain rfl | hne := eq_or_ne cs []
      · rfl
      · rw [Text.splitLines_line hmem hne, List.map_singleton, List.intercalate_singleton,
          reads_trimEnd hmem]

/-- Bodies with a newline between them read as their assignments in order, or not at all if one
of them does not; and the lines that are kept of a body read exactly as the body. -/
theorem parseAll_by_lines :
    (∀ body body' items, parseAll (body ++ "\n" ++ body') = .ok items ↔
      ∃ before after, parseAll body = .ok before ∧ parseAll body' = .ok after ∧
        items = before ++ after) ∧
    ∀ node body items, readBody node (Text.trimmedLines body) = .ok items ↔
      parseAll body = .ok items := by
  refine ⟨fun body body' items => ?_, fun node body items => ?_⟩
  · have htext : (body ++ "\n" ++ body').toList = body.toList ++ '\n' :: body'.toList := by simp
    simp only [parseAll_eq_ok, htext, reads_newline]
  · have htext : ("\n".intercalate (Text.trimmedLines body)).toList =
        ['\n'].intercalate ((Text.splitLines body.toList).map Text.trimEnd) := by
      simp [Text.trimmedLines, Function.comp_def]
    rw [readBody, mapError_eq_ok, parseAll_eq_ok, parseAll_eq_ok, htext, reads_join]

end Assignment

end FlightGen
