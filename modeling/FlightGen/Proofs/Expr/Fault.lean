import FlightGen.Proofs.Expr.Acceptance
import FlightGen.Proofs.Expr.Scanning

/-! Where faults are reported. The readers never take a token that spoils the text: whatever they
have taken, more tokens make it a text without fault. So a token at which they stop is the first
one that cannot be right, and a text in which they find none is only cut short. -/

namespace FlightGen

open Token (Spells Tokenizes isValid_of_mem isValid_of_scan_error)

/-! ### Finishing what has been read -/

namespace Frame

/-- Completing all operators leaves nothing open, or ends at a parenthesis. -/
theorem collapse_zero_cases (frames : List Frame) (e : Expr) :
    (∃ whole, collapse 0 frames e = ([], whole)) ∨
      ∃ outer inner, collapse 0 frames e = (group :: outer, inner) ∧ outer.length < frames.length := by
  fun_induction collapse 0 frames e with
  | case1 op frames e ih =>
    refine ih.imp_right ?_
    rintro ⟨outer, inner, hcollapse, hlt⟩
    exact ⟨outer, inner, hcollapse, Nat.lt_succ_of_lt hlt⟩
  | case2 l op frames e hle ih =>
    refine ih.imp_right ?_
    rintro ⟨outer, inner, hcollapse, hlt⟩
    exact ⟨outer, inner, hcollapse, Nat.lt_succ_of_lt hlt⟩
  | case3 l op frames e hle => exact absurd (Nat.zero_le _) hle
  | case4 frames e hunary hbinary =>
    cases frames with
    | nil => exact .inl ⟨e, rfl⟩
    | cons frame frames =>
      cases frame with
      | group => exact .inr ⟨frames, e, rfl, Nat.lt_succ_self _⟩
      | unary op => exact (hunary _ _ rfl).elim
      | binary l op => exact (hbinary _ _ _ rfl).elim

end Frame

namespace Reading

open FlightGen.Frame (collapse)

/-- From here, some further tokens end an expression. -/
def Ends (state : Reading) (us : List Token) : Prop :=
  (∀ t ∈ us, ∃ lexeme, Spells lexeme t) ∧
    ∃ frames e whole, state.Reads us (operator frames e) ∧ collapse 0 frames e = ([], whole)

theorem exists_ends_operator (frames : List Frame) (e : Expr) : ∃ us, (operator frames e).Ends us := by
  -- Each closing parenthesis leaves fewer frames.
  induction hn : frames.length using Nat.strong_induction_on generalizing frames e with
  | _ n ih =>
    obtain ⟨whole, hwhole⟩ | ⟨outer, inner, hcollapse, hlt⟩ := Frame.collapse_zero_cases frames e
    · exact ⟨[], by simp, frames, e, whole, .nil _, hwhole⟩
    · obtain ⟨us, hspells, frames', e', whole, hreads, hwhole⟩ := ih _ (hn ▸ hlt) outer inner rfl
      have hclose : (operator frames e).step .closeParen = .next (operator outer inner) := by
        simp only [step, hcollapse]
      exact ⟨.closeParen :: us, List.forall_mem_cons.2 ⟨⟨_, .closeParen⟩, hspells⟩, frames', e', whole,
        .cons hclose hreads, hwhole⟩

theorem exists_ends (state : Reading) : ∃ us, state.Ends us := by
  cases state with
  | operator frames e => exact exists_ends_operator frames e
  | operand frames =>
    obtain ⟨us, hspells, frames', e', whole, hreads, hwhole⟩ := exists_ends_operator frames (leaf "x")
    exact ⟨.word "x" :: us, List.forall_mem_cons.2 ⟨⟨_, .word (by decide)⟩, hspells⟩, frames', e', whole,
      .cons rfl hreads, hwhole⟩

end Reading

/-- From here, some further tokens end a text that is read without fault. -/
def Viable {σ α : Type} (step : σ → Token → Except ParseFault σ) (finish : σ → Except ParseFault α)
    (state : σ) : Prop :=
  ∃ (us : List Token) (last : σ) (a : α), (∀ t ∈ us, ∃ lexeme, Spells lexeme t) ∧
    us.foldlM step state = .ok last ∧ finish last = .ok a

theorem Reading.finish_eq {frames : List Frame} {e whole : Expr}
    (h : Frame.collapse 0 frames e = ([], whole)) : (operator frames e).finish = .ok whole := by
  simp only [finish, complete?, h]

theorem SingleReading.viable (state : SingleReading) : Viable step finish state := by
  cases state with
  | before =>
    obtain ⟨us, hspells, frames, e, whole, hreads, hwhole⟩ := (Reading.operand []).exists_ends
    have hne : us ≠ [] := by
      rintro rfl
      cases hreads
    refine ⟨us, within (.operator frames e), whole, hspells, ?_, Reading.finish_eq hwhole⟩
    exact @foldlM_before [] us _ (by simp) hne hreads
  | within state =>
    obtain ⟨us, hspells, frames, e, whole, hreads, hwhole⟩ := state.exists_ends
    exact ⟨us, _, whole, hspells, foldlM_within hreads, Reading.finish_eq hwhole⟩
  | after e => exact ⟨[], _, e, by simp, rfl, rfl⟩

theorem BodyReading.viable_value (finished : List Assignment) (name : String) (state : Reading) :
    Viable step finish (value finished name state) := by
  obtain ⟨us, hspells, frames, e, whole, hreads, hwhole⟩ := state.exists_ends
  refine ⟨us, _, (⟨name, whole⟩ :: finished).reverse, hspells, foldlM_value hreads finished name, ?_⟩
  rw [finish, Reading.finish_eq hwhole]
  rfl

theorem BodyReading.viable (state : BodyReading) : Viable step finish state := by
  cases state with
  | between finished => exact ⟨[], _, _, by simp, rfl, rfl⟩
  | value finished name state => exact viable_value finished name state
  | target finished name =>
    obtain ⟨us, last, items, hspells, hrun, hfinish⟩ := viable_value finished name (.operand [])
    exact ⟨.assign :: us, last, items, List.forall_mem_cons.2 ⟨⟨_, .assign⟩, hspells⟩, hrun, hfinish⟩

/-! ### The place of a fault -/

/-- The tokens of a text that is read without fault. -/
def Accepted {α : Type} (read : String → Except ParseError α) (ts : List Token) : Prop :=
  ∃ source a, Tokenizes source ts ∧ read source = .ok a

/-- The tokens before an offset. -/
def tokensBefore (located : List Located) (offset : Nat) : List Token :=
  (located.filter (·.offset < offset)).map (·.token)

/-- The offset is that of the first token of the text with which no text is read without fault;
if there is no such token, it is the end of the text. -/
structure Pinpoints {α : Type} (read : String → Except ParseError α) (source : String)
    (located : List Located) (offset : Nat) : Prop where
  place : (∃ t ∈ located, t.offset = offset) ∨ offset = source.utf8ByteSize
  before : ∃ us, Accepted read (tokensBefore located offset ++ us)
  through : ∀ t ∈ located, t.offset = offset →
    ∀ us, ¬ Accepted read (tokensBefore located offset ++ t.token :: us)

section Place

variable {σ α : Type} {step : σ → Token → Except ParseFault σ} {finish : σ → Except ParseFault α}
  {start : σ}

theorem feed_eq_error {state : σ} {located : List Located} {e : ParseError}
    (h : feed step state located = .error e) :
    ∃ before t after mid, located = before ++ t :: after ∧
      (before.map (·.token)).foldlM step state = .ok mid ∧ step mid t.token = .error e.fault ∧
      e.offset = t.offset := by
  induction located generalizing state with
  | nil => cases h
  | cons t located ih =>
    rw [feed] at h
    split at h
    · rename_i next hnext
      obtain ⟨before, u, after, mid, rfl, hrun, hfault, hoffset⟩ := ih h
      refine ⟨t :: before, u, after, mid, rfl, ?_, hfault, hoffset⟩
      rw [List.map_cons, List.foldlM_cons, hnext]
      exact hrun
    · rename_i fault hfault
      cases h
      exact ⟨[], t, located, state, rfl, rfl, hfault, rfl⟩

theorem accepted_of_viable {ts : List Token} {mid : σ} (hspells : ∀ t ∈ ts, ∃ lexeme, Spells lexeme t)
    (hrun : ts.foldlM step start = .ok mid) (h : Viable step finish mid) :
    ∃ us, Accepted (readText step finish start) (ts ++ us) := by
  obtain ⟨us, last, a, hus, hlast, hfinish⟩ := h
  obtain ⟨source, hsource⟩ := Token.exists_tokenizes (List.forall_mem_append.2 ⟨hspells, hus⟩)
  refine ⟨us, source, a, hsource, (readText_eq_ok hsource).2 ⟨last, ?_, hfinish⟩⟩
  rw [List.foldlM_append, hrun]
  exact hlast

theorem not_accepted_of_fault {ts us : List Token} {t : Token} {mid : σ} {fault : ParseFault}
    (hrun : ts.foldlM step start = .ok mid) (h : step mid t = .error fault) :
    ¬ Accepted (readText step finish start) (ts ++ t :: us) := by
  rintro ⟨source, a, hsource, hread⟩
  obtain ⟨last, hlast, -⟩ := (readText_eq_ok hsource).1 hread
  rw [List.foldlM_append, hrun] at hlast
  obtain ⟨next, hnext, -⟩ := bind_eq_ok.1 (show (step mid t >>= us.foldlM step) = .ok last from hlast)
  rw [h] at hnext
  cases hnext

theorem tokensBefore_of_pairwise {before after : List Located} {t : Located}
    (h : (before ++ t :: after).Pairwise fun t u => t.offset < u.offset) :
    tokensBefore (before ++ t :: after) t.offset = before.map (·.token) := by
  obtain ⟨-, hafter, hbefore⟩ := List.pairwise_append.1 h
  have hlater : ∀ u ∈ t :: after, ¬ u.offset < t.offset :=
    List.forall_mem_cons.2 ⟨lt_irrefl _, fun u hu => (List.rel_of_pairwise_cons hafter hu).not_gt⟩
  rw [tokensBefore, List.filter_append, List.filter_eq_self.2, List.filter_eq_nil_iff.2]
  · rw [List.append_nil]
  · simpa using hlater
  · simpa using fun u hu => hbefore u hu t List.mem_cons_self

theorem eq_of_offset_eq {before after : List Located} {t u : Located}
    (h : (before ++ t :: after).Pairwise fun t u => t.offset < u.offset)
    (hu : u ∈ before ++ t :: after) (heq : u.offset = t.offset) : u = t := by
  obtain ⟨-, hafter, hbefore⟩ := List.pairwise_append.1 h
  obtain hu | hu := List.mem_append.1 hu
  · exact absurd heq (hbefore u hu t List.mem_cons_self).ne
  · obtain rfl | hu := List.mem_cons.1 hu
    · rfl
    · exact absurd heq (List.rel_of_pairwise_cons hafter hu).ne'

theorem tokensBefore_end {source : String} {located : List Located}
    (h : Token.Covers 0 source.toList located) :
    (∀ t ∈ located, t.offset < source.utf8ByteSize) ∧
      tokensBefore located source.utf8ByteSize = located.map (·.token) := by
  have hlt : ∀ t ∈ located, t.offset < source.utf8ByteSize := by
    intro t ht
    obtain ⟨before, after, hsource, hoffset, hpos⟩ := h.exists_append ht
    rw [← String.utf8Len_toList, hsource, String.utf8Len_append]
    omega
  refine ⟨hlt, ?_⟩
  rw [tokensBefore, List.filter_eq_self.2]
  simpa using hlt

theorem readText_pinpoints (hviable : ∀ state, Viable step finish state) {source : String}
    {located : List Located} (hscan : Token.scan source = .ok located) {e : ParseError}
    (h : readText step finish start source = .error e) :
    Pinpoints (readText step finish start) source located e.offset := by
  have hcovers := Token.covers_of_scanFrom hscan
  have hspells : ∀ {taken}, taken ⊆ located →
      ∀ t ∈ taken.map (·.token), ∃ lexeme, Spells lexeme t := by
    intro taken htaken
    simpa using fun t ht => hcovers.spells (htaken ht)
  unfold readText at h
  rw [hscan] at h
  obtain h | ⟨last, hlast, h⟩ := bind_eq_error.1 (show (feed step start located >>= _) = _ from h)
  · -- A token at fault: the reader could go on before it, and never with it.
    obtain ⟨before, t, after, mid, rfl, hrun, hfault, hoffset⟩ := feed_eq_error h
    have horder := hcovers.pairwise_offset
    rw [hoffset]
    refine ⟨.inl ⟨t, by simp, rfl⟩, ?_, fun u hu heq us => ?_⟩
    · rw [tokensBefore_of_pairwise horder]
      exact accepted_of_viable (hspells (List.subset_append_left _ _)) hrun (hviable mid)
    · obtain rfl := eq_of_offset_eq horder hu heq
      rw [tokensBefore_of_pairwise horder]
      exact not_accepted_of_fault hrun hfault
  · -- All tokens were taken, and only the end comes too early.
    have hoffset : e.offset = source.utf8ByteSize := by
      split at h
      · cases h
      · cases h
        rfl
    obtain ⟨hlt, hall⟩ := tokensBefore_end hcovers
    rw [hoffset]
    refine ⟨.inr rfl, ?_, fun u hu heq => absurd heq (hlt u hu).ne⟩
    rw [hall]
    exact accepted_of_viable (hspells (List.Subset.refl _)) (feed_eq_ok.1 hlast) (hviable last)

/-- A fault stands before a character of the text, or at its end. -/
theorem readText_isValid (hviable : ∀ state, Viable step finish state) {source : String}
    {e : ParseError} (h : readText step finish start source = .error e) :
    String.Pos.Raw.IsValid source ⟨e.offset⟩ := by
  cases hscan : Token.scan source with
  | error e' =>
    rw [readText, hscan] at h
    cases h
    exact isValid_of_scan_error hscan
  | ok located =>
    obtain ⟨t, ht, hoffset⟩ | hend := (readText_pinpoints hviable hscan h).place
    · exact hoffset ▸ isValid_of_mem hscan ht
    · exact hend ▸ String.Pos.Raw.isValid_rawEndPos

end Place

/-- Scanned text is divided into white space and tokens at increasing offsets; a fault of a
reader is placed at the first token with which no text could be right, or else at the end; and
every fault, of scanning as of reading, is placed between two characters or at an end. -/
theorem faults_pinpointed (source : String) :
    (∀ located, Token.scan source = .ok located →
      Token.Covers 0 source.toList located ∧
      (located.Pairwise fun t u => t.offset < u.offset) ∧
      (∀ t ∈ located, String.Pos.Raw.IsValid source ⟨t.offset⟩) ∧
      (∀ e, Expr.parse source = .error e → Pinpoints Expr.parse source located e.offset) ∧
      ∀ e, Assignment.parseAll source = .error e →
        Pinpoints Assignment.parseAll source located e.offset) ∧
    ∀ e, Token.scan source = .error e ∨ Expr.parse source = .error e ∨
        Assignment.parseAll source = .error e →
      String.Pos.Raw.IsValid source ⟨e.offset⟩ ∧ e.offset ≤ source.utf8ByteSize := by
  refine ⟨fun located hscan => ?_, fun e he => ?_⟩
  · have hcovers := Token.covers_of_scanFrom hscan
    refine ⟨hcovers, hcovers.pairwise_offset, fun t => isValid_of_mem hscan, fun e he => ?_, fun e he => ?_⟩
    · exact readText_pinpoints SingleReading.viable hscan he
    · exact readText_pinpoints BodyReading.viable hscan he
  · have hvalid : String.Pos.Raw.IsValid source ⟨e.offset⟩ := by
      obtain he | he | he := he
      · exact isValid_of_scan_error he
      · exact readText_isValid SingleReading.viable he
      · exact readText_isValid BodyReading.viable he
    exact ⟨hvalid, hvalid.le_utf8ByteSize⟩

namespace Sample

/-- A parenthesis stays open and a blank takes two bytes, but the fault is at the operator. -/
theorem faults_pinpointed_product :
    ∃ located, Token.scan "(a\u00a0+ * b" = .ok located ∧ located.map (·.offset) = [0, 1, 4, 6, 8] ∧
      Expr.parse "(a\u00a0+ * b" = .error ⟨6, .expectedValue⟩ ∧
      Pinpoints Expr.parse "(a\u00a0+ * b" located 6 := by
  have hparse : Expr.parse "(a\u00a0+ * b" = .error ⟨6, .expectedValue⟩ := rfl
  refine ⟨_, rfl, rfl, hparse, ?_⟩
  exact ((faults_pinpointed "(a\u00a0+ * b").1 _ rfl).2.2.2.1 _ hparse

end Sample

end FlightGen
