import Mathlib.Data.List.DropRight
import FlightGen.Proofs.Expr.Grammar
import FlightGen.Proofs.Fallible

/-! Texts that the readers accept: an expression between separators, and the body of an
action. The tokens of a text decide, and they leave no choice of the tree. -/

namespace FlightGen

/-! ### Whole texts -/

theorem feed_eq_ok {σ : Type} {step : σ → Token → Except ParseFault σ} {state last : σ}
    {located : List Located} :
    feed step state located = .ok last ↔ (located.map (·.token)).foldlM step state = .ok last := by
  induction located generalizing state with
  | nil => simp [feed, pure, Except.pure]
  | cons t located ih =>
    rw [feed, List.map_cons, List.foldlM_cons]
    cases step state t.token with
    | ok next => exact ih
    | error fault => simp [bind, Except.bind]

theorem readText_eq_ok {σ α : Type} {step : σ → Token → Except ParseFault σ}
    {finish : σ → Except ParseFault α} {start : σ} {source : String} {ts : List Token} {a : α}
    (h : Token.Tokenizes source ts) :
    readText step finish start source = .ok a ↔
      ∃ last, ts.foldlM step start = .ok last ∧ finish last = .ok a := by
  obtain ⟨located, hscan, rfl⟩ := h
  unfold readText
  rw [hscan]
  show (feed step start located >>= _) = _ ↔ _
  rw [bind_eq_ok]
  refine exists_congr fun last => and_congr feed_eq_ok ?_
  cases finish last <;> simp

/-- What holds of the reader and the tokens it has taken, if each step keeps it. -/
theorem foldlM_invariant {σ : Type} {step : σ → Token → Except ParseFault σ}
    {P : σ → List Token → Prop}
    (hstep : ∀ state next ts t, P state ts → step state t = .ok next → P next (ts ++ [t]))
    {start last : σ} {ts us : List Token} (h : P start ts) (hrun : us.foldlM step start = .ok last) :
    P last (ts ++ us) := by
  induction us generalizing start ts with
  | nil =>
    cases pure_eq_ok.1 hrun
    rwa [List.append_nil]
  | cons t us ih =>
    rw [List.foldlM_cons] at hrun
    obtain ⟨next, hnext, hrun⟩ := bind_eq_ok.1 hrun
    rw [List.append_cons]
    exact ih (hstep start next ts t h hnext) hrun

theorem Layer.Derives.not_separator {layer : Layer} {ts : List Token} {e : Expr}
    (h : layer.Derives ts e) : ts ≠ [] ∧ ∀ t ∈ ts, t.isSeparator = false := by
  induction h with
  | next _ ih => exact ih
  | binary _ _ _ ihl ihr =>
    refine ⟨by simp, fun t ht => ?_⟩
    obtain ht | rfl | ht := by simpa using ht
    · exact ihl.2 t ht
    · rfl
    · exact ihr.2 t ht
  | unary op _ ih =>
    refine ⟨by simp, List.forall_mem_cons.2 ⟨by cases op <;> rfl, ih.2⟩⟩
  | number | yes | no | var => simp [Token.isSeparator]
  | group _ ih =>
    refine ⟨by simp, fun t ht => ?_⟩
    obtain rfl | ht | rfl := by simpa using ht
    · rfl
    · exact ih.2 t ht
    · rfl

namespace Token

theorem eq_separator {t : Token} (h : t.isSeparator = true) : t = separator := by
  cases t with
  | separator => rfl
  | _ => cases h

/-- Tokens between separators. -/
def Padded (core ts : List Token) : Prop :=
  ∃ lead trail, ts = lead ++ (core ++ trail) ∧ (∀ t ∈ lead, t.isSeparator = true) ∧
    ∀ t ∈ trail, t.isSeparator = true

theorem padded_trim (ts : List Token) : Padded (trim ts) ts := by
  refine ⟨ts.takeWhile isSeparator, (ts.dropWhile isSeparator).rtakeWhile isSeparator, ?_, ?_, ?_⟩
  · rw [trim, List.rdropWhile_append_rtakeWhile, List.takeWhile_append_dropWhile]
  · exact fun t => List.mem_takeWhile_imp
  · exact fun t => List.mem_rtakeWhile_imp

theorem Padded.trim_eq {core ts : List Token} (h : Padded core ts) (hne : core ≠ [])
    (hcore : ∀ t ∈ core, t.isSeparator = false) : trim ts = core := by
  obtain ⟨lead, trail, rfl, hlead, htrail⟩ := h
  have hstart : (core ++ trail).dropWhile isSeparator = core ++ trail := by
    cases core with
    | nil => exact absurd rfl hne
    | cons t core => simp [hcore t List.mem_cons_self]
  have hend : core.rdropWhile isSeparator = core :=
    List.rdropWhile_eq_self_iff.2 fun hl => by simp [hcore _ (List.getLast_mem hl)]
  have hcut : (core ++ trail).rdropWhile isSeparator = core.rdropWhile isSeparator := by
    rw [List.rdropWhile, List.reverse_append, List.dropWhile_append_of_pos (by simpa using htrail)]
    rfl
  rw [trim, List.dropWhile_append_of_pos hlead, hstart, hcut, hend]

theorem Padded.snoc {core ts : List Token} (h : Padded core ts) : Padded core (ts ++ [separator]) := by
  obtain ⟨lead, trail, rfl, hlead, htrail⟩ := h
  refine ⟨lead, trail ++ [separator], by simp, hlead, fun t ht => ?_⟩
  obtain ht | ht := List.mem_append.1 ht
  · exact htrail t ht
  · exact List.mem_singleton.1 ht ▸ rfl

end Token

/-! ### A single expression -/

namespace SingleReading

open Token (Padded)

/-- The tokens taken: those of the expression, between separators. -/
def Spans : SingleReading → List Token → Prop
  | before, ts => ∀ t ∈ ts, t.isSeparator = true
  | within state, ts => ∃ lead core, ts = lead ++ core ∧ (∀ t ∈ lead, t.isSeparator = true) ∧
      state.Spans core
  | after e, ts => ∃ core, Padded core ts ∧ Layer.disjunction.Derives core e

theorem spans_stepWithin {state : Reading} {next : SingleReading} {lead core : List Token} {t : Token}
    (hlead : ∀ u ∈ lead, u.isSeparator = true) (h : state.Spans core)
    (hstep : stepWithin state t = .ok next) : next.Spans (lead ++ core ++ [t]) := by
  unfold stepWithin at hstep
  split at hstep
  · rename_i hnext
    cases hstep
    exact ⟨lead, core ++ [_], List.append_assoc _ _ _, hlead, h.step hnext⟩
  · cases hstep
  · rename_i hended
    cases hstep
    exact ⟨core, Padded.snoc ⟨lead, [], by simp, hlead, by simp⟩, h.ended hended⟩
  · cases hstep

theorem Spans.step {state next : SingleReading} {ts : List Token} {t : Token} (h : state.Spans ts)
    (hstep : state.step t = .ok next) : next.Spans (ts ++ [t]) := by
  unfold SingleReading.step at hstep
  split at hstep
  · cases hstep
    exact List.forall_mem_append.2 ⟨h, by simp [Token.isSeparator]⟩
  · have hspans := spans_stepWithin h (show (Reading.operand []).Spans [] from .nil) hstep
    rwa [List.append_nil] at hspans
  · obtain ⟨lead, core, rfl, hlead, hcore⟩ := h
    exact spans_stepWithin hlead hcore hstep
  · cases hstep
    obtain ⟨core, hpadded, hderives⟩ := h
    exact ⟨core, hpadded.snoc, hderives⟩
  · cases hstep

theorem Spans.finish {state : SingleReading} {ts : List Token} {e : Expr} (h : state.Spans ts)
    (hfinish : state.finish = .ok e) : ∃ core, Padded core ts ∧ Layer.disjunction.Derives core e := by
  cases state with
  | before => cases hfinish
  | within state =>
    obtain ⟨lead, core, rfl, hlead, hcore⟩ := h
    exact ⟨core, ⟨lead, [], by simp, hlead, by simp⟩, hcore.finish hfinish⟩
  | after e' =>
    cases hfinish
    exact h

theorem stepWithin_next {state next : Reading} {t : Token} (h : state.step t = .next next) :
    stepWithin state t = .ok (within next) := by
  simp only [stepWithin, h]

theorem foldlM_within {state last : Reading} {ts : List Token} (h : state.Reads ts last) :
    ts.foldlM step (within state) = .ok (within last) := by
  induction h with
  | nil => rfl
  | cons hstep _ ih =>
    rw [List.foldlM_cons, step, stepWithin_next hstep]
    exact ih

theorem foldlM_before {lead core : List Token} {last : Reading}
    (hlead : ∀ t ∈ lead, t.isSeparator = true) (hne : core ≠ [])
    (h : (Reading.operand []).Reads core last) :
    (lead ++ core).foldlM step before = .ok (within last) := by
  induction lead with
  | nil =>
    cases h with
    | nil => exact absurd rfl hne
    | @cons _ next _ t ts hstep hrest =>
      have hfirst : step before t = .ok (within next) := by
        cases t with
        | separator => cases hstep
        | _ => exact stepWithin_next hstep
      rw [List.nil_append, List.foldlM_cons, hfirst]
      exact foldlM_within hrest
  | cons t lead ih =>
    obtain ⟨ht, hlead'⟩ := List.forall_mem_cons.1 hlead
    obtain rfl := Token.eq_separator ht
    exact ih hlead'

theorem foldlM_after {trail : List Token} (e : Expr) (htrail : ∀ t ∈ trail, t.isSeparator = true) :
    trail.foldlM step (after e) = .ok (after e) := by
  induction trail with
  | nil => rfl
  | cons t trail ih =>
    obtain ⟨ht, htrail'⟩ := List.forall_mem_cons.1 htrail
    obtain rfl := Token.eq_separator ht
    exact ih htrail'

theorem foldlM_trail {frames : List Frame} {e whole : Expr} {trail : List Token}
    (hcollapse : Frame.collapse 0 frames e = ([], whole)) (htrail : ∀ t ∈ trail, t.isSeparator = true) :
    ∃ last, trail.foldlM step (within (.operator frames e)) = .ok last ∧ last.finish = .ok whole := by
  cases trail with
  | nil =>
    refine ⟨_, rfl, ?_⟩
    simp only [finish, Reading.finish, Reading.complete?, hcollapse]
  | cons t trail =>
    obtain ⟨ht, htrail'⟩ := List.forall_mem_cons.1 htrail
    obtain rfl := Token.eq_separator ht
    have hstep : step (within (.operator frames e)) .separator = .ok (after whole) := by
      simp only [step, stepWithin, Reading.step, hcollapse]
    refine ⟨after whole, ?_, rfl⟩
    rw [List.foldlM_cons, hstep]
    exact foldlM_after whole htrail'

/-- The reader ends with exactly the tree of the tokens between the separators. -/
theorem run_iff_derives {ts : List Token} {e : Expr} :
    (∃ last, ts.foldlM step before = .ok last ∧ last.finish = .ok e) ↔
      Layer.disjunction.Derives (Token.trim ts) e := by
  constructor
  · rintro ⟨last, hrun, hfinish⟩
    have hstart : before.Spans [] := by simp [Spans]
    obtain ⟨core, hpadded, hderives⟩ :=
      (foldlM_invariant (fun _ _ _ _ => Spans.step) hstart hrun).finish hfinish
    obtain ⟨hne, hcore⟩ := hderives.not_separator
    rw [List.nil_append] at hpadded
    rwa [hpadded.trim_eq hne hcore]
  · intro h
    obtain ⟨lead, trail, hts, hlead, htrail⟩ := Token.padded_trim ts
    obtain ⟨frames, e', hreads, hcollapse⟩ := Reading.reads_expression h
    obtain ⟨last, hlast, hfinish⟩ := foldlM_trail hcollapse htrail
    refine ⟨last, ?_, hfinish⟩
    rw [hts, ← List.append_assoc, List.foldlM_append,
      foldlM_before hlead h.not_separator.1 hreads]
    exact hlast

end SingleReading

/-! ### Action bodies -/

namespace BodyReading

/-- Tokens of the finished assignments which any body may follow. -/
def Leads (finished : List Assignment) (ts : List Token) : Prop :=
  ∀ us items, Body us items → Body (ts ++ us) (finished.reverse ++ items)

/-- The tokens taken: those of the finished assignments, and of one under way. -/
def Spans : BodyReading → List Token → Prop
  | between finished, ts => Leads finished ts
  | target finished name, ts => ∃ lead, ts = lead ++ [.word name] ∧ Leads finished lead
  | value finished name state, ts => ∃ lead core, ts = lead ++ .word name :: .assign :: core ∧
      Leads finished lead ∧ state.Spans core

theorem Spans.step {state next : BodyReading} {ts : List Token} {t : Token} (h : state.Spans ts)
    (hstep : state.step t = .ok next) : next.Spans (ts ++ [t]) := by
  unfold BodyReading.step at hstep
  split at hstep
  · cases hstep
    intro us items hbody
    rw [List.append_assoc]
    exact h _ _ hbody.separator
  · cases hstep
    exact ⟨ts, rfl, h⟩
  · cases hstep
  · cases hstep
    obtain ⟨lead, rfl, hlead⟩ := h
    exact ⟨lead, [], by simp, hlead, .nil⟩
  · cases hstep
  · obtain ⟨lead, core, rfl, hlead, hcore⟩ := h
    split at hstep
    · rename_i hnext
      cases hstep
      exact ⟨lead, core ++ [_], by simp, hlead, hcore.step hnext⟩
    · cases hstep
    · rename_i hended
      cases hstep
      intro us items hbody
      simpa using hlead _ _ (Body.item _ (hcore.ended hended) hbody)
    · cases hstep

theorem Spans.finish {state : BodyReading} {ts : List Token} {items : List Assignment}
    (h : state.Spans ts) (hfinish : state.finish = .ok items) : Body ts items := by
  cases state with
  | between finished =>
    cases hfinish
    simpa using h _ _ .nil
  | target finished name => cases hfinish
  | value finished name state =>
    obtain ⟨lead, core, rfl, hlead, hcore⟩ := h
    obtain ⟨e, he, hfinish⟩ := bind_eq_ok.1 hfinish
    cases hfinish
    simpa using hlead _ _ (.last name (hcore.finish he))

theorem foldlM_value {state last : Reading} {ts : List Token} (h : state.Reads ts last)
    (finished : List Assignment) (name : String) :
    ts.foldlM step (value finished name state) = .ok (value finished name last) := by
  induction h with
  | nil => rfl
  | @cons state next last t ts hstep _ ih =>
    have hvalue : step (value finished name state) t = .ok (value finished name next) := by
      simp only [step, hstep]
    rw [List.foldlM_cons, hvalue]
    exact ih

theorem run_of_body {ts : List Token} {items : List Assignment} (h : Body ts items)
    (finished : List Assignment) :
    ∃ last, ts.foldlM step (between finished) = .ok last ∧
      last.finish = .ok (finished.reverse ++ items) := by
  induction h generalizing finished with
  | nil => exact ⟨_, rfl, by simp [finish]⟩
  | separator _ ih => exact ih finished
  | @last ts e name hderives =>
    obtain ⟨frames, e', hreads, hcollapse⟩ := Reading.reads_expression hderives
    refine ⟨_, foldlM_value hreads finished name, ?_⟩
    simp [finish, Reading.finish, Reading.complete?, hcollapse, bind, Except.bind, pure, Except.pure]
  | @item ts us e items name hderives _ ih =>
    obtain ⟨frames, e', hreads, hcollapse⟩ := Reading.reads_expression hderives
    obtain ⟨last, hlast, hfinish⟩ := ih (⟨name, e⟩ :: finished)
    have hstep : step (value finished name (.operator frames e')) .separator =
        .ok (between (⟨name, e⟩ :: finished)) := by
      simp only [step, Reading.step, hcollapse]
    refine ⟨last, ?_, by simpa using hfinish⟩
    show (ts ++ .separator :: us).foldlM step (value finished name (.operand [])) = _
    rw [List.foldlM_append, foldlM_value hreads, bind_eq_ok]
    refine ⟨_, rfl, ?_⟩
    rw [List.foldlM_cons, hstep]
    exact hlast

/-- The reader ends with exactly the assignments of the body. -/
theorem run_iff_body {ts : List Token} {items : List Assignment} :
    (∃ last, ts.foldlM step (between []) = .ok last ∧ last.finish = .ok items) ↔ Body ts items := by
  constructor
  · rintro ⟨last, hrun, hfinish⟩
    have hstart : (between []).Spans [] := fun _ _ h => h
    exact (foldlM_invariant (fun _ _ _ _ => Spans.step) hstart hrun).finish hfinish
  · exact fun h => run_of_body h []

end BodyReading

/-! ### Acceptance -/

theorem Layer.Derives.unique {layer : Layer} {ts : List Token} {e e' : Expr} (h : layer.Derives ts e)
    (h' : layer.Derives ts e') : e = e' := by
  have hread : ∀ {tree}, layer.Derives ts tree → ∃ last, ts.foldlM SingleReading.step .before = .ok last ∧
      last.finish = .ok tree := by
    intro tree htree
    obtain ⟨hne, hcore⟩ := htree.not_separator
    refine SingleReading.run_iff_derives.2 ?_
    rw [Token.Padded.trim_eq ⟨[], [], by simp, by simp, by simp⟩ hne hcore]
    exact htree.loosen .disjunction layer.strength_pos
  obtain ⟨last, hlast, hfinish⟩ := hread h
  obtain ⟨last', hlast', hfinish'⟩ := hread h'
  cases hlast.symm.trans hlast'
  cases hfinish.symm.trans hfinish'
  rfl

/-- The readers accept exactly what the grammar derives from the tokens of a text, and no
tokens stand for two trees. -/
theorem parse_iff_derives :
    (∀ source ts, Token.Tokenizes source ts →
      (∀ e, Expr.parse source = .ok e ↔ Layer.disjunction.Derives (Token.trim ts) e) ∧
      ∀ items, Assignment.parseAll source = .ok items ↔ Body ts items) ∧
    ∀ (layer : Layer) ts e e', layer.Derives ts e → layer.Derives ts e' → e = e' := by
  refine ⟨fun source ts h => ⟨fun e => ?_, fun items => ?_⟩, fun _ _ _ _ => Layer.Derives.unique⟩
  · exact (readText_eq_ok h).trans SingleReading.run_iff_derives
  · exact (readText_eq_ok h).trans BodyReading.run_iff_body

/-! ### A sample guard and a sample body -/

namespace Sample

open Token

def guardTokens : List Token :=
  [separator, word "low", binary (.arith .add), number 2.0, binary (.arith .multiply),
    binary (.arith .subtract), word "high", binary (.order .less), word "low",
    binary (.logic .and), bang, word "armed", separator]

def guardTree : Expr :=
  .binary (.logic .and)
    (.binary (.order .less)
      (.binary (.arith .add) (.var "low")
        (.binary (.arith .multiply) (.literal (.number 2.0)) (.unary .negate (.var "high"))))
      (.var "low"))
    (.unary .not (.var "armed"))

theorem tokenizes_guard : Tokenizes ";low + 2 * -high < low && !armed\n" guardTokens := by
  refine ⟨_, rfl, ?_⟩
  decide +kernel

theorem derives_guard : Layer.disjunction.Derives (trim guardTokens) guardTree := by
  have hvar : ∀ name, name ≠ "true" → name ≠ "false" → Layer.primary.Derives [word name] (.var name) :=
    fun _ => .var
  have hscaled : Layer.product.Derives
      [number 2.0, binary (.arith .multiply), binary (.arith .subtract), word "high"]
      (.binary (.arith .multiply) (.literal (.number 2.0)) (.unary .negate (.var "high"))) :=
    .binary (by decide) ((Layer.Derives.number 2.0).loosen _ (by decide))
      (.unary .negate ((hvar "high" (by decide) (by decide)).loosen _ (by decide)))
  have hsum := Layer.Derives.binary (by decide : BinaryOp.arith .add ∈ Layer.sum.operators)
    ((hvar "low" (by decide) (by decide)).loosen _ (by decide)) hscaled
  have hless := Layer.Derives.binary (by decide : BinaryOp.order .less ∈ Layer.comparison.operators)
    (hsum.loosen _ (by decide)) ((hvar "low" (by decide) (by decide)).loosen _ (by decide))
  have hnot := Layer.Derives.unary .not ((hvar "armed" (by decide) (by decide)).loosen .unary (by decide))
  have hand := Layer.Derives.binary (by decide : BinaryOp.logic .and ∈ Layer.conjunction.operators)
    (hless.loosen _ (by decide)) (hnot.loosen _ (by decide))
  exact hand.loosen .disjunction (by decide)

def bodyTokens : List Token :=
  [word "x", assign, word "y", separator, separator, word "y", assign, bang, word "x", separator]

theorem tokenizes_body : Tokenizes "x = y;\ny = !x;" bodyTokens := by
  refine ⟨_, rfl, ?_⟩
  decide +kernel

theorem body_tokens : Body bodyTokens [⟨"x", .var "y"⟩, ⟨"y", .unary .not (.var "x")⟩] := by
  have hvar : ∀ name, name ≠ "true" → name ≠ "false" → Layer.primary.Derives [word name] (.var name) :=
    fun _ => .var
  have hfirst := (hvar "y" (by decide) (by decide)).loosen .disjunction (by decide)
  have hsecond := (Layer.Derives.unary .not
    ((hvar "x" (by decide) (by decide)).loosen .unary (by decide))).loosen .disjunction (by decide)
  exact .item "x" hfirst (.separator (.item "y" hsecond .nil))

theorem parse_iff_derives_guard :
    Expr.parse ";low + 2 * -high < low && !armed\n" = .ok guardTree ∧
      Assignment.parseAll "x = y;\ny = !x;" =
        .ok [⟨"x", .var "y"⟩, ⟨"y", .unary .not (.var "x")⟩] ∧
      ∀ e, Layer.disjunction.Derives (trim guardTokens) e → e = guardTree :=
  ⟨((parse_iff_derives.1 _ _ tokenizes_guard).1 _).2 derives_guard,
    ((parse_iff_derives.1 _ _ tokenizes_body).2 _).2 body_tokens,
    fun e he => parse_iff_derives.2 _ _ e guardTree he derives_guard⟩

end Sample

end FlightGen
