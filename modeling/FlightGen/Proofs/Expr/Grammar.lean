import Mathlib.Data.List.DropRight
import FlightGen.Expr.Parser
import FlightGen.Proofs.Fallible

/-! The grammar of expressions and of action bodies. Expressions are built in layers, one
for each strength of binding, and the reader accepts exactly the texts whose tokens the
grammar derives. -/

namespace FlightGen

/-! ### The grammar -/

/-- The layers of expressions, the loosest first. -/
inductive Layer where
  | disjunction
  | conjunction
  | equality
  | comparison
  | sum
  | product
  | unary
  | primary
deriving DecidableEq

/-- The next tighter layer. -/
def Layer.next : Layer → Layer
  | disjunction => conjunction
  | conjunction => equality
  | equality => comparison
  | comparison => sum
  | sum => product
  | product => unary
  | unary | primary => primary

/-- The binary operators that join the phrases of a layer. -/
def Layer.operators : Layer → List BinaryOp
  | disjunction => [.logic .or]
  | conjunction => [.logic .and]
  | equality => [.equal, .notEqual]
  | comparison => [.order .less, .order .lessEqual, .order .greater, .order .greaterEqual]
  | sum => [.arith .add, .arith .subtract]
  | product => [.arith .multiply, .arith .divide]
  | unary | primary => []

def UnaryOp.token : UnaryOp → Token
  | negate => .binary (.arith .subtract)
  | not => .bang

/-- The phrases of each layer, with the trees they stand for. An operator takes a phrase
of its own layer to the left and a tighter one to the right. -/
inductive Layer.Derives : Layer → List Token → Expr → Prop
  | next {layer : Layer} {ts : List Token} {e : Expr} :
    layer.next.Derives ts e → layer.Derives ts e
  | binary {layer : Layer} {op : BinaryOp} {ts us : List Token} {l r : Expr} :
    op ∈ layer.operators → layer.Derives ts l → layer.next.Derives us r →
      layer.Derives (ts ++ .binary op :: us) (.binary op l r)
  | unary {ts : List Token} {e : Expr} (op : UnaryOp) :
    Layer.unary.Derives ts e → Layer.unary.Derives (op.token :: ts) (.unary op e)
  | number (x : Float) : primary.Derives [.number x] (.literal (.number x))
  | yes : primary.Derives [.word "true"] (.literal (.bool true))
  | no : primary.Derives [.word "false"] (.literal (.bool false))
  | var {name : String} : name ≠ "true" → name ≠ "false" → primary.Derives [.word name] (.var name)
  | group {ts : List Token} {e : Expr} :
    disjunction.Derives ts e → primary.Derives (.openParen :: (ts ++ [.closeParen])) e

/-- Action bodies: assignments with separators between them, and any further separators. -/
inductive Body : List Token → List Assignment → Prop
  | nil : Body [] []
  | separator {ts : List Token} {items : List Assignment} :
    Body ts items → Body (.separator :: ts) items
  | last {ts : List Token} {e : Expr} (target : String) :
    Layer.disjunction.Derives ts e → Body (.word target :: .assign :: ts) [⟨target, e⟩]
  | item {ts us : List Token} {e : Expr} {items : List Assignment} (target : String) :
    Layer.disjunction.Derives ts e → Body us items →
      Body (.word target :: .assign :: (ts ++ .separator :: us)) (⟨target, e⟩ :: items)

namespace Token

def isSeparator : Token → Bool
  | separator => true
  | _ => false

/-- Tokens without the separators at both ends. -/
def trim (ts : List Token) : List Token :=
  (ts.dropWhile isSeparator).rdropWhile isSeparator

/-- A text reads as a sequence of tokens. -/
def Tokenizes (source : String) (ts : List Token) : Prop :=
  ∃ located, scan source = .ok located ∧ located.map (·.token) = ts

end Token

/-! ### Layers and precedence -/

namespace Layer

/-- How tightly the operators of a layer bind. -/
def strength : Layer → Nat
  | disjunction => 1
  | conjunction => 2
  | equality => 4
  | comparison => 5
  | sum => 6
  | product => 7
  | unary => UnaryOp.precedence
  | primary => UnaryOp.precedence + 1

theorem eq_of_strength_eq {layer layer' : Layer} (h : layer.strength = layer'.strength) :
    layer = layer' := by
  revert h
  cases layer <;> cases layer' <;> decide

theorem strength_next {layer layer' : Layer} (h : layer.strength < layer'.strength) :
    layer.strength < layer.next.strength ∧ layer.next.strength ≤ layer'.strength := by
  revert h
  cases layer <;> cases layer' <;> decide

theorem strength_pos (layer : Layer) : 0 < layer.strength := by
  cases layer <;> decide

theorem strength_le_next (layer : Layer) : layer.strength ≤ layer.next.strength := by
  cases layer <;> decide

theorem precedence_of_mem {layer : Layer} :
    ∀ {op : BinaryOp}, op ∈ layer.operators → op.precedence = layer.strength := by
  have h : ∀ op ∈ layer.operators, op.precedence = layer.strength := by cases layer <;> decide
  exact fun {op} => h op

theorem strength_lt_next_of_mem {layer : Layer} {op : BinaryOp} (h : op ∈ layer.operators) :
    layer.strength < layer.next.strength ∧ layer.strength < UnaryOp.precedence := by
  cases layer <;> first | decide | cases h

theorem exists_mem_operators (op : BinaryOp) : ∃ layer : Layer, op ∈ layer.operators := by
  cases op with
  | logic op => cases op with
    | and => exact ⟨conjunction, by decide⟩
    | or => exact ⟨disjunction, by decide⟩
  | equal => exact ⟨equality, by decide⟩
  | notEqual => exact ⟨equality, by decide⟩
  | order op => exact ⟨comparison, by cases op <;> decide⟩
  | arith op => cases op with
    | add => exact ⟨sum, by decide⟩
    | subtract => exact ⟨sum, by decide⟩
    | multiply => exact ⟨product, by decide⟩
    | divide => exact ⟨product, by decide⟩

/-- A phrase is also one of every looser layer. -/
theorem Derives.loosen {layer : Layer} {ts : List Token} {e : Expr} (h : layer.Derives ts e)
    (layer' : Layer) (hle : layer'.strength ≤ layer.strength) : layer'.Derives ts e := by
  induction hn : layer.strength - layer'.strength using Nat.strong_induction_on generalizing layer' with
  | _ n ih =>
    obtain heq | hlt := hle.eq_or_lt
    · exact eq_of_strength_eq heq ▸ h
    · obtain ⟨hnext, hle'⟩ := strength_next hlt
      exact .next (ih _ (by omega) layer'.next hle' rfl)

end Layer

/-! ### Reading derivable phrases

The reader need not have completed the operators of a phrase when it is through with its
tokens, but any later token that completes so much finds the tree of the phrase. -/

namespace Frame

/-- The frames wait for an operand that binds with this strength. -/
def Await (strength : Nat) : List Frame → Prop
  | unary _ :: _ => UnaryOp.precedence ≤ strength
  | binary _ op :: _ => op.precedence < strength
  | _ => True

theorem Await.mono {n n' : Nat} {frames : List Frame} (h : Await n frames) (hle : n ≤ n') :
    Await n' frames := by
  unfold Await at h ⊢
  split at h <;> grind

theorem collapse_of_await {n level : Nat} {frames : List Frame} (e : Expr) (h : Await n frames)
    (hn : n < UnaryOp.precedence) (hle : n ≤ level) : collapse level frames e = (frames, e) := by
  cases frames with
  | nil => rfl
  | cons frame frames =>
    cases frame with
    | group => rfl
    | unary op => exact absurd h hn.not_ge
    | binary l op => rw [collapse, if_neg (by have := h; unfold Await at this; omega)]

end Frame

namespace Reading

/-- The reader takes the tokens as part of one expression. -/
inductive Reads : Reading → List Token → Reading → Prop
  | nil (state : Reading) : Reads state [] state
  | cons {state next last : Reading} {t : Token} {ts : List Token} :
    state.step t = .next next → Reads next ts last → Reads state (t :: ts) last

theorem Reads.append {state mid last : Reading} {ts us : List Token} (h : Reads state ts mid)
    (h' : Reads mid us last) : Reads state (ts ++ us) last := by
  induction h with
  | nil => exact h'
  | cons hstep _ ih => exact .cons hstep (ih h')

theorem Reads.single {state last : Reading} {t : Token} (h : state.step t = .next last) :
    Reads state [t] last :=
  .cons h (.nil _)

open FlightGen.Frame (Await collapse collapse_of_await)

theorem reads_of_derives {layer : Layer} {ts : List Token} {e : Expr} (h : layer.Derives ts e)
    (frames : List Frame) (hframes : Await layer.strength frames) :
    ∃ frames' e', Reads (operand frames) ts (operator frames' e') ∧
      ∀ level ≤ layer.strength, collapse level frames' e' = collapse level frames e := by
  induction h generalizing frames with
  | next h ih =>
    obtain ⟨frames', e', hreads, hcollapse⟩ := ih frames (hframes.mono (Layer.strength_le_next _))
    exact ⟨frames', e', hreads, fun level hle => hcollapse level (hle.trans (Layer.strength_le_next _))⟩
  | @binary layer op ts us l r hop hl hr ihl ihr =>
    obtain ⟨hlt, hunary⟩ := Layer.strength_lt_next_of_mem hop
    have hprec := Layer.precedence_of_mem hop
    obtain ⟨frames₁, e₁, hreads₁, hcollapse₁⟩ := ihl frames hframes
    obtain ⟨frames₂, e₂, hreads₂, hcollapse₂⟩ :=
      ihr (.binary l op :: frames) (by simpa [Await, hprec] using hlt)
    -- The operator binds no tighter than the left side, so it collapses exactly this side.
    have hstep : (operator frames₁ e₁).step (.binary op) = .next (operand (.binary l op :: frames)) := by
      rw [step, hcollapse₁ _ hprec.le, collapse_of_await l hframes hunary hprec.ge]
    refine ⟨frames₂, e₂, hreads₁.append (.cons hstep hreads₂), fun level hle => ?_⟩
    rw [hcollapse₂ level (hle.trans hlt.le), collapse, if_pos (hprec ▸ hle)]
  | unary op h ih =>
    obtain ⟨frames', e', hreads, hcollapse⟩ := ih (.unary op :: frames) (le_refl _)
    have hstep : (operand frames).step op.token = .next (operand (.unary op :: frames)) := by
      cases op <;> rfl
    exact ⟨frames', e', .cons hstep hreads, fun level hle => by rw [hcollapse level hle, collapse]⟩
  | number x => exact ⟨frames, _, .single rfl, fun _ _ => rfl⟩
  | yes => exact ⟨frames, _, .single rfl, fun _ _ => rfl⟩
  | no => exact ⟨frames, _, .single rfl, fun _ _ => rfl⟩
  | @var name htrue hfalse =>
    refine ⟨frames, .var name, .single ?_, fun _ _ => rfl⟩
    rw [step, leaf, if_neg htrue, if_neg hfalse]
  | @group ts e h ih =>
    -- An open parenthesis stops every collapse, whatever waits outside.
    obtain ⟨frames', e', hreads, hcollapse⟩ := ih (.group :: frames) trivial
    have hclose : (operator frames' e').step .closeParen = .next (operator frames e) := by
      simp only [step, hcollapse 0 (Nat.zero_le _), collapse]
    exact ⟨frames, _, .cons rfl (hreads.append (.single hclose)), fun _ _ => rfl⟩

/-- After a whole expression the reader is ready to end. -/
theorem reads_expression {ts : List Token} {e : Expr} (h : Layer.disjunction.Derives ts e) :
    ∃ frames e', Reads (operand []) ts (operator frames e') ∧ collapse 0 frames e' = ([], e) := by
  obtain ⟨frames, e', hreads, hcollapse⟩ := reads_of_derives h [] trivial
  exact ⟨frames, e', hreads, hcollapse 0 (Nat.zero_le _)⟩

end Reading

/-! ### What has been read

The tokens that the reader has taken are those of its frames, each with a phrase of its
layer to the left of its operator, and those of the operand after them. -/

namespace Frame

/-- The tokens that lead to these frames. -/
inductive Opens : List Frame → List Token → Prop
  | nil : Opens [] []
  | group {frames : List Frame} {ts : List Token} :
    Opens frames ts → Opens (group :: frames) (ts ++ [.openParen])
  | unary {frames : List Frame} {ts : List Token} (op : UnaryOp) :
    Opens frames ts → Opens (unary op :: frames) (ts ++ [op.token])
  | binary {frames : List Frame} {ts us : List Token} {layer : Layer} {op : BinaryOp} {l : Expr} :
    Opens frames ts → op ∈ layer.operators → Await layer.strength frames → layer.Derives us l →
      Opens (binary l op :: frames) (ts ++ us ++ [.binary op])

/-- The tokens before and within an operand, which binds at least with strength `level` and
stands right of the frames. -/
def Holds (level : Nat) (frames : List Frame) (e : Expr) (ts : List Token) : Prop :=
  ∃ before us, ∃ layer : Layer, ts = before ++ us ∧ Opens frames before ∧ level ≤ layer.strength ∧
    layer.Derives us e ∧ Await layer.strength frames

theorem precedence_lt_unary (op : BinaryOp) : op.precedence < UnaryOp.precedence := by
  obtain ⟨layer, hop⟩ := Layer.exists_mem_operators op
  exact Layer.precedence_of_mem hop ▸ (Layer.strength_lt_next_of_mem hop).2

theorem await_unary (frames : List Frame) : Await UnaryOp.precedence frames := by
  cases frames with
  | nil => trivial
  | cons frame frames =>
    cases frame with
    | group => trivial
    | unary op => exact le_refl _
    | binary l op => exact precedence_lt_unary op

theorem Holds.unary {level : Nat} (hlevel : level ≤ UnaryOp.precedence) {frames : List Frame}
    {op : UnaryOp} {e : Expr} {ts : List Token} (h : Holds level (.unary op :: frames) e ts) :
    Holds level frames (.unary op e) ts := by
  obtain ⟨_, us, layer, rfl, ⟨⟩ | ⟨⟩ | @⟨_, before, _, hopens⟩, -, hderives, hawait⟩ := h
  refine ⟨before, op.token :: us, .unary, by simp, hopens, hlevel, .unary op ?_, await_unary frames⟩
  exact hderives.loosen .unary hawait

theorem Holds.binary {level : Nat} {frames : List Frame} {op : BinaryOp} (hlevel : level ≤ op.precedence)
    {l e : Expr} {ts : List Token} (h : Holds level (.binary l op :: frames) e ts) :
    Holds level frames (.binary op l e) ts := by
  obtain ⟨_, us, layer, rfl, hopens, -, hderives, hawait⟩ := h
  cases hopens with
  | @binary _ before us' layer' _ _ hopens hop hawait' hl =>
    rw [Layer.precedence_of_mem hop] at hlevel
    have hlt : layer'.strength < layer.strength := Layer.precedence_of_mem hop ▸ hawait
    refine ⟨before, us' ++ .binary op :: us, layer', by simp, hopens, hlevel, ?_, hawait'⟩
    exact .binary hop hl (hderives.loosen _ (Layer.strength_next hlt).2)

/-- Completing frames keeps the tokens, and what is left open binds less tightly. -/
theorem collapse_holds {level : Nat} (hlevel : level ≤ UnaryOp.precedence) {frames : List Frame}
    {e : Expr} {ts : List Token} (h : Holds level frames e ts) :
    Holds level (collapse level frames e).1 (collapse level frames e).2 ts ∧
      Await level (collapse level frames e).1 := by
  fun_induction collapse level frames e with
  | case1 op frames e ih => exact ih (h.unary hlevel)
  | case2 l op frames e hle ih => exact ih (h.binary hle)
  | case3 l op frames e hle => exact ⟨h, not_le.1 hle⟩
  | case4 frames e hunary hbinary =>
    refine ⟨h, ?_⟩
    cases frames with
    | nil => trivial
    | cons frame frames =>
      cases frame with
      | group => trivial
      | unary op => exact (hunary _ _ rfl).elim
      | binary l op => exact (hbinary _ _ _ rfl).elim

theorem Holds.mono {level level' : Nat} {frames : List Frame} {e : Expr} {ts : List Token}
    (h : Holds level frames e ts) (hle : level' ≤ level) : Holds level' frames e ts := by
  obtain ⟨before, us, layer, hts, hopens, hlevel, hderives, hawait⟩ := h
  exact ⟨before, us, layer, hts, hopens, hle.trans hlevel, hderives, hawait⟩

/-- An operand between the tokens of its frames and its own. -/
theorem Holds.exists_derives {layer : Layer} {frames : List Frame} {e : Expr} {ts : List Token}
    (h : Holds layer.strength frames e ts) :
    ∃ before us, ts = before ++ us ∧ Opens frames before ∧ layer.Derives us e := by
  obtain ⟨before, us, layer', hts, hopens, hlevel, hderives, -⟩ := h
  exact ⟨before, us, hts, hopens, hderives.loosen layer hlevel⟩

theorem collapse_zero (frames : List Frame) (e : Expr) :
    collapse Layer.disjunction.strength frames e = collapse 0 frames e := by
  fun_induction collapse 0 frames e with
  | case1 op frames e ih => rw [collapse, ih]
  | case2 l op frames e hle ih =>
    obtain ⟨layer, hop⟩ := Layer.exists_mem_operators op
    rw [collapse, if_pos (Layer.precedence_of_mem hop ▸ Layer.strength_pos layer), ih]
  | case3 l op frames e hle => exact absurd (Nat.zero_le _) hle
  | case4 frames e hunary hbinary => rw [collapse]; exacts [hunary, hbinary]

end Frame

namespace Reading

open FlightGen.Frame (Opens Holds Await collapse collapse_holds collapse_zero)

/-- The tokens that the reader has taken. -/
def Spans : Reading → List Token → Prop
  | operand frames, ts => Opens frames ts
  | operator frames e, ts => Holds Layer.primary.strength frames e ts

theorem spans_operator {frames : List Frame} {e : Expr} {ts us : List Token} (h : Opens frames ts)
    (he : Layer.primary.Derives us e) : (operator frames e).Spans (ts ++ us) :=
  ⟨ts, us, .primary, rfl, h, le_refl _, he, (Frame.await_unary frames).mono (Nat.le_succ _)⟩

theorem derives_leaf (name : String) : Layer.primary.Derives [.word name] (leaf name) := by
  unfold leaf
  split_ifs with htrue hfalse
  · exact htrue ▸ .yes
  · exact hfalse ▸ .no
  · exact .var htrue hfalse

/-- The operand with all that waits for it up to an open parenthesis. -/
theorem Spans.collapse {frames outer : List Frame} {e inner : Expr} {ts : List Token}
    (h : (operator frames e).Spans ts) (hcollapse : collapse 0 frames e = (outer, inner)) :
    ∃ before us, ts = before ++ us ∧ Opens outer before ∧ Layer.disjunction.Derives us inner := by
  have hholds := (collapse_holds (by decide) (Holds.mono h (by decide : Layer.disjunction.strength ≤ _))).1
  rw [collapse_zero, hcollapse] at hholds
  exact hholds.exists_derives

theorem Spans.whole {frames : List Frame} {e whole : Expr} {ts : List Token}
    (h : (operator frames e).Spans ts) (hcollapse : Frame.collapse 0 frames e = ([], whole)) :
    Layer.disjunction.Derives ts whole := by
  obtain ⟨before, us, rfl, hopens, hderives⟩ := h.collapse hcollapse
  cases hopens
  exact hderives

/-- What the reader takes is part of the phrases it holds. -/
theorem Spans.step {state next : Reading} {ts : List Token} {t : Token} (h : state.Spans ts)
    (hstep : state.step t = .next next) : next.Spans (ts ++ [t]) := by
  unfold Reading.step at hstep
  split at hstep
  case h_1 frames x =>
    cases hstep
    exact spans_operator h (.number x)
  case h_2 frames name =>
    cases hstep
    exact spans_operator h (derives_leaf name)
  case h_3 frames =>
    cases hstep
    exact Opens.group h
  case h_4 frames =>
    cases hstep
    exact Opens.unary .negate h
  case h_5 frames =>
    cases hstep
    exact Opens.unary .not h
  case h_6 => cases hstep
  case h_7 frames e op =>
    cases hstep
    obtain ⟨layer, hop⟩ := Layer.exists_mem_operators op
    rw [Layer.precedence_of_mem hop]
    obtain ⟨hholds, hawait⟩ := collapse_holds (Layer.strength_lt_next_of_mem hop).2.le
      (Holds.mono h (by cases layer <;> decide))
    obtain ⟨before, us, rfl, hopens, hderives⟩ := hholds.exists_derives
    exact Opens.binary hopens hop hawait hderives
  case h_8 frames e _ =>
    split at hstep
    · cases hstep
    · rename_i hcollapse _
      cases hstep
      obtain ⟨before, us, rfl, hopens, hderives⟩ := h.collapse hcollapse
      cases hopens with
      | group hopens =>
        rw [List.append_assoc, List.append_assoc]
        exact spans_operator hopens (.group hderives)
    · cases hstep

theorem Spans.ended {state : Reading} {ts : List Token} {t : Token} {e : Expr} (h : state.Spans ts)
    (hstep : state.step t = .ended e) : Layer.disjunction.Derives ts e := by
  unfold Reading.step at hstep
  split at hstep
  case h_8 frames e _ =>
    split at hstep
    · rename_i hcollapse _
      cases hstep
      exact h.whole hcollapse
    · cases hstep
    · cases hstep
  all_goals cases hstep

theorem Spans.finish {state : Reading} {ts : List Token} {e : Expr} (h : state.Spans ts)
    (hfinish : state.finish = .ok e) : Layer.disjunction.Derives ts e := by
  cases state with
  | operand frames => cases hfinish
  | operator frames e' =>
    rw [Reading.finish, complete?] at hfinish
    split at hfinish
    · rename_i hwhole
      cases hfinish
      split at hwhole
      · rename_i hcollapse
        cases hwhole
        exact h.whole hcollapse
      · cases hwhole
    · cases hfinish

end Reading

end FlightGen
