import FlightGen.Proofs.Expr.Grammar

/-! Recursive descent. A phrase of a layer is a phrase of the next tighter one with as many more as
operators of the layer join to it, down to single tokens and what stands in parentheses. The
reader, which takes one token at a time, comes to the same trees, the same faults and the same
offsets. -/

namespace FlightGen

/-! ### Descent -/

/-- A fault with the tokens that were left when it was found. -/
structure Stop where
  fault : ParseFault
  rest : List Located

/-- A fault stands at the first token that is left, or at the end of the text. -/
def Stop.error (source : String) (stop : Stop) : ParseError :=
  ⟨(stop.rest.head?.map (·.offset)).getD source.utf8ByteSize, stop.fault⟩

/-- The operator that a token stands for in front of an operand. -/
def Token.unary? : Token → Option UnaryOp
  | binary (.arith .subtract) => some .negate
  | bang => some .not
  | _ => none

theorem Token.eq_of_unary? {t : Token} {op : UnaryOp} (h : t.unary? = some op) : t = op.token := by
  unfold unary? at h
  split at h <;> cases h <;> rfl

/-- The operator by which a token joins phrases of a layer. -/
def Layer.joint? (layer : Layer) : Token → Option BinaryOp
  | .binary op => if op ∈ layer.operators then some op else none
  | _ => none

theorem Layer.joint?_eq_some {layer : Layer} {t : Token} {op : BinaryOp} :
    layer.joint? t = some op ↔ t = .binary op ∧ op ∈ layer.operators := by
  cases t with
  | binary op' =>
    simp only [joint?, Option.ite_none_right_eq_some, Option.some.injEq, Token.binary.injEq]
    constructor
    · rintro ⟨h, rfl⟩
      exact ⟨rfl, h⟩
    · rintro ⟨rfl, h⟩
      exact ⟨h, rfl⟩
  | _ => simp [joint?]

theorem Layer.strength_lt_next {layer : Layer} (h : layer.strength < UnaryOp.precedence) :
    layer.strength < layer.next.strength :=
  (@strength_next layer .unary h).1

namespace Descent

/-- What is left of some tokens when at least one of them is taken. -/
abbrev Rest (ts : List Located) := {rest : List Located // rest.length < ts.length}

/-- Takes the parenthesis at the end of a group. -/
def close : (ts : List Located) → Except Stop (Rest ts)
  | ⟨_, .closeParen⟩ :: ts => .ok ⟨ts, Nat.lt_succ_self _⟩
  | ts => .error ⟨.expectedClose, ts⟩

mutual

def primary : (ts : List Located) → Except Stop (Expr × Rest ts)
  | [] => .error ⟨.endOfInput, []⟩
  | t :: ts =>
    match t.token with
    | .number x => .ok (.literal (.number x), ⟨ts, Nat.lt_succ_self _⟩)
    | .word name => .ok (Reading.leaf name, ⟨ts, Nat.lt_succ_self _⟩)
    | .openParen => do
      let (e, rest) ← phrase .disjunction ts
      let rest' ← close rest
      return (e, ⟨rest', Nat.lt_succ_of_lt (rest'.2.trans rest.2)⟩)
    | _ => .error ⟨.expectedValue, t :: ts⟩
termination_by ts => (ts.length, 0)

def unary : (ts : List Located) → Except Stop (Expr × Rest ts)
  | [] => primary []
  | t :: ts =>
    match t.token.unary? with
    | some op => do
      let (e, rest) ← unary ts
      return (.unary op e, ⟨rest, Nat.lt_succ_of_lt rest.2⟩)
    | none => primary (t :: ts)
termination_by ts => (ts.length, 1)

/-- Reads the longest phrase of a layer of binary operators. -/
def phrase (layer : Layer) (ts : List Located) : Except Stop (Expr × Rest ts) :=
  if _ : layer.strength < UnaryOp.precedence then do
    let (left, rest) ← phrase layer.next ts
    let (e, rest') ← join layer left rest
    return (e, ⟨rest', rest'.2.trans_lt rest.2⟩)
  else unary ts
termination_by (ts.length, 2 + (UnaryOp.precedence - layer.strength))
decreasing_by
  · have hnext := Layer.strength_lt_next ‹_›
    exact Prod.Lex.right _ (by omega)
  · exact Prod.Lex.left _ _ rest.2
  · exact Prod.Lex.right _ (by omega)

/-- Joins phrases to `left` as long as operators of the layer follow. -/
def join (layer : Layer) (left : Expr) :
    (ts : List Located) → Except Stop (Expr × {rest : List Located // rest.length ≤ ts.length})
  | [] => .ok (left, ⟨[], Nat.le_refl _⟩)
  | t :: ts =>
    match layer.joint? t.token with
    | some op => do
      let (right, rest) ← phrase layer.next ts
      let (e, rest') ← join layer (.binary op left right) rest
      return (e, ⟨rest', (rest'.2.trans rest.2.le).trans (Nat.le_succ _)⟩)
    | none => .ok (left, ⟨t :: ts, Nat.le_refl _⟩)
termination_by ts => (ts.length, 0)

end

def skip (ts : List Located) : List Located :=
  ts.dropWhile (·.token.isSeparator)

theorem length_skip_le (ts : List Located) : (skip ts).length ≤ ts.length :=
  (List.dropWhile_sublist _).length_le

theorem ne_separator_of_skip {ts rest : List Located} {t : Located} (h : skip ts = t :: rest) :
    t.token ≠ .separator := by
  have hhead := List.head?_dropWhile_not (·.token.isSeparator) ts
  rw [← skip, h] at hhead
  intro hseparator
  simp [hseparator, Token.isSeparator] at hhead

/-- Takes the end of the text. -/
def conclude (e : Expr) : List Located → Except Stop Expr
  | [] => .ok e
  | ts => .error ⟨.trailingInput, ts⟩

/-- Reads an expression between separators, which is all that there is. -/
def expression (ts : List Located) : Except Stop Expr := do
  let (e, rest) ← phrase .disjunction (skip ts)
  conclude e (skip rest)

/-- Passes the separators after an assignment, of which there is one at least unless the text
ends there. -/
def separate : (ts : List Located) → Except Stop {rest : List Located // rest.length ≤ ts.length}
  | [] => .ok ⟨[], Nat.le_refl _⟩
  | t :: ts =>
    if t.token.isSeparator then .ok ⟨skip ts, (length_skip_le ts).trans (Nat.le_succ _)⟩
    else .error ⟨.expectedSeparator, t :: ts⟩

theorem skip_separate {ts : List Located} {rest : {rest : List Located // rest.length ≤ ts.length}}
    (h : separate ts = .ok rest) : skip rest = rest := by
  cases ts with
  | nil =>
    cases h
    rfl
  | cons t ts =>
    rw [separate] at h
    split at h <;> cases h
    exact List.dropWhile_idempotent _ ts

/-- Reads assignments up to the end. -/
def statements : List Located → Except Stop (List Assignment)
  | [] => .ok []
  | ⟨_, .word target⟩ :: ⟨_, .assign⟩ :: ts => do
    let (value, rest) ← phrase .disjunction ts
    let rest' ← separate rest
    let items ← statements rest'
    return ⟨target, value⟩ :: items
  | ⟨_, .word target⟩ :: ts => .error ⟨.expectedAssign target, ts⟩
  | ts => .error ⟨.expectedTarget, ts⟩
termination_by ts => ts.length
decreasing_by
  exact Nat.lt_succ_of_lt (Nat.lt_succ_of_lt (rest'.2.trans_lt rest.2))

/-- Reads a text from its tokens. -/
def text {α : Type} (read : List Located → Except Stop α) (source : String) :
    Except ParseError α := do
  let tokens ← Token.scan source
  (read tokens).mapError (·.error source)

end Descent

/-! ### The reader as a whole -/

open FlightGen.Frame (Await collapse collapse_of_await)

namespace Reading

/-- Feeds tokens to the reader up to the end of the expression. -/
def run : Reading → List Located → Except Stop (Expr × List Located)
  | state, [] =>
    match state.finish with
    | .ok e => .ok (e, [])
    | .error fault => .error ⟨fault, []⟩
  | state, t :: ts =>
    match state.step t.token with
    | .next state => run state ts
    | .ended e => .ok (e, t :: ts)
    | .fault fault => .error ⟨fault, t :: ts⟩

/-- How tightly the next token binds what stands before it. -/
def pull : List Located → Nat
  | ⟨_, .binary op⟩ :: _ => op.precedence
  | _ => 0

/-- After an operand, all that matters is what the next token completes. -/
theorem run_operator_congr {frames frames' : List Frame} {e e' : Expr} {ts : List Located}
    (h : collapse (pull ts) frames e = collapse (pull ts) frames' e') :
    (operator frames e).run ts = (operator frames' e').run ts := by
  cases ts with
  | nil =>
    rw [pull] at h
    · rw [run, run, finish, finish, complete?, complete?, h]
    · simp
  | cons t ts =>
    obtain ⟨offset, token⟩ := t
    cases token <;> simp only [pull] at h <;> simp only [run, step, h]

/-- A token pulls like some layer, or not at all. -/
theorem pull_eq (ts : List Located) : pull ts = 0 ∨ ∃ layer : Layer, ∃ offset op rest,
    ts = ⟨offset, .binary op⟩ :: rest ∧ op ∈ layer.operators ∧ pull ts = layer.strength := by
  unfold pull
  split
  · rename_i offset op rest
    obtain ⟨layer, hop⟩ := Layer.exists_mem_operators op
    exact .inr ⟨layer, offset, op, rest, rfl, hop, Layer.precedence_of_mem hop⟩
  · exact .inl rfl

theorem pull_lt_unary (ts : List Located) : pull ts < UnaryOp.precedence := by
  obtain h | ⟨layer, _, _, _, _, hop, h⟩ := pull_eq ts
  · rw [h]
    decide
  · exact h ▸ (Layer.strength_lt_next_of_mem hop).2

/-- What does not pull as tightly as the next layer pulls no tighter than this one. -/
theorem pull_le {layer : Layer} {ts : List Located} (h : pull ts < layer.next.strength) :
    pull ts ≤ layer.strength := by
  obtain hzero | ⟨layer', -, -, -, -, -, hpull⟩ := pull_eq ts
  · exact hzero ▸ Nat.zero_le _
  · rw [hpull] at h ⊢
    by_contra hlt
    exact absurd h (Layer.strength_next (not_le.1 hlt)).2.not_gt

end Reading

namespace Descent

open Reading (operand operator pull pull_lt_unary pull_le pull_eq run_operator_congr)

/-- The reader comes to what a descent finds, whatever waits for the phrase. -/
inductive Tracks (layer : Layer) (start : List Frame → Reading) (ts : List Located)
    {P : List Located → Prop} : Except Stop (Expr × {rest : List Located // P rest}) → Prop
  | stopped {stop : Stop}
      (h : ∀ frames, Await layer.strength frames → (start frames).run ts = .error stop) :
      Tracks layer start ts (.error stop)
  | found {e : Expr} {rest : {rest : List Located // P rest}} (hpull : pull rest < layer.strength)
      (h : ∀ frames, Await layer.strength frames →
        (start frames).run ts = (operator frames e).run rest) :
      Tracks layer start ts (.ok (e, rest))

section

variable {layer layer' : Layer} {start start' : List Frame → Reading} {ts us : List Located}
  {P Q : List Located → Prop}

/-- A descent goes on after another, which may be enclosed in frames of its own. -/
theorem Tracks.bind {x : Except Stop (Expr × {rest : List Located // P rest})}
    {f : Expr × {rest : List Located // P rest} →
      Except Stop (Expr × {rest : List Located // Q rest})}
    (hx : Tracks layer' start' us x) (wrap : List Frame → List Frame)
    (hstart : ∀ frames, Await layer.strength frames → Await layer'.strength (wrap frames) ∧
      (start frames).run ts = (start' (wrap frames)).run us)
    (hf : ∀ (e : Expr) (rest : {rest : List Located // P rest}), pull rest < layer'.strength →
      Tracks layer (fun frames => operator (wrap frames) e) rest (f (e, rest))) :
    Tracks layer start ts (x >>= f) := by
  cases hx with
  | stopped h =>
    refine .stopped fun frames hframes => ?_
    obtain ⟨hwrap, hrun⟩ := hstart frames hframes
    rw [hrun, h _ hwrap]
  | @found e rest hpull h =>
    have hrun (frames : List Frame) (hframes : Await layer.strength frames) :
        (start frames).run ts = (operator (wrap frames) e).run rest := by
      obtain ⟨hwrap, hrun⟩ := hstart frames hframes
      rw [hrun, h _ hwrap]
    have hnext := hf e rest hpull
    change Tracks layer start ts (f (e, rest))
    generalize f (e, rest) = y at hnext ⊢
    cases hnext with
    | stopped h => exact .stopped fun frames hframes => (hrun frames hframes).trans (h frames hframes)
    | found hpull h =>
      exact .found hpull fun frames hframes => (hrun frames hframes).trans (h frames hframes)

end

/-- All readers track the tokens. -/
structure Tracked (ts : List Located) : Prop where
  unary : Tracks .unary operand ts (unary ts)
  phrase : ∀ layer : Layer, layer.strength ≤ UnaryOp.precedence →
    Tracks layer operand ts (phrase layer ts)
  join : ∀ (layer : Layer) (left : Expr), layer.strength < UnaryOp.precedence →
    pull ts < layer.next.strength → Tracks layer (operator · left) ts (join layer left ts)

theorem not_lt_pull (offset : Nat) (op : BinaryOp) (ts : List Located) :
    ¬ pull (⟨offset, .binary op⟩ :: ts) < Layer.disjunction.strength := by
  obtain ⟨layer, hop⟩ := Layer.exists_mem_operators op
  rw [pull, Layer.precedence_of_mem hop]
  exact Nat.not_lt.2 layer.strength_pos

theorem tracks_close {ts us : List Located} (e : Expr) (hlength : ts.length < us.length)
    (hpull : pull ts < Layer.disjunction.strength) :
    Tracks .unary (fun frames => operator (.group :: frames) e) ts (do
      let rest ← close ts
      return (e, (⟨rest, rest.2.trans hlength⟩ : Rest us))) := by
  cases ts with
  | nil => exact .stopped fun frames _ => rfl
  | cons t ts =>
    obtain ⟨offset, token⟩ := t
    cases token with
    | binary op => exact absurd hpull (not_lt_pull offset op ts)
    | closeParen => exact .found (pull_lt_unary _) fun frames _ => rfl
    | _ => exact .stopped fun frames _ => rfl

section

variable {ts : List Located} (ih : ∀ us : List Located, us.length < ts.length → Tracked us)
include ih

/-- A sign in front of a phrase is taken before it comes to a primary one. -/
theorem tracks_primary (h : ∀ t ∈ ts.head?, t.token.unary? = none) :
    Tracks .unary operand ts (primary ts) := by
  cases ts with
  | nil =>
    rw [primary]
    exact .stopped fun frames _ => rfl
  | cons t ts =>
    obtain ⟨offset, token⟩ := t
    have hunary : token.unary? = none := h _ rfl
    rw [primary]
    cases token with
    | number x => exact .found (pull_lt_unary _) fun frames _ => rfl
    | word name => exact .found (pull_lt_unary _) fun frames _ => rfl
    | openParen =>
      have hinner := (ih ts (Nat.lt_succ_self _)).phrase .disjunction (by decide)
      refine hinner.bind (.group :: ·) (fun frames _ => ⟨trivial, rfl⟩) fun e rest hpull => ?_
      exact tracks_close e (Nat.lt_succ_of_lt rest.2) hpull
    | binary op =>
      refine .stopped fun frames _ => ?_
      have hstep : (operand frames).step (.binary op) = .fault .expectedValue := by
        unfold Token.unary? at hunary
        unfold Reading.step
        grind
      simp only [Reading.run, hstep]
    | bang => cases hunary
    | assign | closeParen | separator => exact .stopped fun frames _ => rfl

theorem tracks_unary : Tracks .unary operand ts (unary ts) := by
  cases ts with
  | nil =>
    rw [unary]
    exact tracks_primary ih (by simp)
  | cons t ts =>
    rw [unary]
    split
    · rename_i op hop
      have hstep (frames : List Frame) :
          (operand frames).step t.token = .next (operand (.unary op :: frames)) := by
        rw [Token.eq_of_unary? hop]
        cases op <;> rfl
      refine (ih ts (Nat.lt_succ_self _)).unary.bind (.unary op :: ·) (fun frames _ => ?_)
        fun e rest hpull => ?_
      · refine ⟨le_refl _, ?_⟩
        rw [Reading.run, hstep]
      · exact .found hpull fun frames _ => run_operator_congr (by rw [collapse])
    · rename_i hnone
      exact tracks_primary ih (by simpa using hnone)

theorem tracks_phrase (layer : Layer) (hlayer : layer.strength ≤ UnaryOp.precedence) :
    Tracks layer operand ts (phrase layer ts) := by
  -- From the tightest layer to the loosest.
  induction hn : UnaryOp.precedence - layer.strength using Nat.strong_induction_on
    generalizing layer with
  | _ n ihn =>
    rw [phrase]
    split
    · rename_i hlt
      have hnext := @Layer.strength_next layer .unary hlt
      have htracks := ihn _ (by omega) layer.next hnext.2 rfl
      refine htracks.bind id (fun frames hframes => ⟨hframes.mono hnext.1.le, rfl⟩)
        fun left rest hpull => ?_
      refine ((ih rest rest.2).join layer left hlt hpull).bind id (fun frames hframes =>
        ⟨hframes, rfl⟩) fun e rest' hpull => ?_
      exact .found hpull fun frames _ => rfl
    · rename_i hle
      obtain rfl : layer = .unary := Layer.eq_of_strength_eq (hlayer.antisymm (not_lt.1 hle))
      exact tracks_unary ih

theorem tracks_join (layer : Layer) (left : Expr) (hlayer : layer.strength < UnaryOp.precedence)
    (hpull : pull ts < layer.next.strength) :
    Tracks layer (operator · left) ts (join layer left ts) := by
  cases ts with
  | nil =>
    rw [join]
    exact .found layer.strength_pos fun frames _ => rfl
  | cons t ts =>
    rw [join]
    split
    · rename_i op hop
      obtain ⟨htoken, hmem⟩ := Layer.joint?_eq_some.1 hop
      have hprec := Layer.precedence_of_mem hmem
      obtain ⟨hlt, hle⟩ := @Layer.strength_next layer .unary hlayer
      refine ((ih ts (Nat.lt_succ_self _)).phrase layer.next hle).bind (.binary left op :: ·)
        (fun frames hframes => ⟨hprec.trans_lt hlt, ?_⟩) fun right rest hpull => ?_
      · rw [Reading.run, htoken, Reading.step, collapse_of_await left hframes hlayer hprec.ge]
      · refine ((ih rest (Nat.lt_succ_of_lt rest.2)).join layer (.binary op left right) hlayer
          hpull).bind id (fun frames hframes => ⟨hframes, run_operator_congr ?_⟩)
          fun e rest' hpull' => .found hpull' fun frames _ => rfl
        rw [collapse, if_pos ((pull_le hpull).trans_eq hprec.symm), id]
    · rename_i hnone
      refine .found ?_ fun frames _ => rfl
      refine (pull_le hpull).lt_of_ne fun heq => ?_
      obtain hzero | ⟨layer', offset, op, rest, hts, hmem, hstrength⟩ := pull_eq (t :: ts)
      · exact absurd (heq ▸ hzero) layer.strength_pos.ne'
      · cases hts
        cases Layer.eq_of_strength_eq (heq.symm.trans hstrength)
        cases hnone.symm.trans (Layer.joint?_eq_some.2 ⟨rfl, hmem⟩)

end

theorem tracked (ts : List Located) : Tracked ts := by
  -- A reader calls others on what is left, or a tighter one on the same tokens.
  induction hn : ts.length using Nat.strong_induction_on generalizing ts with
  | _ n ih =>
    have ih (us : List Located) (h : us.length < ts.length) : Tracked us := ih _ (hn ▸ h) us rfl
    exact ⟨tracks_unary ih, tracks_phrase ih, tracks_join ih⟩

theorem run_operator_nil {e : Expr} {ts : List Located}
    (h : pull ts < Layer.disjunction.strength) : (operator [] e).run ts = .ok (e, ts) := by
  cases ts with
  | nil => rfl
  | cons t ts =>
    obtain ⟨offset, token⟩ := t
    cases token with
    | binary op => exact absurd h (not_lt_pull offset op ts)
    | _ => rfl

/-- Up to the end of an expression, the reader descends. -/
theorem run_operand (ts : List Located) :
    (operand []).run ts = (phrase .disjunction ts).map fun p => (p.1, p.2.1) := by
  have htracks := (tracked ts).phrase .disjunction (by decide)
  generalize phrase .disjunction ts = x at htracks ⊢
  cases htracks with
  | stopped h => exact h [] trivial
  | found hpull h => exact (h [] trivial).trans (run_operator_nil hpull)

end Descent

/-! ### Whole texts -/

/-- Feeds all tokens to a reader, up to the first that does not fit. -/
def exhaust {σ α : Type} (step : σ → Token → Except ParseFault σ)
    (finish : σ → Except ParseFault α) : σ → List Located → Except Stop α
  | state, [] => (finish state).mapError (⟨·, []⟩)
  | state, t :: ts =>
    match step state t.token with
    | .ok state => exhaust step finish state ts
    | .error fault => .error ⟨fault, t :: ts⟩

theorem readText_eq_text {σ α : Type} (step : σ → Token → Except ParseFault σ)
    (finish : σ → Except ParseFault α) (start : σ) (source : String) :
    readText step finish start source = Descent.text (exhaust step finish start) source := by
  unfold readText Descent.text
  refine congrArg (Token.scan source >>= ·) (funext fun ts => ?_)
  induction ts generalizing start with
  | nil =>
    rw [feed, exhaust]
    cases hfinish : finish start <;> simp only [bind, Except.bind, hfinish] <;> rfl
  | cons t ts ih =>
    rw [feed, exhaust]
    cases step start t.token with
    | ok state => exact ih state
    | error fault => rfl

open Descent

/-- A state that separators do not change passes over them. -/
theorem exhaust_skip {σ α : Type} {step : σ → Token → Except ParseFault σ}
    {finish : σ → Except ParseFault α} {state : σ} (h : step state .separator = .ok state)
    (ts : List Located) : exhaust step finish state ts = exhaust step finish state (skip ts) := by
  induction ts with
  | nil => rfl
  | cons t ts ih =>
    obtain ⟨offset, token⟩ := t
    cases token with
    | separator =>
      rw [exhaust, h]
      exact ih
    | _ => rfl

namespace SingleReading

theorem exhaust_before (ts : List Located) :
    exhaust step finish .before ts = exhaust step finish (.within (.operand [])) (skip ts) := by
  rw [exhaust_skip rfl]
  cases hskip : skip ts with
  | nil => rfl
  | cons t rest =>
    have hne := ne_separator_of_skip hskip
    obtain ⟨offset, token⟩ := t
    cases token with
    | separator => exact absurd rfl hne
    | _ => rfl

theorem exhaust_after (e : Expr) (ts : List Located) :
    exhaust step finish (.after e) ts = conclude e (skip ts) := by
  rw [exhaust_skip rfl]
  cases hskip : skip ts with
  | nil => rfl
  | cons t rest =>
    have hne := ne_separator_of_skip hskip
    obtain ⟨offset, token⟩ := t
    cases token with
    | separator => exact absurd rfl hne
    | _ => rfl

/-- What follows an expression is looked at once it has ended. -/
theorem exhaust_within (state : Reading) (ts : List Located) :
    exhaust step finish (.within state) ts =
      state.run ts >>= fun p => exhaust step finish (.after p.1) p.2 := by
  induction ts generalizing state with
  | nil =>
    rw [exhaust, finish, Reading.run]
    cases state.finish <;> rfl
  | cons t ts ih =>
    rw [exhaust, step, Reading.run]
    unfold stepWithin
    cases state.step t.token with
    | next state => exact ih state
    | fault fault => rfl
    | ended e =>
      obtain ⟨offset, token⟩ := t
      cases token <;> rfl

end SingleReading

/-- Reading an expression token by token is recursive descent. -/
theorem Expr.parse_eq_descent (source : String) :
    Expr.parse source = Descent.text Descent.expression source := by
  rw [parse, readText_eq_text]
  refine congrArg (Descent.text · source) (funext fun ts => ?_)
  rw [SingleReading.exhaust_before, SingleReading.exhaust_within, run_operand, expression]
  cases phrase .disjunction (skip ts) with
  | error stop => rfl
  | ok p => exact SingleReading.exhaust_after p.1 p.2.1

namespace BodyReading

theorem exhaust_value (finished : List Assignment) (name : String) (state : Reading)
    (ts : List Located) :
    exhaust step finish (.value finished name state) ts = (do
      let p ← state.run ts
      let rest ← separate p.2
      exhaust step finish (.between (⟨name, p.1⟩ :: finished)) rest) := by
  induction ts generalizing state with
  | nil =>
    rw [exhaust, finish, Reading.run]
    cases state.finish <;> rfl
  | cons t ts ih =>
    rw [exhaust, Reading.run]
    cases heffect : state.step t.token with
    | next state =>
      simp only [step, heffect]
      exact ih state
    | fault fault =>
      simp only [step, heffect]
      rfl
    | ended e =>
      obtain ⟨offset, token⟩ := t
      cases token <;> simp only [step, heffect]
      case separator => exact exhaust_skip rfl ts
      all_goals rfl

theorem exhaust_assignment (finished : List Assignment) (name : String) (ts : List Located) :
    exhaust step finish (.value finished name (.operand [])) ts = (do
      let p ← phrase .disjunction ts
      let rest ← separate p.2
      exhaust step finish (.between (⟨name, p.1⟩ :: finished)) rest) := by
  rw [exhaust_value, run_operand]
  cases phrase .disjunction ts <;> rfl

theorem exhaust_eq_statements (finished : List Assignment) (ts : List Located) :
    exhaust step finish (.between finished) ts =
      (statements (skip ts)).map (finished.reverse ++ ·) := by
  induction hn : ts.length using Nat.strong_induction_on generalizing finished ts with
  | _ n ih =>
    rw [exhaust_skip rfl]
    have hlength := length_skip_le ts
    have hne {t : Located} {rest : List Located} := @ne_separator_of_skip ts rest t
    generalize skip ts = us at hlength hne ⊢
    fun_cases statements us with
    | case1 => exact congrArg Except.ok (List.append_nil _).symm
    | case2 _ target _ us =>
      simp only [List.length_cons] at hlength
      refine (exhaust_assignment finished target us).trans ?_
      cases phrase .disjunction us with
      | error stop => rfl
      | ok p =>
        obtain ⟨value, rest⟩ := p
        change (separate rest >>= fun rest' => _) = Except.map _ (separate rest >>= fun rest' => _)
        cases hseparate : separate rest with
        | error stop => rfl
        | ok rest' =>
          have hrest := rest'.2.trans_lt rest.2
          have hmore := ih _ (by omega) (⟨target, value⟩ :: finished) rest' rfl
          rw [skip_separate hseparate] at hmore
          change exhaust step finish _ rest'.1 = Except.map _ (statements rest' >>= fun items => _)
          rw [hmore]
          cases statements rest' with
          | error stop => rfl
          | ok items => exact congrArg Except.ok (by simp)
    | case3 _ target us hassign =>
      cases us with
      | nil => rfl
      | cons t us =>
        obtain ⟨offset, token⟩ := t
        cases token with
        | assign => exact (hassign offset us rfl).elim
        | _ => rfl
    | case4 us hnil _ hword =>
      cases us with
      | nil => exact (hnil rfl).elim
      | cons t us =>
        obtain ⟨offset, token⟩ := t
        cases token with
        | word name => exact (hword offset name us rfl).elim
        | separator => exact absurd rfl (hne rfl)
        | _ => rfl

end BodyReading

/-- Reading an action body token by token is recursive descent. -/
theorem Assignment.parseAll_eq_descent (source : String) :
    Assignment.parseAll source = Descent.text (fun ts => statements (skip ts)) source := by
  rw [parseAll, readText_eq_text]
  refine congrArg (Descent.text · source) (funext fun ts => ?_)
  rw [BodyReading.exhaust_eq_statements]
  cases statements (skip ts) <;> rfl

end FlightGen
