import FlightGen.Expr.Token

/-! Expressions are read one token at a time. Between two tokens the reader holds
the operators and open parentheses that still wait for an operand to their right,
innermost first; a token that fits nowhere is reported where it stands. -/

namespace FlightGen

/-- A place around the operand being read. -/
inductive Frame where
  | group
  | unary (op : UnaryOp)
  | binary (left : Expr) (op : BinaryOp)

namespace Frame

/-- Completes the innermost frames whose operators bind at least as tightly as
`level`, up to an open parenthesis. -/
def collapse (level : Nat) : List Frame → Expr → List Frame × Expr
  | unary op :: frames, e => collapse level frames (.unary op e)
  | binary l op :: frames, e =>
    if level ≤ op.precedence then collapse level frames (.binary op l e)
    else (binary l op :: frames, e)
  | frames, e => (frames, e)

end Frame

/-- Where the reader is: before an operand, or after the operand `e`. -/
inductive Reading where
  | operand (frames : List Frame)
  | operator (frames : List Frame) (e : Expr)

/-- The effect of one token on the reader. `ended` says that a complete expression
stands before the token, which does not belong to it. -/
inductive Reading.Effect where
  | next (state : Reading)
  | ended (e : Expr)
  | fault (fault : ParseFault)

namespace Reading

/-- The leaf that a word stands for. -/
def leaf (name : String) : Expr :=
  if name = "true" then .literal (.bool true)
  else if name = "false" then .literal (.bool false)
  else .var name

/-- The expression read so far, unless a parenthesis is open. -/
def complete? (frames : List Frame) (e : Expr) : Option Expr :=
  match Frame.collapse 0 frames e with
  | ([], whole) => some whole
  | _ => none

def step : Reading → Token → Effect
  | operand frames, .number x => .next (operator frames (.literal (.number x)))
  | operand frames, .word name => .next (operator frames (leaf name))
  | operand frames, .openParen => .next (operand (.group :: frames))
  | operand frames, .binary (.arith .subtract) => .next (operand (.unary .negate :: frames))
  | operand frames, .bang => .next (operand (.unary .not :: frames))
  | operand _, _ => .fault .expectedValue
  | operator frames e, .binary op =>
    let (outer, left) := Frame.collapse op.precedence frames e
    .next (operand (.binary left op :: outer))
  | operator frames e, token =>
    match Frame.collapse 0 frames e, token with
    | ([], whole), _ => .ended whole
    | (.group :: outer, inner), .closeParen => .next (operator outer inner)
    | _, _ => .fault .expectedClose

/-- The expression that ends with the text. -/
def finish : Reading → Except ParseFault Expr
  | operand _ => .error .endOfInput
  | operator frames e =>
    match complete? frames e with
    | some whole => .ok whole
    | none => .error .expectedClose

end Reading

/-! ### A single expression -/

/-- Reading a text that holds one expression between separators. -/
inductive SingleReading where
  | before
  | within (state : Reading)
  | after (e : Expr)

namespace SingleReading

def stepWithin (state : Reading) (token : Token) : Except ParseFault SingleReading :=
  match state.step token, token with
  | .next state, _ => .ok (within state)
  | .fault f, _ => .error f
  | .ended e, .separator => .ok (after e)
  | .ended _, _ => .error .trailingInput

def step : SingleReading → Token → Except ParseFault SingleReading
  | before, .separator => .ok before
  | before, token => stepWithin (.operand []) token
  | within state, token => stepWithin state token
  | after e, .separator => .ok (after e)
  | after _, _ => .error .trailingInput

def finish : SingleReading → Except ParseFault Expr
  | before => .error .endOfInput
  | within state => state.finish
  | after e => .ok e

end SingleReading

/-! ### A list of assignments -/

/-- Reading the assignments of an action body, the finished ones last first. -/
inductive BodyReading where
  | between (finished : List Assignment)
  | target (finished : List Assignment) (name : String)
  | value (finished : List Assignment) (name : String) (state : Reading)

namespace BodyReading

def step : BodyReading → Token → Except ParseFault BodyReading
  | between finished, .separator => .ok (between finished)
  | between finished, .word name => .ok (target finished name)
  | between _, _ => .error .expectedTarget
  | target finished name, .assign => .ok (value finished name (.operand []))
  | target _ name, _ => .error (.expectedAssign name)
  | value finished name state, token =>
    match state.step token, token with
    | .next state, _ => .ok (value finished name state)
    | .fault f, _ => .error f
    | .ended e, .separator => .ok (between (⟨name, e⟩ :: finished))
    | .ended _, _ => .error .expectedSeparator

def finish : BodyReading → Except ParseFault (List Assignment)
  | between finished => .ok finished.reverse
  | target _ name => .error (.expectedAssign name)
  | value finished name state => do
    let e ← state.finish
    return (⟨name, e⟩ :: finished).reverse

end BodyReading

/-! ### Whole texts -/

/-- Feeds tokens to a reader and reports a fault at the token that caused it. -/
def feed {σ : Type} (step : σ → Token → Except ParseFault σ) :
    σ → List Located → Except ParseError σ
  | state, [] => .ok state
  | state, t :: ts =>
    match step state t.token with
    | .ok state => feed step state ts
    | .error fault => .error ⟨t.offset, fault⟩

/-- Reads a whole text; what is missing at its end is reported at its byte length. -/
def readText {σ α : Type} (step : σ → Token → Except ParseFault σ)
    (finish : σ → Except ParseFault α) (start : σ) (source : String) : Except ParseError α := do
  let tokens ← Token.scan source
  let state ← feed step start tokens
  match finish state with
  | .ok result => .ok result
  | .error fault => .error ⟨source.utf8ByteSize, fault⟩

/-- Reads one expression, such as a transition guard. -/
def Expr.parse (source : String) : Except ParseError Expr :=
  readText SingleReading.step SingleReading.finish .before source

/-- Reads the assignments of an action body. -/
def Assignment.parseAll (source : String) : Except ParseError (List Assignment) :=
  readText BodyReading.step BodyReading.finish (.between []) source

end FlightGen
