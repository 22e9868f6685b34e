import FlightGen.Expr.Basic

/-! The value of an expression under a valuation of its variables. -/

namespace FlightGen

inductive EvalError where
  | unbound (name : String)
  | mismatch (operation : String) (expected : Scalar) (found : Value)
deriving DecidableEq

/-- The name messages give to the values of a scalar type. -/
def Scalar.valueName : Scalar → String
  | float => "Number"
  | bool => "Bool"

def EvalError.message : EvalError → String
  | unbound name => "variable '" ++ name ++ "' is not bound"
  | mismatch operation expected found =>
    "type mismatch during operation '" ++ operation ++ "': expected " ++ expected.valueName ++
      ", but found value '" ++ found.text ++ "'"

def ArithOp.apply : ArithOp → Float → Float → Float
  | add, x, y => x + y
  | subtract, x, y => x - y
  | multiply, x, y => x * y
  | divide, x, y => x / y

def OrderOp.apply : OrderOp → Float → Float → Bool
  | less, x, y => decide (x < y)
  | lessEqual, x, y => decide (x ≤ y)
  | greater, x, y => decide (y < x)
  | greaterEqual, x, y => decide (y ≤ x)

/-- The left operand that decides a logical operator by itself. -/
def LogicOp.decisive : LogicOp → Bool
  | and => false
  | or => true

/-- Two values as the numbers that `operation` needs. The first that is no number is
reported. -/
def asNumbers (operation : String) : Value → Value → Except EvalError (Float × Float)
  | .number x, .number y => .ok (x, y)
  | .number _, other => .error (.mismatch operation .float other)
  | other, _ => .error (.mismatch operation .float other)

def asBool (operation : String) : Value → Except EvalError Bool
  | .bool b => .ok b
  | other => .error (.mismatch operation .bool other)

def UnaryOp.apply : UnaryOp → Value → Except EvalError Value
  | negate, .number x => .ok (.number (-x))
  | negate, other => .error (.mismatch "-" .float other)
  | not, .bool b => .ok (.bool !b)
  | not, other => .error (.mismatch "!" .bool other)

/-- The value of an expression. The right operand of a logical operator is evaluated
only if the left one does not decide. -/
def Expr.eval (lookup : String → Option Value) : Expr → Except EvalError Value
  | literal v => .ok v
  | var name =>
    match lookup name with
    | some v => .ok v
    | none => .error (.unbound name)
  | unary op e => do
    op.apply (← e.eval lookup)
  | binary (.logic op) l r => do
    let left ← asBool op.symbol (← l.eval lookup)
    if left = op.decisive then return .bool left
    return .bool (← asBool op.symbol (← r.eval lookup))
  | binary .equal l r => do
    let x ← l.eval lookup
    let y ← r.eval lookup
    return .bool (x == y)
  | binary .notEqual l r => do
    let x ← l.eval lookup
    let y ← r.eval lookup
    return .bool (x != y)
  | binary (.order op) l r => do
    let x ← l.eval lookup
    let y ← r.eval lookup
    let (a, b) ← asNumbers op.symbol x y
    return .bool (op.apply a b)
  | binary (.arith op) l r => do
    let x ← l.eval lookup
    let y ← r.eval lookup
    let (a, b) ← asNumbers op.symbol x y
    return .number (op.apply a b)

end FlightGen
