import FlightGen.Value

/-! Expressions of transition guards and action bodies: trees, their infix text
with the fewest parentheses, and the variables they read. -/

namespace FlightGen

inductive ArithOp where
  | add
  | subtract
  | multiply
  | divide
deriving Repr, DecidableEq

inductive OrderOp where
  | less
  | lessEqual
  | greater
  | greaterEqual
deriving Repr, DecidableEq

inductive LogicOp where
  | and
  | or
deriving Repr, DecidableEq

inductive BinaryOp where
  | logic (op : LogicOp)
  | equal
  | notEqual
  | order (op : OrderOp)
  | arith (op : ArithOp)
deriving Repr, DecidableEq

def ArithOp.symbol : ArithOp → String
  | add => "+"
  | subtract => "-"
  | multiply => "*"
  | divide => "/"

def OrderOp.symbol : OrderOp → String
  | less => "<"
  | lessEqual => "<="
  | greater => ">"
  | greaterEqual => ">="

def LogicOp.symbol : LogicOp → String
  | and => "&&"
  | or => "||"

namespace BinaryOp

def symbol : BinaryOp → String
  | logic op => op.symbol
  | equal => "=="
  | notEqual => "!="
  | order op => op.symbol
  | arith op => op.symbol

/-- How tightly an operator binds. All of them associate to the left. -/
def precedence : BinaryOp → Nat
  | logic .or => 1
  | logic .and => 2
  | equal | notEqual => 4
  | order _ => 5
  | arith .add | arith .subtract => 6
  | arith .multiply | arith .divide => 7

def yieldsBool : BinaryOp → Bool
  | arith _ => false
  | _ => true

end BinaryOp

inductive UnaryOp where
  | negate
  | not
deriving Repr, DecidableEq

def UnaryOp.symbol : UnaryOp → String
  | negate => "-"
  | not => "!"

/-- The precedence of both unary operators, above every binary one. -/
def UnaryOp.precedence : Nat := 8

inductive Expr where
  | literal (value : Value)
  | var (name : String)
  | unary (op : UnaryOp) (operand : Expr)
  | binary (op : BinaryOp) (left right : Expr)
deriving BEq, Inhabited, DecidableEq

/-- One `target = value` of an action body. -/
structure Assignment where
  target : String
  value : Expr
deriving BEq, Inhabited, DecidableEq

namespace Expr

/-- How tightly the operator at the root binds. -/
def precedence : Expr → Nat
  | literal _ | var _ => 9
  | unary _ _ => UnaryOp.precedence
  | binary op _ _ => op.precedence

/-- Whether the operator at the root yields a boolean. -/
def isBoolean : Expr → Bool
  | literal (.bool _) => true
  | literal (.number _) => false
  | var _ => false
  | unary .not _ => true
  | unary .negate _ => false
  | binary op _ _ => op.yieldsBool

/-- The variables in the order of their occurrences, repetitions included. -/
def occurrences : Expr → List String
  | literal _ => []
  | var name => [name]
  | unary _ e => e.occurrences
  | binary _ l r => l.occurrences ++ r.occurrences

/-- The variables without repetition, in the order of their characters. -/
def vars (e : Expr) : List String :=
  e.occurrences.eraseDups.mergeSort (fun a b => decide (a ≤ b))

def rename (f : String → String) : Expr → Expr
  | literal v => literal v
  | var name => var (f name)
  | unary op e => unary op (e.rename f)
  | binary op l r => binary op (l.rename f) (r.rename f)

/-! ### Text -/

def parenthesize (needed : Bool) (text : String) : String :=
  if needed then "(" ++ text ++ ")" else text

/-- The text of an operand below an operator of precedence `outer`. A right operand
is put in parentheses already at equal precedence. -/
def renderUnder (spell : String → String) (outer : Nat) (right : Bool) (e : Expr) : String :=
  parenthesize (e.precedence < outer || (right && e.precedence == outer)) <|
    match e with
    | literal v => v.literal
    | var name => spell name
    | unary op operand => op.symbol ++ operand.renderUnder spell e.precedence false
    | binary op l r =>
      l.renderUnder spell e.precedence false ++ " " ++ op.symbol ++ " " ++
        r.renderUnder spell e.precedence true

/-- Infix text in which each variable is spelled by `spell`. -/
def render (spell : String → String) (e : Expr) : String :=
  e.renderUnder spell 0 false

def text (e : Expr) : String :=
  e.render id

end Expr

end FlightGen
