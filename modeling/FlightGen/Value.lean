import FlightGen.Text.Blank
import FlightGen.Decimal.Shortest

/-! Scalar values and their types. A number is spelled in two ways: as a message
shows it, and as a literal of the emitted code, which always reads as a double. -/

namespace FlightGen

open Binary64 (form integer?)

/-- What a record field, an attribute or an expression holds. -/
inductive Value where
  | number (x : Float)
  | bool (b : Bool)
deriving BEq, Inhabited, DecidableEq

namespace Value

def typeName : Value → String
  | number _ => "Number"
  | bool _ => "Bool"

def number? : Value → Option Float
  | number x => some x
  | bool _ => none

def bool? : Value → Option Bool
  | number _ => none
  | bool b => some b

end Value

def signed (negative : Bool) (text : String) : String :=
  if negative then "-" ++ text else text

/-- The nearest value of a signed 64-bit word. -/
def clamp64 (n : Int) : Int :=
  max (-0x8000000000000000) (min 0x7FFFFFFFFFFFFFFF n)

def boolText (b : Bool) : String :=
  if b then "true" else "false"

/-- Numbers that are no integer are spelled positionally with the fewest digits that
read back; of two such spellings equally close, the larger is taken. -/
def fractionText (negative : Bool) (bits : Nat) : String :=
  signed negative (Decimal.shortest .up bits).positional

/-- A number as messages show it: integers without a point, cut to 64 bits. -/
def numberText (x : Float) : String :=
  match form x with
  | .nan => "NaN"
  | .infinite negative => signed negative "inf"
  | .finite negative bits =>
    match integer? bits with
    | some n => toString (clamp64 (if negative then -(n : Int) else n))
    | none => fractionText negative bits

/-- A number as a literal of the emitted code: integers in full, with one decimal. -/
def literalText (x : Float) : String :=
  match form x with
  | .nan => "NaN"
  | .infinite negative => signed negative "inf"
  | .finite negative bits =>
    match integer? bits with
    | some n => signed negative (toString n ++ ".0")
    | none => fractionText negative bits

def Value.text : Value → String
  | .number x => numberText x
  | .bool b => boolText b

def Value.literal : Value → String
  | .number x => literalText x
  | .bool b => boolText b

/-- The types of a fixed-layout field. -/
inductive Scalar where
  | float
  | bool
deriving Repr, DecidableEq, Inhabited

namespace Scalar

def text : Scalar → String
  | float => "float"
  | bool => "bool"

/-- The value every field and attribute starts with. -/
def zero : Scalar → Value
  | float => .number 0.0
  | bool => .bool false

def accepts : Scalar → Value → Bool
  | float, .number _ => true
  | bool, .bool _ => true
  | _, _ => false

/-- The scalar type behind the name of a UML primitive type; case and surrounding
white space do not matter. -/
def ofTypeName? (name : String) : Option Scalar :=
  let name := (Text.trim name).toLower
  if name ∈ ["real", "double", "float", "f64", "f32", "integer", "int"] then some float
  else if name ∈ ["boolean", "bool"] then some bool
  else none

end Scalar

def Value.scalar : Value → Scalar
  | number _ => .float
  | bool _ => .bool

end FlightGen
