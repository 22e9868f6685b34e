import FlightGen.Json.Basic

/-! Reading structured data from JSON. A record is written as an object, in which
unknown keys are ignored and known keys stand at most once, or as an array of its
fields in order, of which the last ones may be missing. -/

namespace FlightGen.Json

/-- Whether a value can hold a record with `n` fields. -/
def isRecord (n : Nat) : Json → Bool
  | array items => items.length ≤ n
  | object _ => true
  | _ => false

/-- The field at `position`, known by any of `keys`: the outer option fails if a key
stands twice, the inner one if the field is missing. -/
def field (position : Nat) (keys : List String) : Json → Option (Option Json)
  | array items => some items[position]?
  | object members =>
    match members.filter (·.1 ∈ keys) with
    | [] => some none
    | [m] => some (some m.2)
    | _ => none
  | _ => none

/-- A field that has to be there. -/
def required {α : Type} (read : Json → Option α) (position : Nat) (key : String) (j : Json) :
    Option α := do
  read (← ← j.field position [key])

/-- A field that may be missing. -/
def optional {α : Type} (read : Json → Option α) (missing : α) (position : Nat)
    (keys : List String) (j : Json) : Option α := do
  match ← j.field position keys with
  | some f => read f
  | none => some missing

def string? : Json → Option String
  | string s => some s
  | _ => none

def bool? : Json → Option Bool
  | bool b => some b
  | _ => none

/-- Null stands for an absent value. -/
def nullable {α : Type} (read : Json → Option α) : Json → Option (Option α)
  | null => some none
  | j => (read j).map some

def list {α : Type} (read : Json → Option α) : Json → Option (List α)
  | array items => items.mapM read
  | _ => none

/-- A number as binary64. -/
def float? : Json → Option Float
  | whole n => some (if n < 0 then -Decimal.toFloat ⟨n.natAbs, 0⟩ else Decimal.toFloat ⟨n.natAbs, 0⟩)
  | real x => some x
  | _ => none

/-- One of several names. A name may also be written as an object whose only member
has it as key, with an empty value. -/
def choice? {α : Type} (isEmpty : Json → Bool) (options : List (String × α)) : Json → Option α
  | string s => options.lookup s
  | object [(key, j)] => if isEmpty j then options.lookup key else none
  | _ => none

end FlightGen.Json
