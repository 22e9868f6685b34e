import FlightGen.Decimal.Shortest

/-! JSON values and their compact text. An object keeps its members as they were
written; where its text is needed, the keys are sorted and the last member of a key
counts. -/

namespace FlightGen

inductive Json where
  | null
  | bool (b : Bool)
  /-- A number written without fraction and exponent that fits 64 bits. -/
  | whole (n : Int)
  | real (x : Float)
  | string (s : String)
  | array (items : List Json)
  | object (members : List (String × Json))
  /-- Well-formed text that denotes no value: a number beyond binary64, or text with an
  unpaired surrogate. -/
  | unusable
deriving Inhabited

namespace Json

mutual

/-- The number of nested arrays and objects. -/
def depth : Json → Nat
  | array items => depthItems items + 1
  | object members => depthMembers members + 1
  | _ => 0

def depthItems : List Json → Nat
  | [] => 0
  | j :: js => max j.depth (depthItems js)

def depthMembers : List (String × Json) → Nat
  | [] => 0
  | (_, j) :: ms => max j.depth (depthMembers ms)

end

mutual

/-- Whether every number and text in a value is usable. -/
def usable : Json → Bool
  | unusable => false
  | array items => usableItems items
  | object members => usableMembers members
  | _ => true

def usableItems : List Json → Bool
  | [] => true
  | j :: js => j.usable && usableItems js

def usableMembers : List (String × Json) → Bool
  | [] => true
  | (_, j) :: ms => j.usable && usableMembers ms

end

/-! ### Text -/

def hexDigit (n : Nat) : Char :=
  (Nat.toDigits 16 n).headD '0'

/-- Quotes, backslashes and control characters are escaped; all others stand for
themselves. -/
def escape (c : Char) : List Char :=
  if c = '"' then ['\\', '"']
  else if c = '\\' then ['\\', '\\']
  else if c = '\n' then ['\\', 'n']
  else if c = '\r' then ['\\', 'r']
  else if c = '\t' then ['\\', 't']
  else if c = '\x08' then ['\\', 'b']
  else if c = '\x0c' then ['\\', 'f']
  else if c.toNat < 0x20 then
    ['\\', 'u', '0', '0', hexDigit (c.toNat / 16), hexDigit (c.toNat % 16)]
  else [c]

def quote (s : String) : String :=
  String.ofList ('"' :: (s.toList.flatMap escape ++ ['"']))

/-- The power of ten behind a number, always with its sign. -/
def exponentText (exponent : Int) : String :=
  (if exponent < 0 then "e-" else "e+") ++ toString exponent.natAbs

/-- Numbers whose point stands at most sixteen places after the first digit or four
before it are written positionally, with a digit after the point; others with an
exponent. -/
def layout (d : Decimal) : String :=
  let digits := Nat.toDigits 10 d.digits
  let point := (digits.length : Int) + d.exponent
  if 0 ≤ d.exponent && point ≤ 16 then d.positional ++ ".0"
  else if -5 < point && point ≤ 16 then d.positional
  else
    let fraction := match digits.drop 1 with
      | [] => []
      | rest => '.' :: rest
    String.ofList (digits.take 1 ++ fraction) ++ exponentText (point - 1)

def realText (x : Float) : String :=
  match Binary64.form x with
  | .finite negative bits =>
    let text := if bits = 0 then "0.0" else layout (Decimal.shortest .toEven bits)
    if negative then "-" ++ text else text
  | _ => "null"

/-- The members with the last value of each key, in the order of the keys. -/
def sortMembers {α : Type} (members : List (String × α)) : List (String × α) :=
  let latest := members.foldl (fun kept m => (kept.filter (·.1 ≠ m.1)) ++ [m]) []
  latest.mergeSort (fun a b => decide (a.1 ≤ b.1))

mutual

def text : Json → String
  | null => "null"
  | bool b => if b then "true" else "false"
  | whole n => toString n
  | real x => realText x
  | string s => quote s
  | array items => "[" ++ ",".intercalate (textItems items) ++ "]"
  | object members =>
    let pairs := sortMembers (textMembers members)
    "\x7b" ++ ",".intercalate (pairs.map fun (k, t) => quote k ++ ":" ++ t) ++ "\x7d"
  | unusable => "null"

def textItems : List Json → List String
  | [] => []
  | j :: js => j.text :: textItems js

def textMembers : List (String × Json) → List (String × String)
  | [] => []
  | (k, j) :: ms => (k, j.text) :: textMembers ms

end

end Json

end FlightGen
