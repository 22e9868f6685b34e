import FlightGen.Json.Basic

/-! Tokens of JSON text. Numbers are read into a significand of 64 bits, whose
surplus digits are dropped, and then scaled once by a power of ten. -/

namespace FlightGen.Json

/-! ### Numbers -/

/-- Appends digits to a significand as long as it fits 64 bits, and gives back the
digits that did not. -/
def absorb (significand : Nat) : List Char → Nat × List Char
  | [] => (significand, [])
  | c :: cs =>
    let next := significand * 10 + (c.toNat - '0'.toNat)
    if next < 0x10000000000000000 then absorb next cs else (significand, c :: cs)

def powerOfTen (n : Nat) : Float :=
  Decimal.toFloat ⟨1, n⟩

/-- `x * 10 ^ exponent` in one multiplication or division, two for small results; it
is absent beyond the largest number. -/
def scale (x : Float) (exponent : Int) : Option Float :=
  if x == 0.0 then some x
  else if 0 ≤ exponent then
    let scaled := x * powerOfTen exponent.toNat
    if exponent ≤ 308 && scaled.isFinite then some scaled else none
  else
    let places := (-exponent).toNat
    if places ≤ 308 then some (x / powerOfTen places)
    else if places ≤ 616 then some (x / powerOfTen 308 / powerOfTen (places - 308))
    else some 0.0

def ofReal (negative : Bool) (significand : Nat) (exponent : Int) : Json :=
  match scale (Decimal.toFloat ⟨significand, 0⟩) exponent with
  | some x => real (if negative then -x else x)
  | none => unusable

/-- A number without fraction and exponent: an integer if 64 bits hold it. Minus zero is
no integer. -/
def ofInteger (negative : Bool) (digits : List Char) : Json :=
  let (significand, dropped) := absorb 0 digits
  if dropped ≠ [] then ofReal negative significand dropped.length
  else if !negative then whole significand
  else if 0 < significand && significand ≤ 0x8000000000000000 then whole (-significand)
  else ofReal true significand 0

/-- A number from its sign, its digits before and after the point, and its exponent. -/
def ofParts (negative : Bool) (integer fraction : List Char) (exponent : Option Int) : Json :=
  if fraction = [] && exponent = none then ofInteger negative integer
  else
    let (significand, dropped) := absorb 0 integer
    let (significand, unread) := absorb significand fraction
    let shift : Int := dropped.length - (fraction.length - unread.length : Nat)
    ofReal negative significand (shift + exponent.getD 0)

/-- Reads number text: no superfluous leading zero, and a digit after the point and
after the exponent mark. -/
def readNumber? (cs : List Char) : Option Json :=
  let (negative, unsigned) := match cs with
    | '-' :: rest => (true, rest)
    | rest => (false, rest)
  let integer := unsigned.takeWhile Char.isDigit
  let rest := unsigned.dropWhile Char.isDigit
  let (point, fraction, tail) := match rest with
    | '.' :: more => (true, more.takeWhile Char.isDigit, more.dropWhile Char.isDigit)
    | more => (false, [], more)
  let integerOk := integer ≠ [] && (integer.length = 1 || integer.head? ≠ some '0')
  if integerOk && (!point || fraction ≠ []) then
    match tail with
    | [] => some (ofParts negative integer fraction none)
    | tail => (Decimal.readExponent? tail).map fun e => ofParts negative integer fraction (some e)
  else none

/-! ### Text -/

/-- One element of quoted text: a character, or a 16-bit unit given by its number. -/
inductive TextUnit where
  | char (c : Char)
  | code (n : Nat)

def hexValue? (c : Char) : Option Nat :=
  if c.isDigit then some (c.toNat - '0'.toNat)
  else if 'a' ≤ c && c ≤ 'f' then some (c.toNat - 'a'.toNat + 10)
  else if 'A' ≤ c && c ≤ 'F' then some (c.toNat - 'A'.toNat + 10)
  else none

def hexCode? (a b c d : Char) : Option Nat := do
  return (((← hexValue? a) * 16 + (← hexValue? b)) * 16 + (← hexValue? c)) * 16 + (← hexValue? d)

def simpleEscape? : Char → Option Char
  | '"' => some '"'
  | '\\' => some '\\'
  | '/' => some '/'
  | 'b' => some '\x08'
  | 'f' => some '\x0c'
  | 'n' => some '\n'
  | 'r' => some '\r'
  | 't' => some '\t'
  | _ => none

/-- The elements of quoted text up to its closing quote, and the number of characters
read. -/
def quoted? : List Char → Option (List TextUnit × Nat)
  | [] => none
  | '"' :: _ => some ([], 1)
  | '\\' :: 'u' :: a :: b :: c :: d :: cs => do
    let code ← hexCode? a b c d
    let (units, n) ← quoted? cs
    return (.code code :: units, n + 6)
  | '\\' :: e :: cs => do
    let c ← simpleEscape? e
    let (units, n) ← quoted? cs
    return (.char c :: units, n + 2)
  | c :: cs => do
    if c.toNat < 0x20 then none
    let (units, n) ← quoted? cs
    return (.char c :: units, n + 1)

/-- The text behind its elements. Surrogates stand in pairs. -/
def decodeUnits? : List TextUnit → Option (List Char)
  | [] => some []
  | .char c :: us => (decodeUnits? us).map (c :: ·)
  | .code n :: us =>
    if n < 0xD800 || 0xDFFF < n then (decodeUnits? us).map (Char.ofNat n :: ·)
    else match us with
      | .code m :: us =>
        if n < 0xDC00 && 0xDC00 ≤ m && m ≤ 0xDFFF then
          let c := Char.ofNat (0x10000 + (n - 0xD800) * 0x400 + (m - 0xDC00))
          (decodeUnits? us).map (c :: ·)
        else none
      | _ => none

/-! ### Scanning -/

inductive Token where
  | openBrace
  | closeBrace
  | openBracket
  | closeBracket
  | comma
  | colon
  /-- Quoted text, absent if it is unusable. -/
  | text (s : Option String)
  /-- A number or a name such as `true`. -/
  | scalar (j : Json)

def isSpace (c : Char) : Bool :=
  c == ' ' || c == '\n' || c == '\t' || c == '\r'

def isNumberChar (c : Char) : Bool :=
  c.isDigit || c == '-' || c == '+' || c == '.' || c == 'e' || c == 'E'

/-- A name spelled out in full, of which the first letter is read. -/
def name? (rest : List Char) (cs : List Char) (j : Json) : Option (Option Token × Nat) :=
  if rest.isPrefixOf cs then some (some (.scalar j), rest.length) else none

/-- The token that starts with `c`, if `c` is no space, and the number of further
characters that belong to it. -/
def firstToken? (c : Char) (cs : List Char) : Option (Option Token × Nat) :=
  if isSpace c then some (none, 0)
  else match c with
    | '\x7b' => some (some .openBrace, 0)
    | '\x7d' => some (some .closeBrace, 0)
    | '[' => some (some .openBracket, 0)
    | ']' => some (some .closeBracket, 0)
    | ',' => some (some .comma, 0)
    | ':' => some (some .colon, 0)
    | '"' => (quoted? cs).map fun (units, n) =>
      (some (.text ((decodeUnits? units).map String.ofList)), n)
    | 'n' => name? ['u', 'l', 'l'] cs null
    | 't' => name? ['r', 'u', 'e'] cs (bool true)
    | 'f' => name? ['a', 'l', 's', 'e'] cs (bool false)
    | _ =>
      if c.isDigit || c == '-' then
        let run := cs.takeWhile isNumberChar
        (readNumber? (c :: run)).map fun j => (some (.scalar j), run.length)
      else none

/-- The tokens of a text of which the first `skip` characters belong to an earlier
token. -/
def scanFrom? (skip : Nat) : List Char → Option (List Token)
  | [] => some []
  | c :: cs =>
    match skip with
    | k + 1 => scanFrom? k cs
    | 0 => do
      let (token?, more) ← firstToken? c cs
      let rest ← scanFrom? more cs
      return match token? with
        | some token => token :: rest
        | none => rest

end FlightGen.Json
