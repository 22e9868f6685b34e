import FlightGen.Expr.Basic
import FlightGen.Identifier

/-! Tokens of expression text. Each token stands at the byte offset of its first
character. Newlines and semicolons are separators, and all other white space only
divides tokens. -/

namespace FlightGen

inductive Token where
  | number (x : Float)
  | word (name : String)
  | binary (op : BinaryOp)
  | bang
  | assign
  | openParen
  | closeParen
  | separator
deriving DecidableEq

structure Located where
  offset : Nat
  token : Token

/-- What can be wrong with expression text. -/
inductive ParseFault where
  | malformedNumber (text : String)
  | unexpectedCharacter (c : Char)
  | expectedClose
  | expectedValue
  | endOfInput
  | trailingInput
  | expectedTarget
  | expectedAssign (target : String)
  | expectedSeparator
deriving Repr, DecidableEq

def ParseFault.message : ParseFault → String
  | malformedNumber text => "malformed number '" ++ text ++ "'"
  | unexpectedCharacter c => "unexpected character '" ++ String.singleton c ++ "'"
  | expectedClose => "expected ')'"
  | expectedValue => "expected a value"
  | endOfInput => "unexpected end of input"
  | trailingInput => "unexpected trailing input"
  | expectedTarget => "expected an assignment target"
  | expectedAssign target => "expected '=' after '" ++ target ++ "'"
  | expectedSeparator => "expected ';' or end of line"

/-- A fault and the byte offset at which it was found. -/
structure ParseError where
  offset : Nat
  fault : ParseFault
deriving Repr, DecidableEq

def ParseError.message (e : ParseError) : String :=
  "at offset " ++ toString e.offset ++ ": " ++ e.fault.message

namespace Token

open Identifier (isWordStart isWordChar)

/-- The characters that continue number text after `last`: digits, points, exponent
marks, and a sign right after an exponent mark. -/
def numberRun (last : Char) : List Char → List Char
  | [] => []
  | c :: cs =>
    let sign := (c == '+' || c == '-') && (last == 'e' || last == 'E')
    if c.isDigit || c == '.' || c == 'e' || c == 'E' || sign then c :: numberRun c cs else []

/-- The operator that starts with `c`, and whether it takes the next character too. -/
def operator? (c : Char) (next : Option Char) : Option (Token × Nat) :=
  match c, next with
  | '=', some '=' => some (binary .equal, 1)
  | '!', some '=' => some (binary .notEqual, 1)
  | '<', some '=' => some (binary (.order .lessEqual), 1)
  | '>', some '=' => some (binary (.order .greaterEqual), 1)
  | '&', some '&' => some (binary (.logic .and), 1)
  | '|', some '|' => some (binary (.logic .or), 1)
  | '+', _ => some (binary (.arith .add), 0)
  | '-', _ => some (binary (.arith .subtract), 0)
  | '*', _ => some (binary (.arith .multiply), 0)
  | '/', _ => some (binary (.arith .divide), 0)
  | '<', _ => some (binary (.order .less), 0)
  | '>', _ => some (binary (.order .greater), 0)
  | '!', _ => some (bang, 0)
  | '=', _ => some (assign, 0)
  | _, _ => none

/-- The token that starts with `c`, if `c` is not blank, and the number of further
characters that belong to it. -/
def first (c : Char) (cs : List Char) : Except ParseFault (Option Token × Nat) :=
  if c == ';' || c == '\n' then .ok (some separator, 0)
  else if Text.isBlank c then .ok (none, 0)
  else if c == '(' then .ok (some openParen, 0)
  else if c == ')' then .ok (some closeParen, 0)
  else if c.isDigit || c == '.' then
    let run := numberRun c cs
    match Decimal.read? (c :: run) with
    | some d => .ok (some (number d.toFloat), run.length)
    | none => .error (.malformedNumber (String.ofList (c :: run)))
  else if isWordStart c then
    let run := cs.takeWhile isWordChar
    .ok (some (word (String.ofList (c :: run))), run.length)
  else match operator? c cs.head? with
    | some (token, more) => .ok (some token, more)
    | none => .error (.unexpectedCharacter c)

/-- The tokens of the text that starts at byte `offset`, of which the first `skip`
characters belong to an earlier token. -/
def scanFrom (offset skip : Nat) : List Char → Except ParseError (List Located)
  | [] => .ok []
  | c :: cs =>
    match skip with
    | k + 1 => scanFrom (offset + c.utf8Size) k cs
    | 0 =>
      match first c cs with
      | .error fault => .error ⟨offset, fault⟩
      | .ok (token?, more) => do
        let rest ← scanFrom (offset + c.utf8Size) more cs
        return match token? with
          | some token => ⟨offset, token⟩ :: rest
          | none => rest

def scan (source : String) : Except ParseError (List Located) :=
  scanFrom 0 0 source.toList

end Token

end FlightGen
