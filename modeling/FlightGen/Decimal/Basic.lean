import FlightGen.Binary64

/-! Decimal numbers: the binary64 number nearest to one, its positional spelling,
and reading it from text. -/

namespace FlightGen

/-- The number `digits * 10 ^ exponent`. -/
structure Decimal where
  digits : Nat
  exponent : Int
deriving Repr, DecidableEq

namespace Decimal

/-- The nearest binary64 number. Exponents far outside its range are settled without
forming the power of ten. -/
def toFloat (d : Decimal) : Float :=
  let bits :=
    if d.digits = 0 then 0
    else if d.exponent > 400 then Binary64.infinity
    else if d.exponent + Nat.log2 d.digits + 1 < -400 then 0
    else Binary64.nearest (d.digits * Nat.pow 10 d.exponent.toNat * Nat.pow 2 1074)
      (Nat.pow 10 (-d.exponent).toNat)
  Float.ofBits bits.toUInt64

/-- Spelling without an exponent: the digits with a point where it belongs, or with
zeros up to the point. -/
def positional (d : Decimal) : String :=
  let digits := Nat.toDigits 10 d.digits
  if 0 ≤ d.exponent then
    String.ofList (digits ++ List.replicate d.exponent.toNat '0')
  else
    let places := (-d.exponent).toNat
    let whole := digits.length - places
    if places < digits.length then
      String.ofList (digits.take whole ++ '.' :: digits.drop whole)
    else
      String.ofList ('0' :: '.' :: (List.replicate (places - digits.length) '0' ++ digits))

/-- Moves the trailing zeros of the digits into the exponent. -/
def strip (d : Decimal) : Decimal :=
  let zeros := ((Nat.toDigits 10 d.digits).reverse.takeWhile (· == '0')).length
  ⟨d.digits / Nat.pow 10 zeros, d.exponent + zeros⟩

/-! ### Reading -/

def digitsValue (cs : List Char) : Nat :=
  Nat.ofDigitChars 10 cs 0

/-- The end of number text: nothing, or `e` or `E`, an optional sign and at least one
digit. -/
def readExponent? : List Char → Option Int
  | [] => some 0
  | e :: rest =>
    let (negative, digits) := match rest with
      | '-' :: ds => (true, ds)
      | '+' :: ds => (false, ds)
      | ds => (false, ds)
    if (e = 'e' || e = 'E') && digits ≠ [] && digits.all Char.isDigit then
      some (if negative then -(digitsValue digits : Int) else digitsValue digits)
    else none

/-- Reads digits with an optional point before, among or after them, then an optional
exponent. At least one digit stands before the exponent. -/
def read? (cs : List Char) : Option Decimal :=
  let whole := cs.takeWhile Char.isDigit
  let (fraction, tail) := match cs.dropWhile Char.isDigit with
    | '.' :: rest => (rest.takeWhile Char.isDigit, rest.dropWhile Char.isDigit)
    | rest => ([], rest)
  if whole = [] && fraction = [] then none
  else (readExponent? tail).map fun exponent =>
    ⟨digitsValue (whole ++ fraction), exponent - fraction.length⟩

end Decimal

end FlightGen
