/-! Exact arithmetic on binary64 numbers. Every finite non-negative number is a
natural number of units of `2 ^ -1074`, and its bit pattern counts it: patterns
and unit counts are ordered alike. Rounding a ratio of naturals to the nearest
pattern is then one rounded division. -/

namespace FlightGen.Binary64

/-- The bit pattern of positive infinity; the finite patterns are those below it. -/
def infinity : Nat := 0x7FF * Nat.pow 2 52

/-- The number of units that the finite pattern `bits` stands for. -/
def units (bits : Nat) : Nat :=
  let exponent := bits / Nat.pow 2 52
  let fraction := bits % Nat.pow 2 52
  if exponent = 0 then fraction else (Nat.pow 2 52 + fraction) * Nat.pow 2 (exponent - 1)

/-- The natural number nearest to `num / den`; a half goes to the even neighbour. -/
def roundHalfEven (num den : Nat) : Nat :=
  let q := num / den
  let r := num % den
  if 2 * r < den then q
  else if 2 * r = den then q + q % 2
  else q + 1

/-- The pattern nearest to `num / den` units; beyond the largest finite number it
is that of infinity. -/
def nearest (num den : Nat) : Nat :=
  let shift := Nat.log2 (num / den) - 52
  min infinity (shift * Nat.pow 2 52 + roundHalfEven num (den * Nat.pow 2 shift))

/-- How a number is spelled depends on which of these it is. -/
inductive Form where
  | nan
  | infinite (negative : Bool)
  | finite (negative : Bool) (bits : Nat)
deriving Repr, DecidableEq

def form (x : Float) : Form :=
  let bits := x.toBits.toNat
  let magnitude := bits % Nat.pow 2 63
  let negative := decide (Nat.pow 2 63 ≤ bits)
  if magnitude < infinity then .finite negative magnitude
  else if magnitude = infinity then .infinite negative
  else .nan

/-- The whole number that a finite pattern stands for, if it has no fraction. -/
def integer? (bits : Nat) : Option Nat :=
  if units bits % Nat.pow 2 1074 = 0 then some (units bits / Nat.pow 2 1074) else none

end FlightGen.Binary64
