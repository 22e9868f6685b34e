import FlightGen.Decimal.Basic

/-! The decimal with the fewest digits among those that round to a given binary64
number. The reals that round to it form an interval around it, and the grids of
one, two, … seventeen digits are searched for a point of that interval. -/

namespace FlightGen.Decimal

open Binary64 (units)

/-- Which of two equally close decimals is taken. -/
inductive Tie where
  | up
  | toEven
deriving Repr, DecidableEq

/-- Compares a decimal with a number of half units. -/
def compareHalves (d : Decimal) (halves : Nat) : Ordering :=
  compare (d.digits * Nat.pow 10 d.exponent.toNat * Nat.pow 2 1075)
    (halves * Nat.pow 10 (-d.exponent).toNat)

/-- Whether a decimal rounds to the positive finite pattern `bits`: it lies between
the midpoints to the two neighbours, which belong to even patterns. -/
def readsAs (d : Decimal) (bits : Nat) : Bool :=
  let low := d.compareHalves (units (bits - 1) + units bits)
  let high := d.compareHalves (units bits + units (bits + 1))
  let closed := bits % 2 == 0
  (low == .gt || (closed && low == .eq)) && (high == .lt || (closed && high == .eq))

/-- The least power of ten above the number, found from an estimate by the binary
logarithm. -/
def scale (bits : Nat) : Int :=
  let estimate := (((Nat.log2 (units bits) : Int) - 1074) * 30103).fdiv 100000
  let above (s : Int) := compareHalves ⟨1, s⟩ (2 * units bits) == .gt
  if above estimate then estimate
  else if above (estimate + 1) then estimate + 1
  else estimate + 2

/-- Which of the grid points `floor` and `floor + 1` is taken, from how their midpoint
compares with the number and which of them read as it. -/
def pick (tie : Tie) (floor : Nat) (middle : Ordering) : Bool → Bool → Option Nat
  | true, true => match middle with
    | .gt => some floor
    | .lt => some (floor + 1)
    | .eq => match tie with
      | .up => some (floor + 1)
      | .toEven => some (if floor % 2 == 0 then floor else floor + 1)
  | true, false => some floor
  | false, true => some (floor + 1)
  | false, false => none

/-- The better of the two points next to the number on the grid `10 ^ exponent`, if
one of them reads as the number. -/
def onGrid (tie : Tie) (bits : Nat) (exponent : Int) : Option Decimal :=
  let floor := units bits * Nat.pow 10 (-exponent).toNat /
    (Nat.pow 10 exponent.toNat * Nat.pow 2 1074)
  -- Twice the midpoint of the two candidates against twice the number.
  let middle := compareHalves ⟨2 * floor + 1, exponent⟩ (4 * units bits)
  (pick tie floor middle (readsAs ⟨floor, exponent⟩ bits)
    (readsAs ⟨floor + 1, exponent⟩ bits)).map (⟨·, exponent⟩)

/-- The value of a pattern in full. -/
def exact (bits : Nat) : Decimal :=
  ⟨units bits * Nat.pow 5 1074, -1074⟩

/-- The shortest decimal that reads as the positive finite pattern `bits`. -/
def shortest (tie : Tie) (bits : Nat) : Decimal :=
  let found := (List.range 17).findSome? fun (n : Nat) => onGrid tie bits (scale bits - (n + 1))
  (found.getD (exact bits)).strip

end FlightGen.Decimal
