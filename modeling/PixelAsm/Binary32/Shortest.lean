import PixelAsm.Binary32.Basic

/-!
# Shortest decimal text

A number is written with the fewest decimal digits that read back as the same
number. On each decimal grid only the two neighbours of the value matter: if any
grid point reads back, so does one of them.
-/
namespace PixelAsm.Binary32

/-- The reals that round to a value, all in multiples of `1 / unit`. The ends
belong to the interval exactly when the value's significand is even. -/
structure Rounding where
  low : Nat
  value : Nat
  high : Nat
  unit : Nat
  closed : Bool
  deriving Repr

/-- The gap below a power of two is half the gap above it, except at the bottom
of the range, where the subnormal numbers go on with the same spacing. -/
def rounding (x : Binary32) : Rounding :=
  let up := Nat.pow 2 x.scale.toNat
  let below := if x.fraction = 0 ∧ 1 < x.exponentField then 1 else 2
  { low := (4 * x.significand - below) * up
    value := 4 * x.significand * up
    high := (4 * x.significand + 2) * up
    unit := 4 * Nat.pow 2 (-x.scale).toNat
    closed := x.significand % 2 = 0 }

/-- A multiple of `10 ^ exponent` inside the interval next to the value. Of two
the nearer wins, and an exact tie goes to the larger. -/
def Rounding.onGrid? (interval : Rounding) (exponent : Int) : Option Nat :=
  let stretch := Nat.pow 10 (-exponent).toNat
  let step := interval.unit * Nat.pow 10 exponent.toNat
  let floor := interval.value * stretch / step
  let within (a b : Nat) : Bool := if interval.closed then a ≤ b else a < b
  let lower := within (interval.low * stretch) (floor * step)
  let upper := within ((floor + 1) * step) (interval.high * stretch)
  if lower && upper then
    some (if 2 * interval.value * stretch < (2 * floor + 1) * step then floor else floor + 1)
  else if lower then some floor
  else if upper then some (floor + 1)
  else none

/-- The least `k` with `value < 10 ^ k`, for values in the finite range. -/
def Rounding.order (interval : Rounding) : Int :=
  let below (k : Nat) : Bool :=
    interval.value * Nat.pow 10 (44 - k) < interval.unit * Nat.pow 10 (k - 44)
  (((List.range 84).find? below).getD 84 : Nat) - 44

/-- A positive finite number as decimal digits and the position of the point
relative to the first digit. Nine digits tell any two numbers apart; the exact
expansion closes the search. -/
def shortest (x : Binary32) : List Char × Int :=
  let interval := x.rounding
  let order := interval.order
  let places := (-x.scale).toNat
  let exact := (x.significand * Nat.pow 2 x.scale.toNat * Nat.pow 5 places, (-places : Int))
  let found := (List.range 9).findSome? fun (n : Nat) =>
    (interval.onGrid? (order - 1 - n)).map fun digits => (digits, order - 1 - n)
  let (digits, exponent) := found.getD exact
  let text := Nat.toDigits 10 digits
  ((text.reverse.dropWhile (· == '0')).reverse, text.length + exponent)

/-- Digits around a decimal point; an integer keeps one zero behind the point. -/
def positional (digits : List Char) (point : Int) : List Char :=
  let whole := digits.take point.toNat ++ List.replicate (point.toNat - digits.length) '0'
  let part := List.replicate (-point).toNat '0' ++ digits.drop point.toNat
  (if whole.isEmpty then ['0'] else whole) ++ '.' :: (if part.isEmpty then ['0'] else part)

/-- One digit before the point and a power of ten behind. -/
def scientific (digits : List Char) (point : Int) : List Char :=
  let tail := digits.drop 1
  digits.take 1 ++ (if tail.isEmpty then [] else '.' :: tail)
    ++ 'e' :: (toString (point - 1)).toList

/-- Numbers from `1e-4` up to, but not including, `1e16` are written positionally. -/
def isPositional (x : Binary32) : Bool :=
  (ofRatio false 1 10000).magnitude ≤ x.magnitude
    && x.magnitude < (ofRatio false (Nat.pow 10 16) 1).magnitude

def text (x : Binary32) : String :=
  let sign := if x.isNegative then "-" else ""
  if infiniteMagnitude < x.magnitude then "NaN"
  else if x.magnitude = infiniteMagnitude then sign ++ "inf"
  else if x.magnitude = 0 then sign ++ "0.0"
  else
    let (digits, point) := x.shortest
    sign ++ String.ofList
      (if x.isPositional then positional digits point else scientific digits point)

/-- Numbers between square brackets, with a comma and a blank between two. -/
def listText (xs : List Binary32) : String :=
  "[" ++ ", ".intercalate (xs.map text) ++ "]"

end PixelAsm.Binary32
