/-!
# Single precision numbers

A `Binary32` is the bit pattern of a single precision number: a sign bit, eight
exponent bits and twenty-three fraction bits. A finite pattern stands for
`significand * 2 ^ scale`. Rounding a ratio is exact natural arithmetic, so it
can be evaluated inside proofs.
-/
namespace PixelAsm

structure Binary32 where
  bits : UInt32
  deriving DecidableEq, Repr, Inhabited

namespace Binary32

/-- The pattern without its sign bit. Patterns of finite numbers are ordered by it. -/
def magnitude (x : Binary32) : Nat := x.bits.toNat % 0x80000000

def isNegative (x : Binary32) : Bool := 0x80000000 ≤ x.bits.toNat

def fraction (x : Binary32) : Nat := x.magnitude % 0x800000

def exponentField (x : Binary32) : Nat := x.magnitude / 0x800000

/-- Exponent field zero marks the subnormal numbers, which have no leading one. -/
def significand (x : Binary32) : Nat :=
  if x.exponentField = 0 then x.fraction else 0x800000 + x.fraction

def scale (x : Binary32) : Int := (max x.exponentField 1 : Nat) - 150

/-- The magnitude of infinity; everything above it is not a number. -/
def infiniteMagnitude : Nat := 0x7F800000

def ofMagnitude (negative : Bool) (magnitude : Nat) : Binary32 :=
  ⟨UInt32.ofNat (magnitude + if negative then 0x80000000 else 0)⟩

/-- The integer nearest to a quotient; a half goes to the even neighbour. -/
def roundQuotient (num den : Nat) : Nat :=
  let floor := num / den
  let twice := 2 * (num % den)
  if twice < den then floor
  else if den < twice then floor + 1
  else floor + floor % 2

/-- The exponent of the largest power of two that is at most a positive ratio. -/
def floorLog (num den : Nat) : Int :=
  let guess : Int := num.log2 - den.log2
  if num * Nat.pow 2 (-guess).toNat < den * Nat.pow 2 guess.toNat then guess - 1 else guess

/-- The number nearest to `num / den`, halves to even. A ratio too large for a
finite number becomes infinity. A carry out of the significand lands in the
exponent field, so adding the two parts of the pattern needs no case split. -/
def ofRatio (negative : Bool) (num den : Nat) : Binary32 :=
  if num = 0 then ofMagnitude negative 0
  else
    let unit : Int := max (floorLog num den - 23) (-149)
    let rounded := roundQuotient (num * Nat.pow 2 (-unit).toNat) (den * Nat.pow 2 unit.toNat)
    ofMagnitude negative (min ((unit + 149).toNat * 0x800000 + rounded) infiniteMagnitude)

end Binary32
end PixelAsm
