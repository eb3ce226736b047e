import PixelAsm.Binary32.Basic
import PixelAsm.Source.Reader

/-!
# Numerals

A numeral is an optional minus sign, digits, and optionally a point; at least one
digit stands on one side of the point. It denotes the single precision number
nearest to its decimal value.
-/
namespace PixelAsm

/-- The decimal number `digits / 10 ^ places`, or its negative. -/
structure Numeral where
  negative : Bool
  digits : Nat
  places : Nat
  deriving DecidableEq, Repr

namespace Numeral

def isDigit (b : UInt8) : Bool := 0x30 ≤ b && b ≤ 0x39

def valueOfDigits (digits : List UInt8) : Nat :=
  digits.foldl (fun value b => 10 * value + (b.toNat - 0x30)) 0

/-- The digits behind the point and the bytes that they take with it, if a point
follows the leading digits. -/
def fraction : List UInt8 → List UInt8 × Nat
  | [] => ([], 0)
  | b :: rest =>
    if b == 0x2E then
      let digits := rest.takeWhile isDigit
      (digits, digits.length + 1)
    else ([], 0)

def unsigned? (negative : Bool) (text : List UInt8) : Option (Numeral × Nat) :=
  let whole := text.takeWhile isDigit
  let (part, width) := fraction (text.dropWhile isDigit)
  if whole.isEmpty && part.isEmpty then none
  else
    let numeral := { negative, digits := valueOfDigits (whole ++ part), places := part.length }
    some (numeral, whole.length + width)

/-- The longest numeral at the beginning of a text, with its length. -/
def scan? : List UInt8 → Option (Numeral × Nat)
  | [] => none
  | b :: text =>
    if b == 0x2D then (unsigned? true text).map fun (numeral, length) => (numeral, length + 1)
    else unsigned? false (b :: text)

def value (n : Numeral) : Binary32 := Binary32.ofRatio n.negative n.digits (Nat.pow 10 n.places)

end Numeral

namespace Reader

/-- The numeral behind the blanks at this position, with the number of bytes up
to its end. Nothing is consumed. -/
def number? (r : Reader) : Option (Binary32 × Nat) :=
  let blanks := (r.rest.takeWhile isBlank).length
  (Numeral.scan? (r.rest.drop blanks)).map fun (numeral, length) =>
    (numeral.value, blanks + length)

end Reader
end PixelAsm
