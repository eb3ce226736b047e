/-!
# Hexadecimal text
-/
namespace PixelAsm

/-- A word in lower-case hexadecimal without leading zeros, behind `0x`. -/
def hexText (word : UInt32) : String := "0x" ++ String.ofList (Nat.toDigits 16 word.toNat)

end PixelAsm
