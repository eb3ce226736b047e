import PixelAsm.Text.Hex

/-!
# Target codes

The target names its operations, registers, swizzles and modifiers by numbers.
Grammar symbols carry these numbers, and they reach the target unchanged. Any
word can stand in an instruction; a number without a name is shown as such.
-/
namespace PixelAsm.Code

def r0 : UInt32 := 0x8921
def r1 : UInt32 := 0x8922
def r2 : UInt32 := 0x8923
def r3 : UInt32 := 0x8924
def r4 : UInt32 := 0x8925
def r5 : UInt32 := 0x8926

def c0 : UInt32 := 0x8941
def c1 : UInt32 := 0x8942
def c2 : UInt32 := 0x8943
def c3 : UInt32 := 0x8944
def c4 : UInt32 := 0x8945
def c5 : UInt32 := 0x8946
def c6 : UInt32 := 0x8947
def c7 : UInt32 := 0x8948

def t0 : UInt32 := 0x84C0
def t1 : UInt32 := 0x84C1
def t2 : UInt32 := 0x84C2
def t3 : UInt32 := 0x84C3
def t4 : UInt32 := 0x84C4
def t5 : UInt32 := 0x84C5

def tempRegisters : List UInt32 := [r0, r1, r2, r3, r4, r5]

def constantRegisters : List UInt32 := [c0, c1, c2, c3, c4, c5, c6, c7]

/-- The texture units, which are also the texture coordinate interpolators. -/
def textureUnits : List UInt32 := [t0, t1, t2, t3, t4, t5]

/-- The position of a register in a register file. -/
def ordinal? (file : List UInt32) (register : UInt32) : Option Nat := file.idxOf? register

def isTemp (register : UInt32) : Bool := tempRegisters.contains register

/-- The register from which the target takes the colour of a pixel. -/
def outputRegister : UInt32 := r0

def primaryColor : UInt32 := 0x8577
def secondaryColor : UInt32 := 0x896D

def mov : UInt32 := 0x8961
def add : UInt32 := 0x8963
def mul : UInt32 := 0x8964
def sub : UInt32 := 0x8965
def dot3 : UInt32 := 0x8966
def dot4 : UInt32 := 0x8967
def mad : UInt32 := 0x8968
def lerp : UInt32 := 0x8969
def cnd : UInt32 := 0x896A
def cnd0 : UInt32 := 0x896B
def dot2Add : UInt32 := 0x896C

def swizzleStr : UInt32 := 0x8976
def swizzleStq : UInt32 := 0x8977
def swizzleStrDr : UInt32 := 0x8978
def swizzleStqDq : UInt32 := 0x8979
def swizzleStrq : UInt32 := 0x897A
def swizzleStrqDq : UInt32 := 0x897B

def red : UInt32 := 0x1
def green : UInt32 := 0x2
def blue : UInt32 := 0x4
/-- Alpha is written by an operation of its own, so the target never sees this bit. -/
def alpha : UInt32 := 0x8
def rgb : UInt32 := 0x7
def rgba : UInt32 := 0xF

def times2 : UInt32 := 0x1
def times4 : UInt32 := 0x2
def times8 : UInt32 := 0x4
def half : UInt32 := 0x8
def quarter : UInt32 := 0x10
def eighth : UInt32 := 0x20
def saturate : UInt32 := 0x40

def complement : UInt32 := 0x2
def negate : UInt32 := 0x4
def bias : UInt32 := 0x8

def replicateRed : UInt32 := 0x1903
def replicateGreen : UInt32 := 0x1904
def replicateBlue : UInt32 := 0x1905
def replicateAlpha : UInt32 := 0x1906

def registerName (register : UInt32) : String :=
  match ordinal? tempRegisters register, ordinal? constantRegisters register,
      ordinal? textureUnits register with
  | some i, _, _ => s!"r{i}"
  | none, some i, _ => s!"c{i}"
  | none, none, some i => s!"t{i}"
  | none, none, none =>
    if register = primaryColor then "v0"
    else if register = secondaryColor then "v1"
    else hexText register

def operationNames : List (UInt32 × String) :=
  [(mov, "mov"), (add, "add"), (mul, "mul"), (sub, "sub"), (dot3, "dot3"), (dot4, "dot4"),
   (mad, "mad"), (lerp, "lerp"), (cnd, "cnd"), (cnd0, "cnd0"), (dot2Add, "dot2_add")]

def operationName (operation : UInt32) : String :=
  (operationNames.lookup operation).getD (hexText operation)

def swizzleNames : List (UInt32 × String) :=
  [(swizzleStr, "str"), (swizzleStq, "stq"), (swizzleStrDr, "str_dr"),
   (swizzleStqDq, "stq_dq"), (swizzleStrq, "strq"), (swizzleStrqDq, "strq_dq")]

def swizzleName (swizzle : UInt32) : String :=
  (swizzleNames.lookup swizzle).getD (hexText swizzle)

/-- The texts of the bits that are set, in the order of the list. -/
def bitTexts (texts : List (UInt32 × String)) (word : UInt32) : String :=
  String.join ((texts.filter fun (bit, _) => word &&& bit != 0).map (·.2))

/-- The channels of a destination mask. A full write shows none. -/
def maskText (mask : UInt32) : String :=
  if mask = 0 ∨ mask &&& rgba = rgba then ""
  else "." ++ bitTexts [(red, "r"), (green, "g"), (blue, "b"), (alpha, "a")] mask

def replicateText (channel : UInt32) : String :=
  ([(replicateRed, ".r"), (replicateGreen, ".g"), (replicateBlue, ".b"),
    (replicateAlpha, ".a")].lookup channel).getD ""

def destinationModifierText (modifier : UInt32) : String :=
  bitTexts [(times2, "_x2"), (times4, "_x4"), (times8, "_x8"), (half, "_d2"),
    (quarter, "_d4"), (eighth, "_d8"), (saturate, "_sat")] modifier

end PixelAsm.Code
