/-!
# Target instructions

The target executes colour and alpha operations with one to three operands, loads
of constants, and two texture operations. Every field is a word of the target.
-/
namespace PixelAsm

/-- A source of an operation: a register, the channel that is copied to all others
(zero for none), and modifier bits. -/
structure Operand where
  register : UInt32
  channel : UInt32
  modifier : UInt32
  deriving DecidableEq, Repr

/-- Where a colour operation writes. The mask holds colour channels only. -/
structure ColorTarget where
  register : UInt32
  mask : UInt32
  modifier : UInt32
  deriving DecidableEq, Repr

structure AlphaTarget where
  register : UInt32
  modifier : UInt32
  deriving DecidableEq, Repr

inductive Instruction where
  | color (operation : UInt32) (target : ColorTarget) (operands : List Operand)
  | alpha (operation : UInt32) (target : AlphaTarget) (operands : List Operand)
  /-- Loads four values of the constant pool, from an index on, into a register. -/
  | setConstants (register index : UInt32)
  | passTexCoord (register coordinate swizzle : UInt32)
  | sampleMap (register interpolator swizzle : UInt32)
  deriving DecidableEq, Repr

/-- The number of operands that the target has operations for. -/
inductive Arity where
  | one | two | three
  deriving DecidableEq, Repr

namespace Arity

def count : Arity → Nat
  | one => 1
  | two => 2
  | three => 3

def ofCount? : Nat → Option Arity
  | 1 => some one
  | 2 => some two
  | 3 => some three
  | _ => none

end Arity

/-- The kinds of instruction that the target tells apart. -/
inductive Tag where
  | color (arity : Arity)
  | alpha (arity : Arity)
  | setConstants
  | passTexCoord
  | sampleMap
  deriving DecidableEq, Repr

namespace Tag

def name : Tag → String
  | color arity => s!"ColorOp{arity.count}"
  | alpha arity => s!"AlphaOp{arity.count}"
  | setConstants => "SetConstants"
  | passTexCoord => "PassTexCoord"
  | sampleMap => "SampleMap"

def isAlu : Tag → Bool
  | color _ | alpha _ => true
  | setConstants | passTexCoord | sampleMap => false

def isAlpha : Tag → Bool
  | alpha _ => true
  | _ => false

end Tag

namespace Instruction

/-- An operation with no operands, or with more than three, has no tag. -/
def tag? : Instruction → Option Tag
  | color _ _ operands => (Arity.ofCount? operands.length).map .color
  | alpha _ _ operands => (Arity.ofCount? operands.length).map .alpha
  | setConstants _ _ => some .setConstants
  | passTexCoord _ _ _ => some .passTexCoord
  | sampleMap _ _ _ => some .sampleMap

def operands : Instruction → List Operand
  | color _ _ operands | alpha _ _ operands => operands
  | _ => []

/-- The register that an instruction writes. -/
def destination : Instruction → UInt32
  | color _ target _ => target.register
  | alpha _ target _ => target.register
  | setConstants register _ => register
  | passTexCoord register _ _ => register
  | sampleMap register _ _ => register

end Instruction
end PixelAsm
