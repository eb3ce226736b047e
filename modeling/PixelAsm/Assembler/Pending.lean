import PixelAsm.CompileError
import PixelAsm.Dialect.Symbol
import PixelAsm.Instruction.Basic

/-!
# Pending instructions

The tokens of an instruction arrive one by one: its opcode, then operands with a
separator between two. Slot zero is the destination.
-/
namespace PixelAsm

/-- What a token does for the pending instruction. -/
inductive Role where
  | opcode | separator | register | selector | modifier | value | ignored
  deriving DecidableEq, Repr

/-- The role of the tokens that a rule accepts. -/
def Symbol.role? : Symbol → Option Role
  | .defOp | .phaseMarker | .texOpPs14 | .texOpPs11 | .texCiscOp | .texSpecOp
  | .unaryOp | .binaryOp | .ternaryOp => some .opcode
  | .separator => some .separator
  | .tempReg | .texCoordReg | .texRegPs11 | .constReg | .colorReg => some .register
  | .dstMask | .srcRep | .texSwizzle => some .selector
  | .dstMod | .dstSat | .preSrcMod | .postSrcMod => some .modifier
  | .numVal => some .value
  | .programType | .coIssueMark => some .ignored
  | _ => none

/-- An operand as far as its tokens have been seen. The selector is a destination
mask, a replicated channel or a swizzle, zero if none was given. -/
structure Slot where
  register? : Option UInt32 := none
  selector : UInt32 := 0
  modifier : UInt32 := 0
  deriving DecidableEq, Repr

/-- The number of operand slots of an instruction. -/
def slotLimit : Nat := 5

structure Pending where
  opcode? : Option Symbol := none
  /-- The token of the opcode. -/
  token : Token := { id := 0, rule := 0 }
  /-- The target's code for the opcode. -/
  code : UInt32 := 0
  /-- The slot being filled, which is also the number of separators seen. -/
  slot : Nat := 0
  slots : List Slot := List.replicate slotLimit {}
  /-- The number of numerals in front of the instruction. -/
  firstConstant : Nat := 0
  deriving DecidableEq

namespace Pending

/-- The instruction stands where its opcode stands. -/
def place (p : Pending) : Place := p.token.place

def modifySlot (p : Pending) (change : Slot → Slot) : Pending :=
  { p with slots := p.slots.modify p.slot change }

/-- The register in a slot, if the slot has been filled. -/
def register? (p : Pending) (index : Nat) : Option UInt32 := p.slots[index]?.bind (·.register?)

/-- The operand in a slot, which must have been filled. -/
def operand (p : Pending) (index : Nat) : Except CompileError Operand :=
  match p.slots[index]? with
  | some { register? := some register, selector, modifier } =>
    .ok { register, channel := selector, modifier }
  | _ => .error (.missingOperand index p.place)

/-- The destination and the sources; there must be between `least` and `most`
sources, and every slot up to the last must have been filled. -/
def operands (p : Pending) (least most : Nat) : Except CompileError (Operand × List Operand) :=
  if p.slot < least ∨ most < p.slot then .error (.badOperandCount p.slot p.place)
  else do
    let target ← p.operand 0
    let sources ← (List.range p.slot).mapM fun i => p.operand (i + 1)
    return (target, sources)

end Pending
end PixelAsm
