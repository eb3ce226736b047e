import PixelAsm.Binary32.Shortest
import PixelAsm.Instruction.Basic
import PixelAsm.Target.Code

/-!
# Device calls

What a device can be asked to do, and the text of such a call.
-/
namespace PixelAsm

/-- The four components of a constant. -/
structure Quad where
  x : Binary32
  y : Binary32
  z : Binary32
  w : Binary32
  deriving DecidableEq, Repr

def Quad.toList (q : Quad) : List Binary32 := [q.x, q.y, q.z, q.w]

def Quad.ofList? : List Binary32 → Option Quad
  | [x, y, z, w] => some { x, y, z, w }
  | _ => none

/-- Programs are named by the number that their creation gave them. -/
inductive Call where
  | create (program : Nat)
  | bind (program : Nat)
  | unbind
  | beginProgram
  | endProgram
  | destroy (program : Nat)
  | color (operation : UInt32) (target : ColorTarget) (operands : List Operand)
  | alpha (operation : UInt32) (target : AlphaTarget) (operands : List Operand)
  | setConstant (register : UInt32) (value : Quad)
  | passTexCoord (register coordinate swizzle : UInt32)
  | sampleMap (register interpolator swizzle : UInt32)
  deriving DecidableEq, Repr

namespace Call

def operandsText (operands : List Operand) : String :=
  String.join (operands.map fun o =>
    ", " ++ Code.registerName o.register ++ ", " ++ hexText o.channel ++ ", "
      ++ hexText o.modifier)

def text : Call → String
  | create program => s!"create -> {program}"
  | bind program => s!"bind {program}"
  | unbind => "unbind"
  | beginProgram => "begin"
  | endProgram => "end"
  | destroy program => s!"destroy {program}"
  | color operation target operands =>
    s!"color_op{operands.length}(" ++ Code.operationName operation ++ ", "
      ++ Code.registerName target.register ++ ", " ++ hexText target.mask ++ ", "
      ++ hexText target.modifier ++ operandsText operands ++ ")"
  | alpha operation target operands =>
    s!"alpha_op{operands.length}(" ++ Code.operationName operation ++ ", "
      ++ Code.registerName target.register ++ ", " ++ hexText target.modifier
      ++ operandsText operands ++ ")"
  | setConstant register value =>
    "set_constant(" ++ Code.registerName register ++ ", " ++ Binary32.listText value.toList ++ ")"
  | passTexCoord register coordinate swizzle =>
    "pass_tex_coord(" ++ Code.registerName register ++ ", " ++ Code.registerName coordinate
      ++ ", " ++ Code.swizzleName swizzle ++ ")"
  | sampleMap register interpolator swizzle =>
    "sample_map(" ++ Code.registerName register ++ ", " ++ Code.registerName interpolator
      ++ ", " ++ Code.swizzleName swizzle ++ ")"

end Call
end PixelAsm
