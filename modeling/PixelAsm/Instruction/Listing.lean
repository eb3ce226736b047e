import PixelAsm.Instruction.Schedule
import PixelAsm.Target.Code

/-!
# Listings

The assembly-like text of instructions and schedules.
-/
namespace PixelAsm

/-- Bias and doubling are written as one suffix when both are set. -/
def Operand.scaleText (modifier : UInt32) : String :=
  let biased := modifier &&& Code.bias != 0
  let doubled := modifier &&& Code.times2 != 0
  if biased && doubled then "_bx2"
  else if biased then "_bias"
  else if doubled then "_x2"
  else ""

def Operand.text (o : Operand) : String :=
  (if o.modifier &&& Code.negate != 0 then "-" else "")
    ++ (if o.modifier &&& Code.complement != 0 then "1-" else "")
    ++ Code.registerName o.register ++ scaleText o.modifier ++ Code.replicateText o.channel

def Instruction.operandsText (operands : List Operand) : String :=
  String.join (operands.map fun o => ", " ++ o.text)

def Instruction.text : Instruction → String
  | color operation target operands =>
    "color " ++ Code.operationName operation ++ Code.destinationModifierText target.modifier
      ++ " " ++ Code.registerName target.register ++ Code.maskText target.mask
      ++ operandsText operands
  | alpha operation target operands =>
    "alpha " ++ Code.operationName operation ++ Code.destinationModifierText target.modifier
      ++ " " ++ Code.registerName target.register ++ operandsText operands
  | setConstants register index =>
    "setconst " ++ Code.registerName register ++ ", pool[" ++ toString index.toNat ++ "]"
  | passTexCoord register coordinate swizzle =>
    "passtexcoord " ++ Code.registerName register ++ ", " ++ Code.registerName coordinate
      ++ "." ++ Code.swizzleName swizzle
  | sampleMap register interpolator swizzle =>
    "samplemap " ++ Code.registerName register ++ ", " ++ Code.registerName interpolator
      ++ "." ++ Code.swizzleName swizzle

def RecordError.text : RecordError → String
  | unknownTag offset word =>
    "UnknownTag \x7b offset: " ++ toString offset ++ ", tag: " ++ toString word.toNat ++ " \x7d"
  | truncated offset tag =>
    "Truncated \x7b offset: " ++ toString offset ++ ", tag: " ++ tag.name ++ " \x7d"

/-- A line for each record; a malformed one stands between angle brackets. -/
def Queue.text (q : Queue) : String :=
  String.join (q.records.map fun
    | .ok i => "  " ++ i.text ++ "\n"
    | .error e => "  <" ++ e.text ++ ">\n")

/-- The queues in the order of their stages, each under a line with the stage's name. -/
def Schedule.text (s : Schedule) : String :=
  String.join (Stage.all.map fun stage => "; " ++ stage.name ++ "\n" ++ (s.get stage).text)

end PixelAsm
