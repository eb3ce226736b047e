import PixelAsm.Instruction.Schedule
import PixelAsm.Proofs.Syntax

/-!
# Translating statement by statement

What each statement of a program contributes to the queues. A contribution depends on
the statement, on the dialect and on a few facts about the statements in front of it:
whether the phase marker is among them, how many numerals they hold, and how many
matrix rows were paired off. Registers that the second pass needs from the first one
are not part of it.
-/
namespace PixelAsm

/-- An instruction and the stage whose queue it goes to. -/
structure Issue where
  stage : Stage
  instruction : Instruction
  deriving DecidableEq, Repr

/-- The instructions that go to a stage, in order. -/
def instructionsOn (issues : List Issue) (stage : Stage) : List Instruction :=
  (issues.filter (·.stage == stage)).map (·.instruction)

namespace Syntax

/-- What the translation of a statement depends on besides the statement. -/
structure Setting where
  /-- The program is written in a dialect before ps.1.4. -/
  legacy : Bool
  /-- The phase marker stands in front. -/
  marked : Bool
  /-- The statement stands in for part of another one. -/
  expanding : Bool
  /-- The number of numerals in front. -/
  literals : Nat

def Source.operand (s : Source) : Operand :=
  { register := s.register.code, channel := Terminal.codeOf s.replicate?
    modifier := Terminal.codeOf s.before? ||| Terminal.codeOf s.behind? }

/-- The channels that are written: all four if no mask is given. -/
def Destination.channels (d : Destination) : UInt32 := d.mask?.elim Code.rgba (·.code)

def Destination.modifier (d : Destination) : UInt32 :=
  Terminal.codeOf d.scale? ||| Terminal.codeOf d.saturate?

namespace Arithmetic

def color (s : Arithmetic) : Instruction :=
  .color s.opcode.code
    { register := s.target.register.code, mask := s.target.channels &&& Code.rgb
      modifier := s.target.modifier }
    (s.sources.map (·.operand))

def alpha (s : Arithmetic) : Instruction :=
  .alpha s.opcode.code
    { register := s.target.register.code, modifier := s.target.modifier }
    (s.sources.map (·.operand))

/-- The colour half if a colour channel is written, then the alpha half if alpha is. -/
def instructions (s : Arithmetic) : List Instruction :=
  (if s.target.channels &&& Code.rgb ≠ 0 then [s.color] else []) ++
    if s.target.channels &&& Code.alpha ≠ 0 then [s.alpha] else []

end Arithmetic

namespace Texture

def samples (s : Texture) : Bool := s.opcode.symbol == .texld

/-- The statement samples at coordinates that the program has computed. -/
def dependent (s : Texture) : Bool :=
  match s.coordinates with
  | .interpolator _ => false
  | .temp _ => s.samples

def swizzle (s : Texture) : UInt32 := s.swizzle?.elim Code.swizzleStr (·.code)

def instruction (s : Texture) : Instruction :=
  if s.samples then .sampleMap s.target.code s.coordinates.code s.swizzle
  else .passTexCoord s.target.code s.coordinates.code s.swizzle

end Texture

/-- The interpolator with the number of a texture register. -/
def interpolatorOf : Symbol → UInt32
  | .ps11T0 => Code.t0
  | .ps11T1 => Code.t1
  | .ps11T2 => Code.t2
  | _ => Code.t3

def LegacyTexture.instruction (s : LegacyTexture) : Instruction :=
  if s.opcode.symbol = .tex then
    .sampleMap s.target.code (interpolatorOf s.target.symbol) Code.swizzleStr
  else .passTexCoord s.target.code (interpolatorOf s.target.symbol) Code.swizzleStr

/-- The instructions of a statement with their stages. -/
def Simple.issues (setting : Setting) : Simple → List Issue
  | define register =>
    [⟨.texture1, .setConstants register.code (.ofNat setting.literals)⟩]
  | texture s => [⟨if setting.marked || s.dependent then .texture2 else .texture1, s.instruction⟩]
  | legacyTexture s => [⟨.texture1, s.instruction⟩]
  | arithmetic s =>
    -- inside an expansion arithmetic prepares a sampling, so it belongs to the first pass
    let stage : Stage :=
      if (setting.legacy && !setting.expanding) || setting.marked then .alu2 else .alu1
    s.instructions.map (⟨stage, ·⟩)
  | phaseMarker => []

/-! ### Expansions -/

/-- The temp register with the number of a texture register. -/
def tempOf (t : Terminal .texRegPs11) : Terminal .tempReg :=
  { symbol := match t.symbol with
      | .ps11T0 => .r0
      | .ps11T1 => .r1
      | .ps11T2 => .r2
      | _ => .r3
    member := by split <;> decide }

def scratch4 : Terminal .tempReg := { symbol := .r4, member := by decide }

def scratch5 : Terminal .tempReg := { symbol := .r5, member := by decide }

/-- A source without modifiers. -/
def plain (register : SourceRegister) : Source := ⟨none, register, none, none⟩

def masked (register : Terminal .tempReg) (mask : Terminal .dstMask) : Destination :=
  ⟨none, none, register, some mask⟩

def red : Terminal .dstMask := { symbol := .maskR, member := by decide }

def green : Terminal .dstMask := { symbol := .maskG, member := by decide }

def blue : Terminal .dstMask := { symbol := .maskB, member := by decide }

def rgb : Terminal .dstMask := { symbol := .maskRgb, member := by decide }

def moveChannel (x : Terminal .tempReg) (target : Terminal .dstMask) (y : Terminal .tempReg)
    (channel : Terminal .srcRep) : Simple :=
  .arithmetic ⟨none, .one, .mov, masked x target,
    [⟨none, .temp y, none, some channel⟩], rfl⟩

def binary (opcode : Terminal .binaryOp) (target : Destination) (a b : SourceRegister) : Simple :=
  .arithmetic ⟨none, .two, opcode, target, [plain a, plain b], rfl⟩

def dotProduct (target : Destination) (a b : SourceRegister) : Simple :=
  binary ⟨.dp3, by decide⟩ target a b

def sample (x source : Terminal .tempReg) : Simple :=
  .texture ⟨.texld, x, none, .temp source, none⟩

def passCoordinates (x : Terminal .texRegPs11) : Simple :=
  .legacyTexture ⟨⟨.texcoord, by decide⟩, x⟩

/-- A row of a matrix product: the coordinates of `x` times `y` go to a channel of the
second scratch register. -/
def matrixRow (x y : Terminal .texRegPs11) (channel : Terminal .dstMask) : List Simple :=
  [passCoordinates x,
   dotProduct (masked scratch5 channel) (.temp (tempOf x)) (.temp (tempOf y))]

/-- The eye vector `z` reflected at the normal in the second scratch register. -/
def reflect (x : Terminal .texRegPs11) (z : Terminal .constReg) : List Simple :=
  [dotProduct ⟨some ⟨.x2, by decide⟩, none, scratch4, some rgb⟩ (.temp scratch5)
     (.constant z),
   binary ⟨.mul, by decide⟩ (masked scratch4 rgb) (.temp scratch4) (.temp scratch5),
   dotProduct (masked (tempOf x) rgb) (.temp scratch5) (.temp scratch5),
   .arithmetic ⟨none, .three, ⟨.mad, by decide⟩, masked scratch5 rgb,
     [⟨some ⟨.negate, by decide⟩, .constant z, none, none⟩, plain (.temp (tempOf x)),
      plain (.temp scratch4)], rfl⟩]

/-- The statements that a composite one stands for. The rows of a three-row matrix that
come before the last go to red and green in turn. -/
def Composite.expansion (secondRow : Bool) : Composite → List Simple
  | plain opcode x y =>
    -- `x` names an interpolator and, as a temp register, the place of the result
    let whole : Destination := ⟨none, none, tempOf x, none⟩
    match opcode.symbol with
    | .texreg2ar =>
      [moveChannel (tempOf x) red (tempOf y) ⟨.repA, by decide⟩,
       moveChannel (tempOf x) green (tempOf y) ⟨.repR, by decide⟩,
       sample (tempOf x) (tempOf x)]
    | .texreg2gb =>
      [moveChannel (tempOf x) red (tempOf y) ⟨.repG, by decide⟩,
       moveChannel (tempOf x) green (tempOf y) ⟨.repB, by decide⟩,
       sample (tempOf x) (tempOf x)]
    | .texdp3 => [passCoordinates x, dotProduct whole (.temp (tempOf x)) (.temp (tempOf y))]
    | .texdp3tex =>
      [passCoordinates x, dotProduct whole (.temp (tempOf x)) (.temp (tempOf y)),
       sample (tempOf x) (tempOf x)]
    | .texm3x2pad => matrixRow x y red
    | .texm3x2tex => matrixRow x y green ++ [sample (tempOf x) scratch5]
    | .texm3x3pad => matrixRow x y (if secondRow then green else red)
    | _ => matrixRow x y blue ++ [sample (tempOf x) scratch5]
  | reflection _ x y z =>
    matrixRow x y blue ++ reflect x z ++ [sample (tempOf x) scratch5]

/-! ### Statements in their place -/

def Statement.isMarker (s : Statement) : Bool := s == .simple .phaseMarker

/-- The statement is a row of a three-row matrix before the last. -/
def Statement.isRow : Statement → Bool
  | composite (.plain opcode _ _) => opcode.symbol == .texm3x3pad
  | _ => false

def Statement.literals (s : Statement) : Nat := s.leaves.countP (·.symbol == .value)

/-- The number of numerals in statements. -/
def literalsIn (statements : List Statement) : Nat :=
  (statements.flatMap (·.leaves)).countP (·.symbol == .value)

/-- The setting of a statement behind others. -/
def settingBehind (legacy : Bool) (before : List Statement) : Setting :=
  { legacy, marked := before.any (·.isMarker), expanding := false
    literals := literalsIn before }

/-- The number of rows in front is odd. -/
def secondRowBehind (before : List Statement) : Bool := before.countP (·.isRow) % 2 == 1

/-- What a statement behind others contributes. -/
def Statement.issues (legacy : Bool) (before : List Statement) : Statement → List Issue
  | simple s => s.issues (settingBehind legacy before)
  | composite s =>
    (s.expansion (secondRowBehind before)).flatMap
      (·.issues { settingBehind legacy before with expanding := true })

/-- The contributions of statements behind others, in order. -/
def issuesBehind (legacy : Bool) (before : List Statement) : List Statement → List Issue
  | [] => []
  | s :: rest => s.issues legacy before ++ issuesBehind legacy (before ++ [s]) rest

/-- The contributions of the statements of a program, in the order of the source. -/
def Shader.issues (p : Shader) : List Issue := issuesBehind p.isLegacy [] p.statements

end Syntax
end PixelAsm
