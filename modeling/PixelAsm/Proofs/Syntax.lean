import PixelAsm.Dialect.Symbol
import PixelAsm.Instruction.Basic
import PixelAsm.Token

/-!
# Abstract programs

Programs of the shader dialects as trees. A tree holds the terminals of a program
with the roles that they play, and says nothing about how they are spelled, where
they stand or what separates them.
-/
namespace PixelAsm

/-- A terminal with the rule that accepts it, which is its role. -/
structure Leaf where
  symbol : Symbol
  rule : Symbol
  deriving DecidableEq

def Leaf.key (l : Leaf) : SymbolId × SymbolId := (l.symbol.id, l.rule.id)

def Token.key (t : Token) : SymbolId × SymbolId := (t.id, t.rule)

/-- The terminals that can play a role. -/
def Symbol.terminals : Symbol → List Symbol
  | .programType => [.ps14, .ps11, .ps12, .ps13]
  | .defOp => [.define]
  | .numVal => [.value]
  | .separator => [.comma]
  | .phaseMarker => [.phase]
  | .texOpPs14 => [.texcrd, .texld]
  | .texCoordReg => [.t0, .t1, .t2, .t3, .t4, .t5]
  | .texSwizzle => [.swizzleStr, .swizzleStq, .swizzleStrq, .swizzleStrDr, .swizzleStqDq]
  | .texOpPs11 => [.texcoord, .tex]
  | .texRegPs11 => [.ps11T0, .ps11T1, .ps11T2, .ps11T3]
  | .texCiscOp =>
    [.texreg2ar, .texreg2gb, .texdp3, .texdp3tex, .texm3x2pad, .texm3x2tex, .texm3x3pad,
     .texm3x3tex]
  | .texSpecOp => [.texm3x3spec]
  | .coIssueMark => [.coIssue]
  | .unaryOp => [.mov]
  | .binaryOp => [.add, .sub, .mul, .dp3, .dp4]
  | .ternaryOp => [.mad, .lrp, .cnd, .cmp, .dp2Add]
  | .dstMod => [.x2, .x4, .x8, .d2, .d4, .d8]
  | .dstSat => [.sat]
  | .dstMask =>
    [.maskR, .maskG, .maskB, .maskA, .maskRg, .maskRb, .maskRa, .maskGb, .maskGa, .maskBa,
     .maskRgb, .maskRga, .maskRba, .maskGba, .maskRgba]
  | .preSrcMod => [.invert, .negate]
  | .postSrcMod => [.bx2, .bias, .srcX2]
  | .srcRep => [.repR, .repG, .repB, .repA]
  | .tempReg =>
    [.r0, .r1, .r2, .r3, .r4, .r5, .ps11R0, .ps11R1, .ps11T0, .ps11T1, .ps11T2, .ps11T3]
  | .constReg => [.c0, .c1, .c2, .c3, .c4, .c5, .c6, .c7]
  | .colorReg => [.v0, .v1]
  | _ => []

/-- A terminal in a given role. -/
structure Terminal (rule : Symbol) where
  symbol : Symbol
  member : symbol ∈ rule.terminals
  deriving DecidableEq

namespace Terminal

variable {rule : Symbol}

def leaf (t : Terminal rule) : Leaf := { symbol := t.symbol, rule }

def code (t : Terminal rule) : UInt32 := t.symbol.code

/-- The code of a terminal that may be left out, zero if it is. -/
def codeOf (t? : Option (Terminal rule)) : UInt32 := t?.elim 0 (·.code)

def leaves (t? : Option (Terminal rule)) : List Leaf := t?.elim [] fun t => [t.leaf]

-- the terminals that trees are written down with

def ps14 : Terminal .programType := { symbol := .ps14, member := by decide }

def texcrd : Terminal .texOpPs14 := { symbol := .texcrd, member := by decide }

def texld : Terminal .texOpPs14 := { symbol := .texld, member := by decide }

def mov : Terminal .unaryOp := { symbol := .mov, member := by decide }

def add : Terminal .binaryOp := { symbol := .add, member := by decide }

def t0 : Terminal .texCoordReg := { symbol := .t0, member := by decide }

def r0 : Terminal .tempReg := { symbol := .r0, member := by decide }

def r1 : Terminal .tempReg := { symbol := .r1, member := by decide }

def r2 : Terminal .tempReg := { symbol := .r2, member := by decide }

def ps11 : Terminal .programType := { symbol := .ps11, member := by decide }

def tex : Terminal .texOpPs11 := { symbol := .tex, member := by decide }

def texm3x2pad : Terminal .texCiscOp := { symbol := .texm3x2pad, member := by decide }

def ps11T0 : Terminal .texRegPs11 := { symbol := .ps11T0, member := by decide }

def ps11T1 : Terminal .texRegPs11 := { symbol := .ps11T1, member := by decide }

def ps11R0 : Terminal .tempReg := { symbol := .ps11R0, member := by decide }

def ps11R1 : Terminal .tempReg := { symbol := .ps11R1, member := by decide }

end Terminal

namespace Syntax

/-- The destination of an arithmetic statement. -/
structure Destination where
  scale? : Option (Terminal .dstMod)
  saturate? : Option (Terminal .dstSat)
  register : Terminal .tempReg
  mask? : Option (Terminal .dstMask)
  deriving DecidableEq

inductive SourceRegister where
  | temp (register : Terminal .tempReg)
  | constant (register : Terminal .constReg)
  | color (register : Terminal .colorReg)
  deriving DecidableEq

/-- A source of an arithmetic statement. -/
structure Source where
  before? : Option (Terminal .preSrcMod)
  register : SourceRegister
  behind? : Option (Terminal .postSrcMod)
  replicate? : Option (Terminal .srcRep)
  deriving DecidableEq

/-- The role of the opcodes with a number of sources. -/
def opcodeRule : Arity → Symbol
  | .one => .unaryOp
  | .two => .binaryOp
  | .three => .ternaryOp

structure Arithmetic where
  coIssue? : Option (Terminal .coIssueMark)
  arity : Arity
  opcode : Terminal (opcodeRule arity)
  target : Destination
  sources : List Source
  length_sources : sources.length = arity.count
  deriving DecidableEq

/-- Where a texture statement of ps.1.4 takes its coordinates from. -/
inductive Coordinates where
  | interpolator (register : Terminal .texCoordReg)
  | temp (register : Terminal .tempReg)
  deriving DecidableEq

/-- A texture statement of ps.1.4. -/
structure Texture where
  opcode : Terminal .texOpPs14
  target : Terminal .tempReg
  mask? : Option (Terminal .dstMask)
  coordinates : Coordinates
  swizzle? : Option (Terminal .texSwizzle)
  deriving DecidableEq

/-- A texture statement of the dialects before ps.1.4. -/
structure LegacyTexture where
  opcode : Terminal .texOpPs11
  target : Terminal .texRegPs11
  deriving DecidableEq

/-- A statement that stands for a short program. -/
inductive Composite where
  | plain (opcode : Terminal .texCiscOp) (x y : Terminal .texRegPs11)
  | reflection (opcode : Terminal .texSpecOp) (x y : Terminal .texRegPs11)
      (z : Terminal .constReg)
  deriving DecidableEq

/-- A statement that stands for itself. -/
inductive Simple where
  | define (register : Terminal .constReg)
  | texture (s : Texture)
  | legacyTexture (s : LegacyTexture)
  | arithmetic (s : Arithmetic)
  | phaseMarker
  deriving DecidableEq

inductive Statement where
  | simple (s : Simple)
  | composite (s : Composite)
  deriving DecidableEq

inductive TextureStatement where
  | current (s : Texture)
  | legacy (s : LegacyTexture)
  | composite (s : Composite)
  deriving DecidableEq

def TextureStatement.statement : TextureStatement → Statement
  | current s => .simple (.texture s)
  | legacy s => .simple (.legacyTexture s)
  | composite s => .composite s

/-- Texture statements, then arithmetic. -/
structure Block where
  textures : List TextureStatement
  arithmetic : List Arithmetic
  deriving DecidableEq

def Block.statements (b : Block) : List Statement :=
  b.textures.map (·.statement) ++ b.arithmetic.map (.simple <| .arithmetic ·)

/-- A program of one of the shader dialects. -/
structure Shader where
  version : Terminal .programType
  definitions : List (Terminal .constReg)
  first : Block
  /-- What follows the phase marker, if there is one. -/
  second? : Option Block
  deriving DecidableEq

namespace Shader

def firstStatements (p : Shader) : List Statement :=
  p.definitions.map (.simple <| .define ·) ++ p.first.statements

def secondStatements (p : Shader) : List Statement :=
  match p.second? with
  | some block => .simple .phaseMarker :: block.statements
  | none => []

/-- The statements behind the version, in the order of the source. -/
def statements (p : Shader) : List Statement := p.firstStatements ++ p.secondStatements

end Shader

/-! ### Leaves -/

def comma : Leaf := { symbol := .comma, rule := .separator }

def numeral : Leaf := { symbol := .value, rule := .numVal }

def Destination.leaves (d : Destination) : List Leaf :=
  Terminal.leaves d.scale? ++ Terminal.leaves d.saturate? ++ [d.register.leaf]
    ++ Terminal.leaves d.mask?

def SourceRegister.leaf : SourceRegister → Leaf
  | temp register => register.leaf
  | constant register => register.leaf
  | color register => register.leaf

def SourceRegister.code (r : SourceRegister) : UInt32 := r.leaf.symbol.code

def Source.leaves (s : Source) : List Leaf :=
  Terminal.leaves s.before? ++ [s.register.leaf] ++ Terminal.leaves s.behind?
    ++ Terminal.leaves s.replicate?

def Coordinates.leaf : Coordinates → Leaf
  | interpolator register => register.leaf
  | temp register => register.leaf

def Coordinates.code (c : Coordinates) : UInt32 := c.leaf.symbol.code

/-- A statement as its opcode, the mark in front of it, and the leaves of its operands.
The first operand is the destination. -/
structure Layout where
  mark : List Leaf := []
  opcode : Leaf
  target : List Leaf := []
  others : List (List Leaf) := []

/-- The leaves of the operands with a separator between two. -/
def Layout.operandLeaves (l : Layout) : List Leaf := l.target ++ l.others.flatMap (comma :: ·)

def Layout.leaves (l : Layout) : List Leaf := l.mark ++ l.opcode :: l.operandLeaves

def Simple.layout : Simple → Layout
  | define register =>
    { opcode := ⟨.define, .defOp⟩, target := [register.leaf]
      others := [[numeral], [numeral], [numeral], [numeral]] }
  | texture s =>
    { opcode := s.opcode.leaf, target := s.target.leaf :: Terminal.leaves s.mask?
      others := [s.coordinates.leaf :: Terminal.leaves s.swizzle?] }
  | legacyTexture s => { opcode := s.opcode.leaf, target := [s.target.leaf] }
  | arithmetic s =>
    { mark := Terminal.leaves s.coIssue?, opcode := s.opcode.leaf, target := s.target.leaves
      others := s.sources.map (·.leaves) }
  | phaseMarker => { opcode := ⟨.phase, .phaseMarker⟩ }

def Composite.layout : Composite → Layout
  | plain opcode x y => { opcode := opcode.leaf, target := [x.leaf], others := [[y.leaf]] }
  | reflection opcode x y z =>
    { opcode := opcode.leaf, target := [x.leaf], others := [[y.leaf], [z.leaf]] }

def Statement.layout : Statement → Layout
  | simple s => s.layout
  | composite s => s.layout

def Statement.leaves (s : Statement) : List Leaf := s.layout.leaves

def Shader.leaves (p : Shader) : List Leaf :=
  p.version.leaf :: p.statements.flatMap (·.leaves)

/-! ### Dialects -/

/-- Every leaf may stand where these contexts are active. -/
def Active (contexts : UInt32) (leaves : List Leaf) : Prop :=
  ∀ l ∈ leaves, l.symbol.contextKey &&& contexts ≠ 0

instance (contexts : UInt32) (leaves : List Leaf) : Decidable (Active contexts leaves) :=
  inferInstanceAs (Decidable (∀ l ∈ leaves, l.symbol.contextKey &&& contexts ≠ 0))

/-- The contexts that a program's version opens. -/
def Shader.openContexts (p : Shader) : UInt32 := Context.base ||| p.version.symbol.contextSet

/-- The contexts behind the last statement. -/
def Shader.finalContexts (p : Shader) : UInt32 :=
  match p.second? with
  | some _ => p.openContexts &&& ~~~Context.phase1
  | none => p.openContexts

/-- The program keeps to the dialect that its version names. -/
structure Shader.InDialect (p : Shader) : Prop where
  first : Active p.openContexts (p.firstStatements.flatMap (·.leaves))
  second : ∀ block, p.second? = some block →
    Context.phase1 &&& p.openContexts ≠ 0 ∧
      Active (p.openContexts &&& ~~~Context.phase1) (block.statements.flatMap (·.leaves))

/-- The program is written in a dialect before ps.1.4. -/
def Shader.isLegacy (p : Shader) : Bool := p.version.symbol != .ps14

end Syntax
end PixelAsm
