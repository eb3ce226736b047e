import PixelAsm.CompileError
import PixelAsm.Dialect.Symbol

/-!
# Expansions

Some texture instructions of the dialects before ps.1.4 stand for a short program.
Its template is a list of tokens in which the registers of the instruction's
operands are left open. Texture register `n` of these dialects is temp register
`n` of the target, so the templates can use the instructions of ps.1.4 on it.
Registers `r4` and `r5` serve as scratch space.
-/
namespace PixelAsm

/-- The registers that an open place of a template can take. -/
inductive Bank where
  | temp | legacyTexture | constant
  deriving DecidableEq, Repr

namespace Bank

/-- The symbols of a bank by the ordinal of their register. -/
def symbols : Bank → List Symbol
  | temp => [.r0, .r1, .r2, .r3, .r4, .r5]
  | legacyTexture => [.ps11T0, .ps11T1, .ps11T2, .ps11T3]
  | constant => [.c0, .c1, .c2, .c3, .c4, .c5, .c6, .c7]

def registers : Bank → List UInt32
  | temp | legacyTexture => Code.tempRegisters
  | constant => Code.constantRegisters

/-- The rule that accepts a register of the bank. -/
def rule : Bank → Symbol
  | temp => .tempReg
  | legacyTexture => .texRegPs11
  | constant => .constReg

def symbolFor? (bank : Bank) (register : UInt32) : Option Symbol :=
  (Code.ordinal? bank.registers register).bind (bank.symbols[·]?)

end Bank

inductive TemplateItem where
  | token (symbol rule : Symbol)
  /-- The register of an operand of the expanded instruction. -/
  | operand (bank : Bank) (index : Nat)
  /-- The destination mask of a matrix row, which alternates between uses. -/
  | rowMask
  deriving DecidableEq

abbrev Template := List TemplateItem

namespace Template

def comma : TemplateItem := .token .comma .separator

def x : TemplateItem := .operand .temp 0
def y : TemplateItem := .operand .temp 1
def z : TemplateItem := .operand .constant 2
def r4 : TemplateItem := .token .r4 .tempReg
def r5 : TemplateItem := .token .r5 .tempReg

def channels (mask : Symbol) : TemplateItem := .token mask .dstMask

def texcoord : Template := [.token .texcoord .texOpPs11, .operand .legacyTexture 0]

def texld (source : TemplateItem) : Template :=
  [.token .texld .texOpPs14, x, comma, source]

def mov (mask : Symbol) (channel : Symbol) : Template :=
  [.token .mov .unaryOp, x, channels mask, comma, y, .token channel .srcRep]

def binary (operation : Symbol) (target : List TemplateItem) (a b : TemplateItem) : Template :=
  .token operation .binaryOp :: target ++ [comma, a, comma, b]

/-- One row of a matrix product: a channel of `r5` takes the dot product of the
coordinates of `x` with `y`. -/
def row (mask : TemplateItem) : Template := texcoord ++ binary .dp3 [r5, mask] x y

/-- The last row reflects the eye vector `z` at the normal in `r5`. -/
def reflection : Template :=
  binary .dp3 [.token .x2 .dstMod, r4, channels .maskRgb] r5 z
    ++ binary .mul [r4, channels .maskRgb] r4 r5
    ++ binary .dp3 [x, channels .maskRgb] r5 r5
    ++ [.token .mad .ternaryOp, r5, channels .maskRgb, comma, .token .negate .preSrcMod, z,
        comma, x, comma, r4]

def ofOpcode? : Symbol → Option Template
  | .texreg2ar => some (mov .maskR .repA ++ mov .maskG .repR ++ texld x)
  | .texreg2gb => some (mov .maskR .repG ++ mov .maskG .repB ++ texld x)
  | .texdp3 => some (texcoord ++ binary .dp3 [x] x y)
  | .texdp3tex => some (texcoord ++ binary .dp3 [x] x y ++ texld x)
  | .texm3x2pad => some (row (channels .maskR))
  | .texm3x2tex => some (row (channels .maskG) ++ texld r5)
  | .texm3x3pad => some (row .rowMask)
  | .texm3x3tex => some (row (channels .maskB) ++ texld r5)
  | .texm3x3spec => some (row (channels .maskB) ++ reflection ++ texld r5)
  | _ => none

/-- Whether the template asks for the mask of a matrix row. -/
def hasRow (template : Template) : Bool := template.contains .rowMask

/-- Fills one place of a template. All tokens stand at the place of the expanded
instruction. -/
def resolve (register? : Nat → Option UInt32) (rowMask : Symbol) (place : Place) :
    TemplateItem → Except CompileError Token
  | .token symbol rule => .ok { id := symbol.id, rule := rule.id, place }
  | .rowMask => .ok { id := rowMask.id, rule := Symbol.dstMask.id, place }
  | .operand bank index =>
    match register? index with
    | none => .error (.missingOperand index place)
    | some register =>
      match bank.symbolFor? register with
      | none => .error (.expansionOperand index register)
      | some symbol => .ok { id := symbol.id, rule := bank.rule.id, place }

/-- Fills a template; the first place that cannot be filled is reported. -/
def expand (template : Template) (register? : Nat → Option UInt32) (rowMask : Symbol)
    (place : Place) : Except CompileError (List Token) :=
  template.mapM (resolve register? rowMask place)

end Template
end PixelAsm
