import PixelAsm.Dialect.Context
import PixelAsm.Grammar.Basic
import PixelAsm.Target.Code

/-!
# Shader symbols

The symbols of the pixel shader dialects: first the symbols that have rules, then
the terminals. A symbol's id is its position in this list. Each terminal carries
the target's code for what it denotes, and contexts keep the spellings of the
dialects apart.
-/
namespace PixelAsm

inductive Symbol where
  | program | programType | constants | defStmt | defOp | numVal | separator | phaseTwo
  | phaseMarker | texBlock | texStatement | texStmtPs14 | texOpPs14 | texSource | texCoordReg
  | texSwizzle | texStmtPs11 | texOpPs11 | texRegPs11 | texCiscStmt | texCiscOp | texSpecStmt
  | texSpecOp | aluBlock | aluStatement | coIssueMark | aluOp | unaryStmt | unaryOp | binaryStmt
  | binaryOp | ternaryStmt | ternaryOp | destInfo | dstMod | dstSat | dstMask | srcArg | preSrcMod
  | srcReg | postSrcMod | srcRep | tempReg | constReg | colorReg
  | ps14 | ps11 | ps12 | ps13
  | define | comma | value | phase | coIssue
  | r0 | r1 | r2 | r3 | r4 | r5
  | t0 | t1 | t2 | t3 | t4 | t5
  | ps11R0 | ps11R1
  | ps11T0 | ps11T1 | ps11T2 | ps11T3
  | c0 | c1 | c2 | c3 | c4 | c5 | c6 | c7
  | v0 | v1
  | add | sub | mul | mad | lrp | mov | cmp | cnd | dp2Add | dp3 | dp4
  | texcrd | texld | tex | texcoord
  | texreg2ar | texreg2gb | texdp3 | texdp3tex | texm3x2pad | texm3x2tex | texm3x3pad | texm3x3tex
  | texm3x3spec
  | x2 | x4 | x8 | d2 | d4 | d8 | sat
  | maskR | maskG | maskB | maskA | maskRg | maskRb | maskRa | maskGb | maskGa | maskBa | maskRgb
  | maskRga | maskRba | maskGba | maskRgba
  | negate | invert | bias | srcX2 | bx2
  | repR | repG | repB | repA
  | swizzleStr | swizzleStq | swizzleStrq | swizzleStrDr | swizzleStqDq
  deriving DecidableEq

namespace Symbol

def all : List Symbol :=
  [.program, .programType, .constants, .defStmt, .defOp, .numVal, .separator, .phaseTwo,
   .phaseMarker, .texBlock, .texStatement, .texStmtPs14, .texOpPs14, .texSource, .texCoordReg,
   .texSwizzle, .texStmtPs11, .texOpPs11, .texRegPs11, .texCiscStmt, .texCiscOp, .texSpecStmt,
   .texSpecOp, .aluBlock, .aluStatement, .coIssueMark, .aluOp, .unaryStmt, .unaryOp,
   .binaryStmt, .binaryOp, .ternaryStmt, .ternaryOp, .destInfo, .dstMod, .dstSat, .dstMask,
   .srcArg, .preSrcMod, .srcReg, .postSrcMod, .srcRep, .tempReg, .constReg, .colorReg,
   .ps14, .ps11, .ps12, .ps13,
   .define, .comma, .value, .phase, .coIssue,
   .r0, .r1, .r2, .r3, .r4, .r5,
   .t0, .t1, .t2, .t3, .t4, .t5,
   .ps11R0, .ps11R1,
   .ps11T0, .ps11T1, .ps11T2, .ps11T3,
   .c0, .c1, .c2, .c3, .c4, .c5, .c6, .c7,
   .v0, .v1,
   .add, .sub, .mul, .mad, .lrp, .mov, .cmp, .cnd, .dp2Add, .dp3, .dp4,
   .texcrd, .texld, .tex, .texcoord,
   .texreg2ar, .texreg2gb, .texdp3, .texdp3tex, .texm3x2pad, .texm3x2tex, .texm3x3pad,
   .texm3x3tex, .texm3x3spec,
   .x2, .x4, .x8, .d2, .d4, .d8, .sat,
   .maskR, .maskG, .maskB, .maskA, .maskRg, .maskRb, .maskRa, .maskGb, .maskGa, .maskBa, .maskRgb,
   .maskRga, .maskRba, .maskGba, .maskRgba,
   .negate, .invert, .bias, .srcX2, .bx2,
   .repR, .repG, .repB, .repA,
   .swizzleStr, .swizzleStq, .swizzleStrq, .swizzleStrDr, .swizzleStqDq]

def id (s : Symbol) : SymbolId := s.ctorIdx

def ofId? (id : SymbolId) : Option Symbol := all[id]?

def name : Symbol → String
  | .program => "Program" | .programType => "ProgramType" | .constants => "Constants"
  | .defStmt => "DefStmt" | .defOp => "DefOp" | .numVal => "NumVal" | .separator => "Separator"
  | .phaseTwo => "PhaseTwo" | .phaseMarker => "PhaseMarker" | .texBlock => "TexBlock"
  | .texStatement => "TexStatement" | .texStmtPs14 => "TexStmtPs14" | .texOpPs14 => "TexOpPs14"
  | .texSource => "TexSource" | .texCoordReg => "TexCoordReg" | .texSwizzle => "TexSwizzle"
  | .texStmtPs11 => "TexStmtPs11" | .texOpPs11 => "TexOpPs11" | .texRegPs11 => "TexRegPs11"
  | .texCiscStmt => "TexCiscStmt" | .texCiscOp => "TexCiscOp" | .texSpecStmt => "TexSpecStmt"
  | .texSpecOp => "TexSpecOp" | .aluBlock => "AluBlock" | .aluStatement => "AluStatement"
  | .coIssueMark => "CoIssueMark" | .aluOp => "AluOp" | .unaryStmt => "UnaryStmt"
  | .unaryOp => "UnaryOp" | .binaryStmt => "BinaryStmt" | .binaryOp => "BinaryOp"
  | .ternaryStmt => "TernaryStmt" | .ternaryOp => "TernaryOp" | .destInfo => "DestInfo"
  | .dstMod => "DstMod" | .dstSat => "DstSat" | .dstMask => "DstMask" | .srcArg => "SrcArg"
  | .preSrcMod => "PreSrcMod" | .srcReg => "SrcReg" | .postSrcMod => "PostSrcMod"
  | .srcRep => "SrcRep" | .tempReg => "TempReg" | .constReg => "ConstReg"
  | .colorReg => "ColorReg"
  | .ps14 => "Ps14" | .ps11 => "Ps11" | .ps12 => "Ps12" | .ps13 => "Ps13"
  | .define => "Def" | .comma => "Comma" | .value => "Value" | .phase => "Phase"
  | .coIssue => "CoIssue"
  | .r0 => "R0" | .r1 => "R1" | .r2 => "R2" | .r3 => "R3" | .r4 => "R4" | .r5 => "R5"
  | .t0 => "T0" | .t1 => "T1" | .t2 => "T2" | .t3 => "T3" | .t4 => "T4" | .t5 => "T5"
  | .ps11R0 => "Ps11R0" | .ps11R1 => "Ps11R1"
  | .ps11T0 => "Ps11T0" | .ps11T1 => "Ps11T1" | .ps11T2 => "Ps11T2" | .ps11T3 => "Ps11T3"
  | .c0 => "C0" | .c1 => "C1" | .c2 => "C2" | .c3 => "C3" | .c4 => "C4" | .c5 => "C5"
  | .c6 => "C6" | .c7 => "C7"
  | .v0 => "V0" | .v1 => "V1"
  | .add => "Add" | .sub => "Sub" | .mul => "Mul" | .mad => "Mad" | .lrp => "Lrp" | .mov => "Mov"
  | .cmp => "Cmp" | .cnd => "Cnd" | .dp2Add => "Dp2Add" | .dp3 => "Dp3" | .dp4 => "Dp4"
  | .texcrd => "Texcrd" | .texld => "Texld" | .tex => "Tex" | .texcoord => "Texcoord"
  | .texreg2ar => "Texreg2ar" | .texreg2gb => "Texreg2gb" | .texdp3 => "Texdp3"
  | .texdp3tex => "Texdp3tex" | .texm3x2pad => "Texm3x2pad" | .texm3x2tex => "Texm3x2tex"
  | .texm3x3pad => "Texm3x3pad" | .texm3x3tex => "Texm3x3tex" | .texm3x3spec => "Texm3x3spec"
  | .x2 => "X2" | .x4 => "X4" | .x8 => "X8" | .d2 => "D2" | .d4 => "D4" | .d8 => "D8"
  | .sat => "Sat"
  | .maskR => "MaskR" | .maskG => "MaskG" | .maskB => "MaskB" | .maskA => "MaskA"
  | .maskRg => "MaskRg" | .maskRb => "MaskRb" | .maskRa => "MaskRa" | .maskGb => "MaskGb"
  | .maskGa => "MaskGa" | .maskBa => "MaskBa" | .maskRgb => "MaskRgb" | .maskRga => "MaskRga"
  | .maskRba => "MaskRba" | .maskGba => "MaskGba" | .maskRgba => "MaskRgba"
  | .negate => "Negate" | .invert => "Invert" | .bias => "Bias" | .srcX2 => "SrcX2"
  | .bx2 => "Bx2"
  | .repR => "RepR" | .repG => "RepG" | .repB => "RepB" | .repA => "RepA"
  | .swizzleStr => "SwizzleStr" | .swizzleStq => "SwizzleStq" | .swizzleStrq => "SwizzleStrq"
  | .swizzleStrDr => "SwizzleStrDr" | .swizzleStqDq => "SwizzleStqDq"

/-- The target's code for what a symbol denotes, zero where it denotes nothing. The
texture registers of the first family are the temp registers with the same number,
and its two temp registers are the last two of the target. -/
def code : Symbol → UInt32
  | .r0 | .ps11T0 => Code.r0
  | .r1 | .ps11T1 => Code.r1
  | .r2 | .ps11T2 => Code.r2
  | .r3 | .ps11T3 => Code.r3
  | .r4 | .ps11R0 => Code.r4
  | .r5 | .ps11R1 => Code.r5
  | .t0 => Code.t0
  | .t1 => Code.t1
  | .t2 => Code.t2
  | .t3 => Code.t3
  | .t4 => Code.t4
  | .t5 => Code.t5
  | .c0 => Code.c0
  | .c1 => Code.c1
  | .c2 => Code.c2
  | .c3 => Code.c3
  | .c4 => Code.c4
  | .c5 => Code.c5
  | .c6 => Code.c6
  | .c7 => Code.c7
  | .v0 => Code.primaryColor
  | .v1 => Code.secondaryColor
  | .add => Code.add
  | .sub => Code.sub
  | .mul => Code.mul
  | .mad => Code.mad
  | .lrp => Code.lerp
  | .mov => Code.mov
  | .cnd => Code.cnd
  | .cmp => Code.cnd0
  | .dp3 => Code.dot3
  | .dp4 => Code.dot4
  | .dp2Add => Code.dot2Add
  | .x2 | .srcX2 => Code.times2
  | .x4 => Code.times4
  | .x8 => Code.times8
  | .d2 => Code.half
  | .d4 => Code.quarter
  | .d8 => Code.eighth
  | .sat => Code.saturate
  | .maskR => Code.red
  | .maskG => Code.green
  | .maskB => Code.blue
  | .maskA => Code.alpha
  | .maskRg => Code.red ||| Code.green
  | .maskRb => Code.red ||| Code.blue
  | .maskRa => Code.red ||| Code.alpha
  | .maskGb => Code.green ||| Code.blue
  | .maskGa => Code.green ||| Code.alpha
  | .maskBa => Code.blue ||| Code.alpha
  | .maskRgb => Code.rgb
  | .maskRga => Code.red ||| Code.green ||| Code.alpha
  | .maskRba => Code.red ||| Code.blue ||| Code.alpha
  | .maskGba => Code.green ||| Code.blue ||| Code.alpha
  | .maskRgba => Code.rgba
  | .negate => Code.negate
  | .invert => Code.complement
  | .bias => Code.bias
  | .bx2 => Code.bias ||| Code.times2
  | .repR => Code.replicateRed
  | .repG => Code.replicateGreen
  | .repB => Code.replicateBlue
  | .repA => Code.replicateAlpha
  | .swizzleStr => Code.swizzleStr
  | .swizzleStq => Code.swizzleStq
  | .swizzleStrq => Code.swizzleStrq
  | .swizzleStrDr => Code.swizzleStrDr
  | .swizzleStqDq => Code.swizzleStqDq
  | _ => 0

/-- The contexts in which a symbol is recognised. -/
def contextKey : Symbol → UInt32
  | .texStmtPs14 | .phaseTwo => Context.ps14
  | .texStmtPs11 | .texCiscStmt | .texSpecStmt => Context.ps11
  | .phase => Context.phase1
  | .r0 | .r1 | .r2 | .r3 | .r4 | .r5 => Context.ps14
  | .t0 | .t1 | .t2 | .t3 | .t4 | .t5 => Context.ps14
  | .ps11R0 | .ps11R1 | .ps11T0 | .ps11T1 | .ps11T2 | .ps11T3 => Context.ps11
  | .cmp | .dp4 => Context.ps12 ||| Context.ps14
  | .dp2Add => Context.ps14
  | .texcrd | .texld => Context.ps14
  | .tex | .texcoord => Context.ps11
  | .texreg2ar | .texreg2gb | .texm3x2pad | .texm3x2tex | .texm3x3pad | .texm3x3tex
  | .texm3x3spec => Context.ps11
  | .texdp3 | .texdp3tex => Context.ps12
  | _ => Context.base

/-- The contexts that a symbol opens: a program's version opens its dialects. -/
def contextSet : Symbol → UInt32
  | .ps14 => Context.ps14 ||| Context.phase1
  | .ps11 => Context.ps11
  | .ps12 => Context.ps11 ||| Context.ps12
  | .ps13 => Context.ps11 ||| Context.ps12 ||| Context.ps13
  | _ => 0

def contextClear : Symbol → UInt32
  | .phase => Context.phase1
  | _ => 0

def definition (s : Symbol) : SymbolDef :=
  { id := s.id, code := s.code, contextKey := s.contextKey
    contextSet := s.contextSet, contextClear := s.contextClear }

end Symbol
end PixelAsm
