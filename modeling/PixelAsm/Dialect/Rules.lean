import PixelAsm.Dialect.Symbol
import PixelAsm.Grammar.Link

/-!
# Shader rules

The grammar of ps.1.1 to ps.1.4 programs:

    program      := programType [constants] [texBlock] [aluBlock] [phaseTwo]
    phaseTwo     := phaseMarker [texBlock] [aluBlock]
    defStmt      := "def" constReg "," value "," value "," value "," value
    texStatement := texStmtPs14 | texCiscStmt | texSpecStmt | texStmtPs11
    aluStatement := ["+"] (unaryStmt | binaryStmt | ternaryStmt)
    destInfo     := [dstMod] [dstSat] tempReg [dstMask]
    srcArg       := [preSrcMod] srcReg [postSrcMod] [srcRep]

Every terminal is accepted by a small rule that names its role, so a token's role
can be told from its rule alone. Of two spellings that begin alike the longer one
comes first.
-/
namespace PixelAsm.Dialect

def spelled (s : Symbol) (text : String) : Term := { symbol := s.id, text? := some text }

def bare (s : Symbol) : Term := { symbol := s.id }

def need (s : Symbol) : Step := .require (bare s)

def offer (s : Symbol) : Step := .maybe (bare s)

def several (s : Symbol) : Step := .many (bare s)

def sequence (head : Symbol) (body : List Step) : List Step :=
  .rule head.id :: body ++ [.done]

def alternatives (head : Symbol) : List Term → List Step
  | [] => sequence head []
  | first :: others => sequence head (.require first :: others.map .orElse)

def rules : List Step := List.flatten [
  sequence .program
    [need .programType, offer .constants, offer .texBlock, offer .aluBlock, offer .phaseTwo],
  alternatives .programType
    [spelled .ps14 "ps.1.4", spelled .ps11 "ps.1.1", spelled .ps12 "ps.1.2",
     spelled .ps13 "ps.1.3"],
  sequence .constants [several .defStmt],
  sequence .defStmt
    [need .defOp, need .constReg, need .separator, need .numVal, need .separator, need .numVal,
     need .separator, need .numVal, need .separator, need .numVal],
  alternatives .defOp [spelled .define "def"],
  sequence .numVal [need .value],
  alternatives .separator [spelled .comma ","],
  sequence .phaseTwo [need .phaseMarker, offer .texBlock, offer .aluBlock],
  alternatives .phaseMarker [spelled .phase "phase"],
  sequence .texBlock [several .texStatement],
  alternatives .texStatement
    [bare .texStmtPs14, bare .texCiscStmt, bare .texSpecStmt, bare .texStmtPs11],
  sequence .texStmtPs14
    [need .texOpPs14, need .tempReg, offer .dstMask, need .separator, need .texSource,
     offer .texSwizzle],
  alternatives .texOpPs14 [spelled .texcrd "texcrd", spelled .texld "texld"],
  alternatives .texSource [bare .texCoordReg, bare .tempReg],
  alternatives .texCoordReg
    [spelled .t0 "t0", spelled .t1 "t1", spelled .t2 "t2", spelled .t3 "t3", spelled .t4 "t4",
     spelled .t5 "t5"],
  alternatives .texSwizzle
    [spelled .swizzleStrq ".xyzw", spelled .swizzleStrq ".rgba", spelled .swizzleStr ".xyz",
     spelled .swizzleStr ".rgb", spelled .swizzleStq ".xyw", spelled .swizzleStq ".rga",
     spelled .swizzleStrDr "_dz", spelled .swizzleStrDr "_db", spelled .swizzleStqDq "_dw",
     spelled .swizzleStqDq "_da"],
  sequence .texStmtPs11 [need .texOpPs11, need .texRegPs11],
  alternatives .texOpPs11 [spelled .texcoord "texcoord", spelled .tex "tex"],
  alternatives .texRegPs11
    [spelled .ps11T0 "t0", spelled .ps11T1 "t1", spelled .ps11T2 "t2", spelled .ps11T3 "t3"],
  sequence .texCiscStmt [need .texCiscOp, need .texRegPs11, need .separator, need .texRegPs11],
  alternatives .texCiscOp
    [spelled .texreg2ar "texreg2ar", spelled .texreg2gb "texreg2gb",
     spelled .texdp3tex "texdp3tex", spelled .texdp3 "texdp3", spelled .texm3x2pad "texm3x2pad",
     spelled .texm3x2tex "texm3x2tex", spelled .texm3x3pad "texm3x3pad",
     spelled .texm3x3tex "texm3x3tex"],
  sequence .texSpecStmt
    [need .texSpecOp, need .texRegPs11, need .separator, need .texRegPs11, need .separator,
     need .constReg],
  alternatives .texSpecOp [spelled .texm3x3spec "texm3x3spec"],
  sequence .aluBlock [several .aluStatement],
  sequence .aluStatement [offer .coIssueMark, need .aluOp],
  alternatives .coIssueMark [spelled .coIssue "+"],
  alternatives .aluOp [bare .unaryStmt, bare .binaryStmt, bare .ternaryStmt],
  sequence .unaryStmt [need .unaryOp, need .destInfo, need .separator, need .srcArg],
  alternatives .unaryOp [spelled .mov "mov"],
  sequence .binaryStmt
    [need .binaryOp, need .destInfo, need .separator, need .srcArg, need .separator,
     need .srcArg],
  alternatives .binaryOp
    [spelled .add "add", spelled .sub "sub", spelled .mul "mul", spelled .dp3 "dp3",
     spelled .dp4 "dp4"],
  sequence .ternaryStmt
    [need .ternaryOp, need .destInfo, need .separator, need .srcArg, need .separator,
     need .srcArg, need .separator, need .srcArg],
  alternatives .ternaryOp
    [spelled .mad "mad", spelled .lrp "lrp", spelled .cnd "cnd", spelled .cmp "cmp",
     spelled .dp2Add "dp2add"],
  sequence .destInfo [offer .dstMod, offer .dstSat, need .tempReg, offer .dstMask],
  alternatives .dstMod
    [spelled .x2 "_x2", spelled .x4 "_x4", spelled .x8 "_x8", spelled .d2 "_d2",
     spelled .d4 "_d4", spelled .d8 "_d8"],
  alternatives .dstSat [spelled .sat "_sat"],
  alternatives .dstMask
    [spelled .maskRgba ".rgba", spelled .maskRgba ".xyzw", spelled .maskRgb ".rgb",
     spelled .maskRgb ".xyz", spelled .maskRga ".rga", spelled .maskRga ".xyw",
     spelled .maskRba ".rba", spelled .maskRba ".xzw", spelled .maskGba ".gba",
     spelled .maskGba ".yzw", spelled .maskRg ".rg", spelled .maskRg ".xy",
     spelled .maskRb ".rb", spelled .maskRb ".xz", spelled .maskRa ".ra", spelled .maskRa ".xw",
     spelled .maskGb ".gb", spelled .maskGb ".yz", spelled .maskGa ".ga", spelled .maskGa ".yw",
     spelled .maskBa ".ba", spelled .maskBa ".zw", spelled .maskR ".r", spelled .maskR ".x",
     spelled .maskG ".g", spelled .maskG ".y", spelled .maskB ".b", spelled .maskB ".z",
     spelled .maskA ".a", spelled .maskA ".w"],
  sequence .srcArg [offer .preSrcMod, need .srcReg, offer .postSrcMod, offer .srcRep],
  alternatives .preSrcMod [spelled .invert "1-", spelled .negate "-"],
  alternatives .srcReg [bare .tempReg, bare .constReg, bare .colorReg],
  alternatives .postSrcMod [spelled .bx2 "_bx2", spelled .bias "_bias", spelled .srcX2 "_x2"],
  alternatives .srcRep
    [spelled .repR ".r", spelled .repR ".x", spelled .repG ".g", spelled .repG ".y",
     spelled .repB ".b", spelled .repB ".z", spelled .repA ".a", spelled .repA ".w"],
  alternatives .tempReg
    [spelled .r0 "r0", spelled .r1 "r1", spelled .r2 "r2", spelled .r3 "r3", spelled .r4 "r4",
     spelled .r5 "r5", spelled .ps11R0 "r0", spelled .ps11R1 "r1", bare .ps11T0, bare .ps11T1,
     bare .ps11T2, bare .ps11T3],
  alternatives .constReg
    [spelled .c0 "c0", spelled .c1 "c1", spelled .c2 "c2", spelled .c3 "c3", spelled .c4 "c4",
     spelled .c5 "c5", spelled .c6 "c6", spelled .c7 "c7"],
  alternatives .colorReg [spelled .v0 "v0", spelled .v1 "v1"]]

def symbols : List SymbolDef := Symbol.all.map Symbol.definition

/-- The grammar of the shader dialects. A program starts with its version, which
opens the dialect's contexts. -/
def grammar : Except GrammarError Grammar :=
  Grammar.link symbols rules Symbol.value.id Context.base

end PixelAsm.Dialect
