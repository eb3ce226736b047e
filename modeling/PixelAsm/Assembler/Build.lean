import PixelAsm.Assembler.Basic
import PixelAsm.Assembler.Expansion
import PixelAsm.Reading

/-!
# Assembling

Tokens are turned into queued instructions. An opcode completes the instruction
before it and starts the next one; the other tokens fill its slots. A program of
a dialect before ps.1.4 delivers its result in a register from which the target
does not read, so its last instruction is given the target's output register.
-/
namespace PixelAsm

/-- What an opcode asks for. -/
inductive Operation where
  | alu
  | texture (samples : Bool)
  | legacyTexture (samples : Bool)
  | constants
  | phaseMarker
  | template (template : Template)

def Symbol.operation? : Symbol → Option Operation
  | .add | .sub | .mul | .mad | .lrp | .mov | .cmp | .cnd | .dp2Add | .dp3 | .dp4 => some .alu
  | .texcrd => some (.texture false)
  | .texld => some (.texture true)
  | .texcoord => some (.legacyTexture false)
  | .tex => some (.legacyTexture true)
  | .define => some .constants
  | .phase => some .phaseMarker
  | opcode => (Template.ofOpcode? opcode).map .template

namespace Assembly

/-- An arithmetic instruction becomes a colour operation, an alpha operation or
both, as its destination mask says. -/
def buildAlu (p : Pending) : Assembly Unit := do
  let (target, sources) ← ofExcept (p.operands 1 3)
  let a ← get
  let stage : Stage :=
    if (a.legacy && !a.expanding) || a.phaseMarked then .alu2 else .alu1
  let mask := if target.channel = 0 then Code.rgba else target.channel
  if mask &&& Code.rgb != 0 then
    let color := { register := target.register, mask := mask &&& Code.rgb,
                   modifier := target.modifier }
    commit stage (.color p.code color sources) p
  if mask &&& Code.alpha != 0 then
    let alpha := { register := target.register, modifier := target.modifier }
    commit stage (.alpha p.code alpha sources) p

/-- The texture instructions of ps.1.4. Sampling at coordinates that were computed
needs the second pass. -/
def buildTexture (samples : Bool) (p : Pending) : Assembly Unit := do
  let (target, _) ← ofExcept (p.operands 1 1)
  let source ← ofExcept (p.operand 1)
  let swizzle := if source.channel = 0 then Code.swizzleStr else source.channel
  let dependent := samples && Code.isTemp source.register
  let stage : Stage := if (← get).phaseMarked || dependent then .texture2 else .texture1
  if samples then commit stage (.sampleMap target.register source.register swizzle) p
  else commit stage (.passTexCoord target.register source.register swizzle) p

/-- The texture instructions of the dialects before ps.1.4, whose destination
implies the interpolator. -/
def buildLegacyTexture (samples : Bool) (p : Pending) : Assembly Unit := do
  let target ← ofExcept (p.operand 0)
  match (Code.ordinal? Code.tempRegisters target.register).bind (Code.textureUnits[·]?) with
  | none => throw (.missingOperand 0 p.place)
  | some interpolator =>
    if samples then
      commit .texture1 (.sampleMap target.register interpolator Code.swizzleStr) p
    else
      commit .texture1 (.passTexCoord target.register interpolator Code.swizzleStr) p

def buildConstants (p : Pending) : Assembly Unit := do
  let target ← ofExcept (p.operand 0)
  let available := (← get).poolSize
  if available < p.firstConstant + 4 then throw (.missingConstants p.firstConstant available)
  commit .texture1 (.setConstants target.register (.ofNat p.firstConstant)) p

/-- How the instructions that stand for a template are assembled. -/
abbrev Expander := Template → Pending → Assembly Unit

def build (expand : Expander) (opcode : Symbol) (p : Pending) : Assembly Unit :=
  match opcode.operation? with
  | some .alu => buildAlu p
  | some (.texture samples) => buildTexture samples p
  | some (.legacyTexture samples) => buildLegacyTexture samples p
  | some .constants => buildConstants p
  | some .phaseMarker => modify ({ · with phaseMarked := true })
  | some (.template template) => expand template p
  | none => throw (.unexpectedToken p.token)

/-- Completes the pending instruction, if there is one. -/
def flush (expand : Expander) : Assembly Unit := do
  let pending := (← get).pending
  if let some opcode := pending.opcode? then
    modify ({ · with pending := {} })
    build expand opcode pending
  let left := (← get).pending
  if left.opcode?.isSome then throw (.pipeNotCleared left.place)

def modifyPending (change : Pending → Pending) : Assembly Unit :=
  modify fun a => { a with pending := change a.pending }

def process (expand : Expander) (codeOf : SymbolId → UInt32) (token : Token) : Assembly Unit :=
  match Symbol.ofId? token.id, (Symbol.ofId? token.rule).bind Symbol.role? with
  | some symbol, some role => do
    let code := codeOf token.id
    match role with
    | .opcode =>
      flush expand
      modify fun a =>
        { a with pending :=
          { opcode? := some symbol, token, code, firstConstant := a.constantsSeen } }
    | .separator =>
      if slotLimit ≤ (← get).pending.slot + 1 then throw (.operandOverflow token.place)
      modifyPending fun p => { p with slot := p.slot + 1 }
    | .register => modifyPending (·.modifySlot ({ · with register? := some code }))
    | .selector => modifyPending (·.modifySlot ({ · with selector := code }))
    | .modifier =>
      modifyPending (·.modifySlot fun slot => { slot with modifier := slot.modifier ||| code })
    | .value => modify fun a => { a with constantsSeen := a.constantsSeen + 1 }
    | .ignored => pure ()
  | _, _ => throw (.unexpectedToken token)

def processAll (expand : Expander) (codeOf : SymbolId → UInt32) : List Token → Assembly Unit
  | [] => pure ()
  | token :: rest => do
    process expand codeOf token
    processAll expand codeOf rest

def scanWith (expand : Expander) (codeOf : SymbolId → UInt32) (tokens : List Token) :
    Assembly Unit := do
  processAll expand codeOf tokens
  flush expand

/-- Runs a step on the tokens of an expansion. -/
def whileExpanding (step : Assembly Unit) : Assembly Unit := fun a =>
  match step { a with expanding := true } with
  | .ok value next => .ok value { next with expanding := a.expanding }
  | .error fault next => .error fault { next with expanding := a.expanding }

/-- The first two rows of a matrix with three rows come in pairs: red, then green. -/
def nextRowMask (template : Template) : Assembly Symbol := fun a =>
  if template.hasRow then
    .ok (if a.secondRow then .maskG else .maskR) { a with secondRow := !a.secondRow }
  else .ok .maskR a

def expandWith (scan : List Token → Assembly Unit) : Expander := fun template p => do
  let rowMask ← nextRowMask template
  let tokens ← ofExcept (template.expand p.register? rowMask p.place)
  whileExpanding (scan tokens)

/-- Templates may be nested up to a depth; below it an opcode that stands for a
template is refused. -/
def scan (codeOf : SymbolId → UInt32) : (depth : Nat) → List Token → Assembly Unit
  | 0 => scanWith (fun _ p => throw (.unexpectedToken p.token)) codeOf
  | depth + 1 => scanWith (expandWith (scan codeOf depth)) codeOf

end Assembly

namespace Assembler

def setAluDestination (a : Assembler) (offset : Nat) (register : UInt32) : Assembler :=
  match a.schedule.alu2.setDestination? offset register with
  | some queue => { a with schedule := { a.schedule with alu2 := queue } }
  | none => a

/-- Lets the last arithmetic instruction of the second pass write the output
register. An alpha operation is taken for the second half of an instruction whose
first half is the record before it. -/
def retarget (a : Assembler) : Assembler :=
  match a.lastAlu? with
  | none => a
  | some last =>
    let next := a.setAluDestination last Code.outputRegister
    let isAlpha := (next.schedule.alu2.tagAt? last).any Tag.isAlpha
    match isAlpha, a.secondLastAlu? with
    | true, some second => next.setAluDestination second Code.outputRegister
    | _, _ => next

/-- Drops the queues and everything that is remembered about the program at hand. -/
def reset (_ : Assembler) : Assembler := {}

/-- Takes from a reading what its statements do not tell. -/
def prepare (a : Assembler) (r : Reading) : Assembler :=
  { a with legacy := r.contexts &&& Context.ps11 != 0, poolSize := r.constants.length }

/-- The state in which a reading is assembled. -/
def start (r : Reading) : Assembler := prepare {} r

/-- Templates hold no opcodes that stand for templates. -/
def templateDepth : Nat := 1

/-- Assembles a reading. An assembler that was used before is reset first. The queues
show how far it went if it fails, and stay until the next program. -/
def assemble (g : Grammar) (r : Reading) : Assembly Unit := do
  modify fun a => a.reset.prepare r
  Assembly.scan g.code templateDepth r.tokens
  modify fun a => if a.legacy then a.retarget else a

/-- The state before a program is of no account for it. -/
theorem assemble_apply (g : Grammar) (r : Reading) (before : Assembler) :
    assemble g r before =
      match Assembly.scan g.code templateDepth r.tokens (start r) with
      | .ok () a => .ok () (if a.legacy then a.retarget else a)
      | .error fault a => .error fault a := by
  -- behind the first step nothing is left of the state
  change EStateM.bind (Assembly.scan g.code templateDepth r.tokens)
    (fun _ => modify fun a => if a.legacy then a.retarget else a) (start r) = _
  unfold EStateM.bind
  cases Assembly.scan g.code templateDepth r.tokens (start r) <;> rfl

end Assembler
end PixelAsm
