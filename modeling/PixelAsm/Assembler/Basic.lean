import PixelAsm.Assembler.Pending
import PixelAsm.Instruction.Schedule

/-!
# The assembler's state

A temp register written in the first pass is not visible to the arithmetic stage
of the second one, unless the texture stage of the second pass hands it on. The
assembler therefore remembers which temp registers each pass has written.
-/
namespace PixelAsm

structure Assembler where
  schedule : Schedule := {}
  /-- Temp registers written in the first pass. -/
  written1 : List UInt32 := []
  /-- Temp registers written in the second pass or handed on to it. -/
  written2 : List UInt32 := []
  pending : Pending := {}
  /-- A phase marker has been seen. -/
  phaseMarked : Bool := false
  /-- The tokens at hand come from an expansion. -/
  expanding : Bool := false
  /-- The program is written in a dialect before ps.1.4. -/
  legacy : Bool := false
  constantsSeen : Nat := 0
  poolSize : Nat := 0
  /-- The next matrix row is the second of its pair. -/
  secondRow : Bool := false
  /-- The record that was queued last in the arithmetic stage of the second pass. -/
  lastAlu? : Option Nat := none
  /-- The record queued before that one. -/
  secondLastAlu? : Option Nat := none
  deriving DecidableEq

/-- Steps of the assembler. The state that an error leaves behind can be seen. -/
abbrev Assembly := EStateM CompileError Assembler

namespace Assembler

def noteWrite (a : Assembler) (stage : Stage) (register : UInt32) : Assembler :=
  if !Code.isTemp register then a
  else if stage.pass = 1 then { a with written1 := a.written1.insert register }
  else { a with written2 := a.written2.insert register }

def noteRecord (a : Assembler) (stage : Stage) : Assembler :=
  if stage = .alu2 then
    { a with lastAlu? := some a.schedule.alu2.words.size, secondLastAlu? := a.lastAlu? }
  else a

def appendRecord (a : Assembler) (stage : Stage) (record : List UInt32) : Assembler :=
  { a with schedule := a.schedule.append record stage }

/-- Hands a register that the first pass has written on to the second. -/
def route (a : Assembler) (register : UInt32) : Assembler :=
  let handOn := Instruction.passTexCoord register register Code.swizzleStr
  match handOn.record? with
  | some record => (a.appendRecord .texture2 record).noteWrite .texture2 register
  | none => a

end Assembler

namespace Assembly

def ofExcept {α : Type} : Except CompileError α → Assembly α
  | .ok value => pure value
  | .error fault => throw fault

/-- A read in the arithmetic stage of the second pass. Without arithmetic in the
first pass the program runs as a single pass and nothing has to be handed on. -/
def checkRead (place : Place) (register : UInt32) : Assembly Unit := fun a =>
  if !Code.isTemp register || a.written2.contains register then .ok () a
  else if !a.written1.contains register then .error (.undefinedRead register place) a
  else if a.schedule.alu1.isEmpty then .ok () a
  else .ok () (a.route register)

def checkReads (place : Place) : List UInt32 → Assembly Unit
  | [] => pure ()
  | register :: rest => do
    checkRead place register
    checkReads place rest

/-- Queues an instruction and remembers the register that it writes. -/
def commit (stage : Stage) (instruction : Instruction) (pending : Pending) : Assembly Unit := do
  if stage = .alu2 then
    checkReads pending.place (instruction.operands.map (·.register))
  match instruction.record? with
  | none => throw (.badOperandCount pending.slot pending.place)
  | some record =>
    modify fun a =>
      ((a.noteRecord stage).appendRecord stage record).noteWrite stage instruction.destination

end Assembly
end PixelAsm
