import PixelAsm.Instruction.Basic

/-!
# Instruction queues

A queue is a stream of words made of records: a tag word, then the fields of one
instruction. The offset of a record stays valid while the queue grows, so an
instruction that is already queued can be given another destination in place.
-/
namespace PixelAsm

namespace Tag

def word : Tag → UInt32
  | color .one => 0
  | color .two => 1
  | color .three => 2
  | alpha .one => 3
  | alpha .two => 4
  | alpha .three => 5
  | setConstants => 6
  | passTexCoord => 7
  | sampleMap => 8

def ofWord? (word : UInt32) : Option Tag :=
  match word.toNat with
  | 0 => some (color .one)
  | 1 => some (color .two)
  | 2 => some (color .three)
  | 3 => some (alpha .one)
  | 4 => some (alpha .two)
  | 5 => some (alpha .three)
  | 6 => some setConstants
  | 7 => some passTexCoord
  | 8 => some sampleMap
  | _ => none

/-- The number of words behind the tag of a record. -/
def fieldCount : Tag → Nat
  | color arity => 4 + 3 * arity.count
  | alpha arity => 3 + 3 * arity.count
  | setConstants => 2
  | passTexCoord => 3
  | sampleMap => 3

def recordLength (tag : Tag) : Nat := tag.fieldCount + 1

end Tag

namespace Operand

def words (o : Operand) : List UInt32 := [o.register, o.channel, o.modifier]

def ofWords : List UInt32 → List Operand
  | register :: channel :: modifier :: rest => { register, channel, modifier } :: ofWords rest
  | _ => []

end Operand

namespace Instruction

def fields : Instruction → List UInt32
  | color operation target operands =>
    operation :: target.register :: target.mask :: target.modifier :: operands.flatMap (·.words)
  | alpha operation target operands =>
    operation :: target.register :: target.modifier :: operands.flatMap (·.words)
  | setConstants register index => [register, index]
  | passTexCoord register coordinate swizzle => [register, coordinate, swizzle]
  | sampleMap register interpolator swizzle => [register, interpolator, swizzle]

/-- The record of an instruction that has a tag. -/
def record? (i : Instruction) : Option (List UInt32) := i.tag?.map fun tag => tag.word :: i.fields

/-- Reads the fields of a record; there must be as many as the tag asks for. -/
def ofFields? (tag : Tag) (fields : List UInt32) : Option Instruction :=
  if fields.length ≠ tag.fieldCount then none
  else match tag, fields with
    | .color _, operation :: register :: mask :: modifier :: rest =>
      some (color operation { register, mask, modifier } (Operand.ofWords rest))
    | .alpha _, operation :: register :: modifier :: rest =>
      some (alpha operation { register, modifier } (Operand.ofWords rest))
    | .setConstants, [register, index] => some (setConstants register index)
    | .passTexCoord, [register, coordinate, swizzle] =>
      some (passTexCoord register coordinate swizzle)
    | .sampleMap, [register, interpolator, swizzle] =>
      some (sampleMap register interpolator swizzle)
    | _, _ => none

end Instruction

/-- Why a stream of words cannot be read any further. -/
inductive RecordError where
  | unknownTag (offset : Nat) (word : UInt32)
  | truncated (offset : Nat) (tag : Tag)
  deriving DecidableEq, Repr

structure Queue where
  words : Array UInt32 := #[]
  deriving DecidableEq, Repr

namespace Queue

def empty : Queue := {}

def isEmpty (q : Queue) : Bool := q.words.isEmpty

def append (q : Queue) (record : List UInt32) : Queue := { words := q.words ++ record }

/-- Appends an instruction and gives the offset of its record. An instruction
without a tag has no record. -/
def push? (q : Queue) (i : Instruction) : Option (Nat × Queue) :=
  i.record?.map fun record => (q.words.size, q.append record)

def tagAt? (q : Queue) (offset : Nat) : Option Tag := q.words[offset]?.bind Tag.ofWord?

/-- Gives the operation recorded at an offset another destination register. Only
colour and alpha operations can be changed. -/
def setDestination? (q : Queue) (offset : Nat) (register : UInt32) : Option Queue :=
  match q.tagAt? offset with
  | some tag =>
    if tag.isAlu && offset + 2 < q.words.size then
      some { words := q.words.setIfInBounds (offset + 2) register }
    else none
  | none => none

/-- Reads records, passing over the words that belong to the one just read. The
first malformed record ends the list. -/
def recordsFrom : (skip offset : Nat) → List UInt32 → List (Except RecordError Instruction)
  | _, _, [] => []
  | skip + 1, offset, _ :: rest => recordsFrom skip (offset + 1) rest
  | 0, offset, word :: rest =>
    match Tag.ofWord? word with
    | none => [.error (.unknownTag offset word)]
    | some tag =>
      match Instruction.ofFields? tag (rest.take tag.fieldCount) with
      | none => [.error (.truncated offset tag)]
      | some instruction => .ok instruction :: recordsFrom tag.fieldCount (offset + 1) rest

def records (q : Queue) : List (Except RecordError Instruction) :=
  recordsFrom 0 0 q.words.toList

/-- The instructions in front of the first malformed record. -/
def instructions (q : Queue) : List Instruction := q.records.filterMap (·.toOption)

end Queue
end PixelAsm
