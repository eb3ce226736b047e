import PixelAsm.Instruction.Queue

/-!
# Schedules

The target runs a program in up to two passes, each a texture stage followed by
an arithmetic stage. A schedule holds one queue per stage.
-/
namespace PixelAsm

inductive Stage where
  | texture1 | alu1 | texture2 | alu2
  deriving DecidableEq, Repr

namespace Stage

/-- The stages in the order in which the target runs them. -/
def all : List Stage := [texture1, alu1, texture2, alu2]

def pass : Stage → Nat
  | texture1 | alu1 => 1
  | texture2 | alu2 => 2

def name : Stage → String
  | texture1 => "phase 1 texture"
  | alu1 => "phase 1 alu"
  | texture2 => "phase 2 texture"
  | alu2 => "phase 2 alu"

end Stage

structure Schedule where
  texture1 : Queue := {}
  alu1 : Queue := {}
  texture2 : Queue := {}
  alu2 : Queue := {}
  deriving DecidableEq, Repr

namespace Schedule

def empty : Schedule := {}

def get (s : Schedule) : Stage → Queue
  | .texture1 => s.texture1
  | .alu1 => s.alu1
  | .texture2 => s.texture2
  | .alu2 => s.alu2

def append (s : Schedule) (record : List UInt32) : Stage → Schedule
  | .texture1 => { s with texture1 := s.texture1.append record }
  | .alu1 => { s with alu1 := s.alu1.append record }
  | .texture2 => { s with texture2 := s.texture2.append record }
  | .alu2 => { s with alu2 := s.alu2.append record }

/-- Appends an instruction to the queue of a stage and gives the offset of its record. -/
def push? (s : Schedule) (stage : Stage) (i : Instruction) : Option (Nat × Schedule) :=
  i.record?.map fun record => ((s.get stage).words.size, s.append record stage)

@[simp]
theorem get_append (s : Schedule) (record : List UInt32) (stage other : Stage) :
    (s.append record stage).get other =
      if other = stage then (s.get other).append record else s.get other := by
  cases stage <;> cases other <;> rfl

end Schedule
end PixelAsm
