import PixelAsm.Instruction.Listing
import PixelAsm.Program

/-!
# Sessions

A session is a number of programs that share one device.
-/
namespace PixelAsm

structure Session where
  programs : Array Program
  device : Recorder := {}

inductive Command where
  | load (program : Nat) (source : String)
  | bind (program : Nat)
  | unbind (program : Nat)
  | bindParameters (program : Nat) (values : List Quad)
  | unload (program : Nat)
  /-- Adds a copy of a program, which then has the same number on the device. -/
  | clone (program : Nat)
  /-- Shows the queues of a program. -/
  | show (program : Nat)
  | failAt (call? : Option Nat)
  | clearCalls
  | poll
  deriving DecidableEq, Repr

inductive Reply where
  | done
  | result (result : Except ProgramError Unit)
  | index (index : Nat)
  | text (text : String)
  | flag (flag : Bool)

namespace Session

def start (count : Nat) (failAt? : Option Nat) : Session :=
  { programs := Array.replicate count {}, device := { failAt? } }

/-- A session treats a program that it does not have as one that was never loaded. -/
def program (s : Session) (index : Nat) : Program := s.programs.getD index {}

def run (s : Session) : Command → Reply × Session
  | .load index source =>
    let (result, program, device) := (s.program index).load s.device source
    (.result result, { programs := s.programs.setIfInBounds index program, device })
  | .bind index =>
    let (result, device) := (s.program index).bind s.device
    (.result result, { s with device })
  | .unbind _ => (.done, { s with device := s.device.record .unbind })
  | .bindParameters index values =>
    let (result, device) := (s.program index).bindParameters s.device values
    (.result result, { s with device })
  | .unload index =>
    let (program, device) := (s.program index).unload s.device
    (.done, { programs := s.programs.setIfInBounds index program, device })
  | .clone index =>
    (.index s.programs.size, { s with programs := s.programs.push (s.program index) })
  | .show index => (.text (s.program index).compiler.schedule.text, s)
  | .failAt failAt? => (.done, { s with device := { s.device with failAt? } })
  | .clearCalls => (.done, { s with device := { s.device with calls := #[] } })
  | .poll =>
    let (pending, device) := s.device.poll
    (.flag pending, { s with device })

end Session
end PixelAsm
