import PixelAsm.Device.Call

/-!
# A recording device

The recorder is a device that keeps the calls made on it. It can be told at which
call to report an error. The report stays pending until someone asks for it.
-/
namespace PixelAsm

structure Recorder where
  calls : Array Call := #[]
  /-- The position among the recorded calls at which an error arises. -/
  failAt? : Option Nat := none
  errorPending : Bool := false
  /-- The number of programs created so far, without a bound. A counter of 32 bits
  counts the same for the first `2 ^ 32 - 1` programs. -/
  created : Nat := 0
  deriving DecidableEq, Repr

namespace Recorder

def record (d : Recorder) (call : Call) : Recorder :=
  { d with
    errorPending := d.errorPending || d.failAt? == some d.calls.size
    calls := d.calls.push call }

/-- Creates a program and gives the number that names it. -/
def create (d : Recorder) : Nat × Recorder :=
  let program := d.created + 1
  (program, { d with created := program }.record (.create program))

/-- Tells whether an error is pending, and forgets it. -/
def poll (d : Recorder) : Bool × Recorder := (d.errorPending, { d with errorPending := false })

end Recorder
end PixelAsm
