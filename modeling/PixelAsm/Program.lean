import PixelAsm.Compiler
import PixelAsm.Device.Upload

/-!
# Programs on a device

A program has a compiler of its own and, once loaded, a number on the device.
Loading again reuses that number.
-/
namespace PixelAsm

inductive ProgramError where
  | compile (fault : CompileError)
  | upload (fault : UploadError)
  | notLoaded
  deriving DecidableEq, Repr

def ProgramError.message : ProgramError → String
  | compile fault => fault.message
  | upload fault => fault.message
  | notLoaded => "fragment program has not been loaded"

structure Program where
  compiler : Compiler := .standard
  handle? : Option Nat := none

namespace Program

instance : Inhabited Program := ⟨{}⟩

/-- The program's number on the device, which is created if there is none. -/
def ensureHandle (p : Program) (d : Recorder) : Nat × Recorder :=
  match p.handle? with
  | some handle => (handle, d)
  | none => d.create

/-- Compiles a source and uploads the result. The device sees nothing of a source
that does not compile. An error on the way leaves the program loaded. -/
def load (p : Program) (d : Recorder) (source : String) :
    Except ProgramError Unit × Program × Recorder :=
  match p.compiler.compile source with
  | (.error fault, compiler) => (.error (.compile fault), { p with compiler }, d)
  | (.ok (), compiler) =>
    let (handle, d) := p.ensureHandle d
    let d := (d.record (.bind handle)).record .beginProgram
    let (result, d) := d.upload compiler.schedule compiler.reading.constants
    (result.mapError .upload, { compiler, handle? := some handle }, d.record .endProgram)

def bind (p : Program) (d : Recorder) : Except ProgramError Unit × Recorder :=
  match p.handle? with
  | none => (.error .notLoaded, d)
  | some handle => (.ok (), d.record (.bind handle))

/-- Loads values into the constant registers, from the first on, as long as there
are registers. -/
def bindParameters (p : Program) (d : Recorder) (values : List Quad) :
    Except ProgramError Unit × Recorder :=
  if p.handle?.isNone then (.error .notLoaded, d)
  else
    let calls := (Code.constantRegisters.zip values).map fun (register, value) =>
      Call.setConstant register value
    (.ok (), calls.foldl Recorder.record d)

def unload (p : Program) (d : Recorder) : Program × Recorder :=
  match p.handle? with
  | none => (p, d)
  | some handle => ({ p with handle? := none }, d.record (.destroy handle))

end Program
end PixelAsm
