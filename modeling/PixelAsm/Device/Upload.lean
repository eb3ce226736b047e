import PixelAsm.Device.Recorder
import PixelAsm.Instruction.Schedule

/-!
# Uploading a schedule

Each queued instruction becomes one call on the device, stage after stage. A
record that cannot be read or issued ends its stage; an error that the device
reports ends the upload.
-/
namespace PixelAsm

inductive UploadError where
  | device (stage : Stage) (instruction : Nat)
  deriving DecidableEq, Repr

def UploadError.message : UploadError → String
  | device stage instruction =>
    s!"fragment shader API reported an error binding {stage.name} instruction {instruction}"

/-- The call for an instruction. Four constants must stand in the pool from the
index of a load on, and an operation must have one to three operands. -/
def Instruction.call? (constants : List Binary32) (i : Instruction) : Option Call :=
  match i with
  | color operation target operands => i.tag?.map fun _ => .color operation target operands
  | alpha operation target operands => i.tag?.map fun _ => .alpha operation target operands
  | setConstants register index =>
    (Quad.ofList? ((constants.drop index.toNat).take 4)).map (.setConstant register)
  | passTexCoord register coordinate swizzle => some (.passTexCoord register coordinate swizzle)
  | sampleMap register interpolator swizzle => some (.sampleMap register interpolator swizzle)

/-- What an upload asks of a device: to carry out a call, and to tell whether an error is
pending, which it then forgets. -/
structure Device (σ : Type) where
  perform : σ → Call → σ
  poll : σ → Bool × σ

namespace Device

variable {σ : Type} (device : Device σ)

def uploadRecords (constants : List Binary32) (stage : Stage) :
    (index : Nat) → List (Except RecordError Instruction) → σ → Except UploadError Unit × σ
  | _, [], d => (.ok (), d)
  | _, .error _ :: _, d => (.ok (), d)
  | index, .ok instruction :: rest, d =>
    match instruction.call? constants with
    | none => (.ok (), d)
    | some call =>
      match device.poll (device.perform d call) with
      | (true, d) => (.error (.device stage index), d)
      | (false, d) => uploadRecords constants stage (index + 1) rest d

def uploadStages (schedule : Schedule) (constants : List Binary32) :
    List Stage → σ → Except UploadError Unit × σ
  | [], d => (.ok (), d)
  | stage :: rest, d =>
    match device.uploadRecords constants stage 0 (schedule.get stage).records d with
    | (.error fault, d) => (.error fault, d)
    | (.ok (), d) => uploadStages schedule constants rest d

def upload (d : σ) (schedule : Schedule) (constants : List Binary32) :
    Except UploadError Unit × σ :=
  device.uploadStages schedule constants Stage.all d

end Device

namespace Recorder

def device : Device Recorder := { perform := record, poll := poll }

def upload (d : Recorder) (schedule : Schedule) (constants : List Binary32) :
    Except UploadError Unit × Recorder :=
  device.upload d schedule constants

end Recorder
end PixelAsm
