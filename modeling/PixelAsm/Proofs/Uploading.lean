import Mathlib.Data.List.Forall2
import PixelAsm.Device.Upload
import PixelAsm.Proofs.IssueLog
import PixelAsm.Proofs.RoundTrip

/-!
# Uploading without errors

An upload gives up a queue at the first instruction that has no call, and says nothing about
it. If the queues hold instructions that all have one, and the device reports no error, then
the device is asked for exactly these calls, stage after stage.
-/
namespace PixelAsm

/-! ### Calls -/

/-- The call has the fields of the instruction. A load of constants has the four values that
the pool holds from its index on. -/
inductive Instruction.Carried (constants : List Binary32) : Instruction → Call → Prop
  | color {operation : UInt32} {target : ColorTarget} {operands : List Operand} :
      Carried constants (.color operation target operands) (.color operation target operands)
  | alpha {operation : UInt32} {target : AlphaTarget} {operands : List Operand} :
      Carried constants (.alpha operation target operands) (.alpha operation target operands)
  | setConstants {register index : UInt32} {value : Quad}
      (x : constants[index.toNat]? = some value.x) (y : constants[index.toNat + 1]? = some value.y)
      (z : constants[index.toNat + 2]? = some value.z)
      (w : constants[index.toNat + 3]? = some value.w) :
      Carried constants (.setConstants register index) (.setConstant register value)
  | passTexCoord {register coordinate swizzle : UInt32} :
      Carried constants (.passTexCoord register coordinate swizzle)
        (.passTexCoord register coordinate swizzle)
  | sampleMap {register interpolator swizzle : UInt32} :
      Carried constants (.sampleMap register interpolator swizzle)
        (.sampleMap register interpolator swizzle)

theorem Quad.ofList?_take_drop {values : List Binary32} {n : Nat} {q : Quad}
    (x : values[n]? = some q.x) (y : values[n + 1]? = some q.y) (z : values[n + 2]? = some q.z)
    (w : values[n + 3]? = some q.w) : Quad.ofList? ((values.drop n).take 4) = some q := by
  obtain ⟨inside, first⟩ := List.getElem?_eq_some_iff.mp x
  obtain ⟨insideY, second⟩ := List.getElem?_eq_some_iff.mp y
  obtain ⟨insideZ, third⟩ := List.getElem?_eq_some_iff.mp z
  obtain ⟨insideW, fourth⟩ := List.getElem?_eq_some_iff.mp w
  rw [List.drop_eq_getElem_cons inside, List.drop_eq_getElem_cons insideY,
    List.drop_eq_getElem_cons insideZ, List.drop_eq_getElem_cons insideW, first, second, third,
    fourth]
  rfl

/-- An instruction that can be queued is uploaded as a call that carries it. -/
theorem Instruction.call?_of_carried {constants : List Binary32} {i : Instruction} {call : Call}
    (arity : i.HasArity) (carried : i.Carried constants call) :
    i.call? constants = some call := by
  obtain ⟨tag, tagged⟩ := Option.isSome_iff_exists.mp (i.isSome_tag?_iff.mpr arity)
  cases carried with
  | color | alpha => simp [call?, tagged]
  | setConstants x y z w => simp [call?, Quad.ofList?_take_drop x y z w]
  | passTexCoord | sampleMap => rfl

/-- Every instruction but a load from outside the pool has a call. -/
theorem Instruction.exists_carried {constants : List Binary32} (i : Instruction)
    (inside : ∀ register index, i = .setConstants register index →
      index.toNat + 4 ≤ constants.length) : ∃ call, i.Carried constants call := by
  cases i with
  | color operation target operands => exact ⟨_, .color⟩
  | alpha operation target operands => exact ⟨_, .alpha⟩
  | passTexCoord register coordinate swizzle => exact ⟨_, .passTexCoord⟩
  | sampleMap register interpolator swizzle => exact ⟨_, .sampleMap⟩
  | setConstants register index =>
    have bound := inside register index rfl
    refine ⟨.setConstant register ⟨constants[index.toNat], constants[index.toNat + 1],
      constants[index.toNat + 2], constants[index.toNat + 3]⟩, ?_⟩
    apply Carried.setConstants <;> simp

theorem Instruction.exists_calls {constants : List Binary32} {is : List Instruction}
    (each : ∀ i ∈ is, ∃ call, i.Carried constants call) :
    ∃ calls, is.Forall₂ (Instruction.Carried constants) calls := by
  induction is with
  | nil => exact ⟨[], .nil⟩
  | cons i rest ih =>
    obtain ⟨call, first⟩ := each i (by simp)
    obtain ⟨calls, others⟩ := ih fun j member => each j (by simp [member])
    exact ⟨call :: calls, .cons first others⟩

/-! ### Devices -/

namespace Device

variable {σ : Type} (device : Device σ)

/-- The device behind calls, each of which was followed by the question for an error. -/
def after (d : σ) (calls : List Call) : σ :=
  calls.foldl (fun d call => (device.poll (device.perform d call)).2) d

/-- Whatever the device is asked to do from here on, it reports no error. -/
def Silent (d : σ) : Prop :=
  ∀ calls call, (device.poll (device.perform (device.after d calls) call)).1 = false

variable {device}

theorem after_append (d : σ) (calls more : List Call) :
    device.after d (calls ++ more) = device.after (device.after d calls) more :=
  List.foldl_append

theorem Silent.after {d : σ} (silent : device.Silent d) (calls : List Call) :
    device.Silent (device.after d calls) := by
  intro more call
  rw [← after_append]
  exact silent (calls ++ more) call

/-- The queue of a stage is uploaded call by call. -/
theorem uploadRecords_silent {constants : List Binary32} {is : List Instruction}
    {calls : List Call} (carried : is.Forall₂ (Instruction.Carried constants) calls)
    (arity : ∀ i ∈ is, i.HasArity) (stage : Stage) {d : σ} (silent : device.Silent d)
    (index : Nat) :
    device.uploadRecords constants stage index (is.map .ok) d =
      (.ok (), device.after d calls) := by
  induction carried generalizing d index with
  | nil => rfl
  | @cons i call is calls first rest ih =>
    have issued := Instruction.call?_of_carried (arity i (by simp)) first
    have quiet : (device.poll (device.perform d call)).1 = false := silent [] call
    have next := ih (fun j member => arity j (by simp [member])) (silent.after [call]) (index + 1)
    simp only [List.map_cons, uploadRecords, issued]
    split
    next reported =>
      rw [reported] at quiet
      cases quiet
    next later polled =>
      have state : device.after d [call] = later := congrArg Prod.snd polled
      rw [state] at next
      rw [next, ← state, ← after_append]
      rfl

theorem uploadStages_silent {schedule : Schedule} {constants : List Binary32}
    {instructions : Stage → List Instruction} {calls : Stage → List Call}
    (decodes : schedule.Decodes instructions)
    (arity : ∀ stage, ∀ i ∈ instructions stage, i.HasArity)
    (carried : ∀ stage, (instructions stage).Forall₂ (Instruction.Carried constants) (calls stage))
    (stages : List Stage) {d : σ} (silent : device.Silent d) :
    device.uploadStages schedule constants stages d =
      (.ok (), device.after d (stages.flatMap calls)) := by
  induction stages generalizing d with
  | nil => rfl
  | cons stage rest ih =>
    have first := uploadRecords_silent (carried stage) (arity stage) stage silent 0
    rw [← decodes stage] at first
    have others := ih (silent.after (calls stage))
    rw [uploadStages, first, List.flatMap_cons, after_append]
    exact others

/-- One call for each instruction, in the order of the stages. -/
theorem upload_silent {schedule : Schedule} {constants : List Binary32}
    {instructions : Stage → List Instruction} {calls : Stage → List Call}
    (decodes : schedule.Decodes instructions)
    (arity : ∀ stage, ∀ i ∈ instructions stage, i.HasArity)
    (carried : ∀ stage, (instructions stage).Forall₂ (Instruction.Carried constants) (calls stage))
    {d : σ} (silent : device.Silent d) :
    device.upload d schedule constants = (.ok (), device.after d (Stage.all.flatMap calls)) :=
  uploadStages_silent decodes arity carried Stage.all silent

end Device

/-! ### The recorder -/

namespace Recorder

/-- A recorder keeps all calls, whether it reports an error or not. -/
theorem calls_after (d : Recorder) (calls : List Call) :
    (device.after d calls).calls.toList = d.calls.toList ++ calls := by
  induction calls generalizing d with
  | nil => simp [Device.after]
  | cons call rest ih =>
    have kept : (device.poll (device.perform d call)).2.calls = d.calls.push call := rfl
    have later := ih (device.poll (device.perform d call)).2
    rw [kept] at later
    simpa [Device.after] using later

/-- No error is pending, and the call at which one was to arise, if any, is in the past. -/
def Unarmed (d : Recorder) : Prop :=
  d.errorPending = false ∧ ∀ n ∈ d.failAt?, n < d.calls.size

theorem Unarmed.step {d : Recorder} (unarmed : d.Unarmed) (call : Call) :
    (device.poll (device.perform d call)).1 = false ∧
      (device.poll (device.perform d call)).2.Unarmed := by
  obtain ⟨settled, passed⟩ := unarmed
  have notHere : d.failAt? ≠ some d.calls.size := by
    intro here
    exact Nat.lt_irrefl _ (passed _ here)
  constructor
  · simp [device, record, poll, settled, notHere]
  · refine ⟨rfl, fun n marked => ?_⟩
    have earlier := passed n marked
    simp only [device, record, poll, Array.size_push]
    omega

theorem Unarmed.silent {d : Recorder} (unarmed : d.Unarmed) : device.Silent d := by
  intro calls call
  induction calls generalizing d with
  | nil => exact (unarmed.step call).1
  | cons first rest ih => exact ih (unarmed.step first).2

end Recorder
end PixelAsm
