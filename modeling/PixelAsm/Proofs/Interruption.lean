import Mathlib.Data.List.TakeWhile
import PixelAsm.Proofs.Uploading

/-!
# Where an upload stops

An upload walks over the queues stage by stage, gives a queue up where it cannot go on, and
asks the device for an error behind each call. Seen from the device it is one walk over a list
of calls that does not depend on the device. An error cuts this list behind the call that
raises it, or behind the first call if the error was left from before.
-/
namespace PixelAsm

/-! ### The calls of an upload -/

/-- A call that an upload makes, and the record for which it makes it. -/
structure Handover where
  stage : Stage
  /-- The position of the record in the queue of the stage. -/
  index : Nat
  call : Call
  deriving DecidableEq, Repr

/-- Only a load of constants can be impossible: the pool must have all four of them. -/
def Instruction.isIssuable (constants : List Binary32) : Instruction → Bool
  | setConstants _ index => index.toNat + 4 ≤ constants.length
  | _ => true

/-- The instructions of a stage in front of the first malformed record, and of these the ones in
front of the first that cannot be issued. -/
def Schedule.issuable (s : Schedule) (constants : List Binary32) (stage : Stage) :
    List Instruction :=
  (s.get stage).instructions.takeWhile (·.isIssuable constants)

/-- The calls of each stage are those for its instructions. -/
def Schedule.CallsFor (s : Schedule) (constants : List Binary32) (calls : Stage → List Call) :
    Prop :=
  ∀ stage, (s.issuable constants stage).Forall₂ (Instruction.Carried constants) (calls stage)

/-- The calls in the order of the stages, with their places. -/
def handovers (calls : Stage → List Call) (stages : List Stage) : List Handover :=
  stages.flatMap fun stage => (calls stage).mapIdx fun index call => { stage, index, call }

namespace Instruction

variable {constants : List Binary32} {i : Instruction}

theorem exists_carried_of_isIssuable (issuable : i.isIssuable constants = true) :
    ∃ call, i.Carried constants call := by
  apply exists_carried
  rintro register index rfl
  exact of_decide_eq_true issuable

/-- A load from outside the pool has no call. -/
theorem call?_of_not_isIssuable (outside : i.isIssuable constants = false) :
    i.call? constants = none := by
  cases i with
  | color operation target operands | alpha operation target operands
  | passTexCoord register coordinate swizzle | sampleMap register interpolator swizzle =>
    cases outside
  | setConstants register index =>
    have short : ((constants.drop index.toNat).take 4).length ≠ 4 := by
      have bound : ¬ index.toNat + 4 ≤ constants.length := of_decide_eq_false outside
      rw [List.length_take, List.length_drop]
      omega
    have none : Quad.ofList? ((constants.drop index.toNat).take 4) = none := by
      unfold Quad.ofList?
      split
      next four => exact absurd (congrArg List.length four) short
      · rfl
    rw [call?, none]
    rfl

end Instruction

/-- Every schedule has calls, whatever words are in its queues. -/
theorem Schedule.exists_callsFor (s : Schedule) (constants : List Binary32) :
    ∃ calls, s.CallsFor constants calls := by
  have each (stage : Stage) : ∃ calls,
      (s.issuable constants stage).Forall₂ (Instruction.Carried constants) calls := by
    apply Instruction.exists_calls
    intro i member
    exact Instruction.exists_carried_of_isIssuable (List.mem_takeWhile_imp member)
  choose calls carried using each
  exact ⟨calls, carried⟩

/-- A queue reads as instructions that the target has, with at most one fault behind them. -/
theorem Queue.records_eq (q : Queue) : ∃ fault? : Option RecordError,
    q.records = q.instructions.map .ok ++ fault?.toList.map .error ∧
      ∀ i ∈ q.instructions, i.HasArity := by
  obtain ⟨is, rest, fault?, tagged, -, -, read⟩ := recordsFrom_ends 0 q.words.toList
  rw [← records] at read
  have found : q.instructions = is := by
    cases fault? <;> simp [instructions, read, Except.toOption, List.filterMap_map]
  rw [found]
  exact ⟨fault?, read, fun i member => i.isSome_tag?_iff.mp (tagged i member)⟩

/-! ### One walk -/

namespace Device

variable {σ : Type} (device : Device σ)

/-- Makes calls until the device reports an error. -/
def handAll : List Handover → σ → Except UploadError Unit × σ
  | [], d => (.ok (), d)
  | h :: rest, d =>
    match device.poll (device.perform d h.call) with
    | (true, d) => (.error (.device h.stage h.index), d)
    | (false, d) => handAll rest d

theorem handAll_append (hs more : List Handover) (d : σ) :
    device.handAll (hs ++ more) d =
      match device.handAll hs d with
      | (.error fault, d) => (.error fault, d)
      | (.ok (), d) => device.handAll more d := by
  induction hs generalizing d with
  | nil => rfl
  | cons h rest ih =>
    simp only [List.cons_append, handAll]
    split
    · rfl
    · exact ih _

/-- The queue of a stage is walked over up to the first malformed record or the first
instruction that cannot be issued. -/
theorem uploadRecords_eq_handAll {constants : List Binary32} {is : List Instruction}
    (arity : ∀ i ∈ is, i.HasArity) (fault? : Option RecordError) {calls : List Call}
    (carried :
      (is.takeWhile (·.isIssuable constants)).Forall₂ (Instruction.Carried constants) calls)
    (stage : Stage) (index : Nat) (d : σ) :
    device.uploadRecords constants stage index (is.map .ok ++ fault?.toList.map .error) d =
      device.handAll (calls.mapIdx fun k call => { stage, index := index + k, call }) d := by
  induction is generalizing calls index d with
  | nil =>
    cases carried
    cases fault? <;> rfl
  | cons i rest ih =>
    cases issuable : i.isIssuable constants with
    | false =>
      rw [List.takeWhile_cons_of_neg (by simp [issuable])] at carried
      cases carried
      simp [uploadRecords, Instruction.call?_of_not_isIssuable issuable, handAll]
    | true =>
      rw [List.takeWhile_cons_of_pos issuable] at carried
      cases carried with
      | @cons _ call _ more own others =>
        have issued := Instruction.call?_of_carried (arity i (by simp)) own
        have next := ih (fun j member => arity j (by simp [member])) others (index + 1)
        -- the positions behind the first are counted from the next one on
        have shifted (k : Nat) : index + 1 + k = index + (k + 1) := by omega
        simp only [shifted] at next
        simp only [List.map_cons, List.cons_append, uploadRecords, issued, List.mapIdx_cons,
          handAll, Nat.add_zero]
        rcases device.poll (device.perform d call) with ⟨reported, later⟩
        cases reported with
        | true => rfl
        | false => exact next later

theorem uploadStages_eq_handAll {schedule : Schedule} {constants : List Binary32}
    {calls : Stage → List Call} (carried : schedule.CallsFor constants calls)
    (stages : List Stage) (d : σ) :
    device.uploadStages schedule constants stages d =
      device.handAll (handovers calls stages) d := by
  induction stages generalizing d with
  | nil => rfl
  | cons stage rest ih =>
    obtain ⟨fault?, read, arity⟩ := (schedule.get stage).records_eq
    have own := device.uploadRecords_eq_handAll arity fault? (carried stage) stage 0 d
    simp only [Nat.zero_add] at own
    rw [uploadStages, read, own, handovers, List.flatMap_cons, handAll_append]
    rcases device.handAll _ d with ⟨result, later⟩
    cases result with
    | error fault => rfl
    | ok value => exact ih later

end Device

/-! ### The recorder -/

namespace Recorder

/-- The recorder behind further calls. -/
def noting (d : Recorder) (hs : List Handover) : Recorder :=
  { d with calls := d.calls ++ hs.map (·.call) }

/-- What an upload comes to that makes these calls. -/
structure Follows (d : Recorder) (plan : List Handover)
    (out : Except UploadError Unit × Recorder) : Prop where
  /-- An error that is pending already ends the upload behind its first call. -/
  inherited : d.errorPending = true → ∀ h rest, plan = h :: rest →
    out = (.error (.device h.stage h.index), { d.noting [h] with errorPending := false })
  /-- An error that a call raises ends the upload behind this call. -/
  raised : d.errorPending = false → ∀ j h, d.failAt? = some (d.calls.size + j) →
    plan[j]? = some h →
      out = (.error (.device h.stage h.index),
        { d.noting (plan.take (j + 1)) with errorPending := false })
  /-- Without either the upload is complete, and nothing is pending that was not before. -/
  complete : (d.errorPending = true → plan = []) →
    (∀ j, d.failAt? = some (d.calls.size + j) → plan.length ≤ j) → out = (.ok (), d.noting plan)

theorem noting_cons (d : Recorder) (h : Handover) (rest : List Handover) :
    d.noting (h :: rest) = (d.noting [h]).noting rest := by
  simp [noting]

/-- What a call and the question behind it do. -/
theorem poll_perform (d : Recorder) (h : Handover) :
    device.poll (device.perform d h.call) =
      (d.errorPending || d.failAt? == some d.calls.size,
        { d.noting [h] with errorPending := false }) := by
  simp [device, poll, record, noting]

/-- The first call ends the walk if an error is pending behind it. -/
theorem handAll_of_pending {d : Recorder} {h : Handover}
    (pending : (d.errorPending || d.failAt? == some d.calls.size) = true) (rest : List Handover) :
    device.handAll (h :: rest) d =
      (.error (.device h.stage h.index), { d.noting [h] with errorPending := false }) := by
  simp only [Device.handAll, poll_perform, pending]

/-- The walk goes on behind a call that raises no error. -/
theorem handAll_of_quiet {d : Recorder} {h : Handover} (settled : d.errorPending = false)
    (elsewhere : d.failAt? ≠ some d.calls.size) (rest : List Handover) :
    device.handAll (h :: rest) d = device.handAll rest (d.noting [h]) := by
  have quiet : (d.errorPending || d.failAt? == some d.calls.size) = false := by
    simp [settled, elsewhere]
  have kept : { d.noting [h] with errorPending := false } = d.noting [h] := by
    simp [noting, settled]
  simp only [Device.handAll, poll_perform, quiet, kept]

theorem handAll_follows (plan : List Handover) (d : Recorder) :
    d.Follows plan (device.handAll plan d) := by
  induction plan generalizing d with
  | nil => exact ⟨nofun, by simp, by simp [Device.handAll, noting]⟩
  | cons first rest ih =>
    by_cases pending : d.errorPending = true
    · have stopped := handAll_of_pending (h := first) (d := d) (by simp [pending]) rest
      refine ⟨fun _ h others same => ?_, fun settled => ?_, fun empty => ?_⟩
      · obtain ⟨rfl, rfl⟩ := List.cons.inj same
        exact stopped
      · rw [pending] at settled
        cases settled
      · cases empty pending
    have settled : d.errorPending = false := by simpa using pending
    by_cases here : d.failAt? = some d.calls.size
    · have stopped := handAll_of_pending (h := first) (d := d) (by simp [here]) rest
      refine ⟨fun inherited => absurd inherited pending, fun _ j h fails found => ?_,
        fun _ later => ?_⟩
      · -- the call that raises the error is the first
        obtain rfl : j = 0 := by
          rw [here, Option.some.injEq] at fails
          omega
        obtain rfl : first = h := by simpa using found
        exact stopped
      · exact absurd (later 0 here) (by simp)
    · have quiet := handAll_of_quiet (h := first) settled here rest
      -- what is left of the plan starts one call later
      have size : (d.noting [first]).calls.size = d.calls.size + 1 := by simp [noting]
      have next := ih (d.noting [first])
      rw [quiet]
      refine ⟨fun inherited => absurd inherited pending, fun _ j h fails found => ?_,
        fun _ later => ?_⟩
      · cases j with
        | zero => exact absurd fails here
        | succ j =>
          have fails : d.failAt? = some ((d.noting [first]).calls.size + j) := by
            rw [fails, size]
            congr 1
            omega
          rw [List.take_succ_cons, noting_cons]
          exact next.raised settled j h fails found
      · rw [noting_cons]
        apply next.complete fun inherited => absurd inherited pending
        intro j fails
        have bound := later (j + 1) (by
          rw [← Nat.add_assoc, Nat.add_right_comm, ← size]
          exact fails)
        rw [List.length_cons] at bound
        omega

/-- For any words in the queues, any constants and any state of the recorder, an upload makes
the calls for the instructions that can be issued, up to the first error. -/
theorem upload_stops_at_error (d : Recorder) (schedule : Schedule) (constants : List Binary32) :
    ∃ calls, schedule.CallsFor constants calls ∧
      d.Follows (handovers calls Stage.all) (d.upload schedule constants) := by
  obtain ⟨calls, carried⟩ := schedule.exists_callsFor constants
  refine ⟨calls, carried, ?_⟩
  have walked := device.uploadStages_eq_handAll carried Stage.all d
  rw [upload, Device.upload, walked]
  exact handAll_follows _ d

end Recorder
end PixelAsm
