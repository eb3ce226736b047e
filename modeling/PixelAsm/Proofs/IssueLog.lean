import PixelAsm.Assembler.Basic
import PixelAsm.Proofs.Records
import PixelAsm.Proofs.Translation

/-!
# The log of issued instructions

The assembler's queues and its lists of written registers all follow from one list:
the instructions in the order in which they were queued. On that list a read in the
arithmetic stage of the second pass asks whether some earlier instruction wrote the
register, and appends the instruction that hands it on where one is needed.

A step of the assembler follows a list of issues if it changes the queues just as
queueing these issues changes the log, and fails exactly where the log does.
-/
namespace PixelAsm

/-! ### Logs -/

namespace Log

/-- An instruction of the given pass has written the register. -/
def writes (log : List Issue) (pass : Nat) (register : UInt32) : Bool :=
  log.any fun i => i.stage.pass == pass && i.instruction.destination == register

/-- The instruction that hands a register on to the second pass. -/
def handOn (register : UInt32) : Issue :=
  ⟨.texture2, .passTexCoord register register Code.swizzleStr⟩

/-- Makes a register available to the arithmetic stage of the second pass. -/
def supply (place : Place) (log : List Issue) (register : UInt32) :
    Except CompileError (List Issue) :=
  if !Code.isTemp register || writes log 2 register then .ok log
  else if !writes log 1 register then .error (.undefinedRead register place)
  else if (instructionsOn log .alu1).isEmpty then .ok log
  else .ok (log ++ [handOn register])

def supplyAll (place : Place) : List Issue → List UInt32 → Except CompileError (List Issue)
  | log, [] => .ok log
  | log, register :: rest =>
    match supply place log register with
    | .ok next => supplyAll place next rest
    | .error fault => .error fault

/-- The log with the registers that an issue reads made available. -/
def prepare (place : Place) (log : List Issue) (issue : Issue) :
    Except CompileError (List Issue) :=
  if issue.stage = .alu2 then
    supplyAll place log (issue.instruction.operands.map (·.register))
  else .ok log

def record (place : Place) (log : List Issue) (issue : Issue) : Except CompileError (List Issue) :=
  (prepare place log issue).map (· ++ [issue])

def recordAll : List Issue → List (Place × Issue) → Except CompileError (List Issue)
  | log, [] => .ok log
  | log, (place, issue) :: rest =>
    match record place log issue with
    | .ok next => recordAll next rest
    | .error fault => .error fault

theorem recordAll_append (log : List Issue) (is js : List (Place × Issue)) :
    recordAll log (is ++ js) =
      match recordAll log is with
      | .ok next => recordAll next js
      | .error fault => .error fault := by
  induction is generalizing log with
  | nil => rfl
  | cons i rest ih =>
    simp only [List.cons_append, recordAll]
    cases record i.1 log i.2 with
    | error fault => rfl
    | ok next => exact ih next

theorem recordAll_single (log : List Issue) (place : Place) (issue : Issue) :
    recordAll log [(place, issue)] = record place log issue := by
  simp only [recordAll]
  cases record place log issue <;> rfl

theorem writes_append (log more : List Issue) (pass : Nat) (register : UInt32) :
    writes (log ++ more) pass register = (writes log pass register || writes more pass register) :=
  List.any_append

private theorem supplyAll_error {place : Place} {log : List Issue} {registers : List UInt32}
    {fault : CompileError} (failed : supplyAll place log registers = .error fault) :
    ∃ register place, fault = .undefinedRead register place := by
  induction registers generalizing log with
  | nil => cases failed
  | cons register rest ih =>
    rw [supplyAll] at failed
    unfold supply at failed
    split at failed
    · exact ih failed
    next error =>
      split at error
      · cases error
      · split at error
        · cases error
          cases failed
          exact ⟨_, _, rfl⟩
        · split at error <;> cases error

/-- Recording fails only at a read of a register that was never written. -/
theorem recordAll_error {log : List Issue} {located : List (Place × Issue)} {fault : CompileError}
    (failed : recordAll log located = .error fault) :
    ∃ register place, fault = .undefinedRead register place := by
  induction located generalizing log with
  | nil => cases failed
  | cons x rest ih =>
    rw [recordAll] at failed
    split at failed
    · exact ih failed
    next error =>
      cases failed
      unfold record prepare at error
      split at error
      · cases prepared : supplyAll x.1 log (x.2.instruction.operands.map (·.register)) with
        | ok next =>
          rw [prepared] at error
          cases error
        | error fault =>
          rw [prepared] at error
          cases error
          exact supplyAll_error prepared
      · -- an issue of another stage reads nothing that has to be supplied
        cases error

end Log

theorem instructionsOn_append (is js : List Issue) (stage : Stage) :
    instructionsOn (is ++ js) stage = instructionsOn is stage ++ instructionsOn js stage := by
  simp [instructionsOn]

theorem instructionsOn_single (issue : Issue) (stage : Stage) :
    instructionsOn [issue] stage = if issue.stage = stage then [issue.instruction] else [] := by
  by_cases same : issue.stage = stage <;> simp [instructionsOn, same]

/-- The queues read back as these instructions, and nothing else is in them. -/
def Schedule.Decodes (s : Schedule) (instructions : Stage → List Instruction) : Prop :=
  ∀ stage, (s.get stage).records = (instructions stage).map .ok

theorem Schedule.Decodes.unique {s : Schedule} {is js : Stage → List Instruction}
    (first : s.Decodes is) (second : s.Decodes js) : is = js := by
  funext stage
  have same := (first stage).symm.trans (second stage)
  exact List.map_inj_right (fun _ _ => Except.ok.inj) |>.mp same

/-! ### The assembler and its log -/

/-- The part of the assembler's state that queueing an instruction does not change. -/
structure Control where
  pending : Pending
  phaseMarked : Bool
  expanding : Bool
  legacy : Bool
  constantsSeen : Nat
  poolSize : Nat
  secondRow : Bool

namespace Assembler

def control (a : Assembler) : Control :=
  { pending := a.pending, phaseMarked := a.phaseMarked, expanding := a.expanding
    legacy := a.legacy, constantsSeen := a.constantsSeen, poolSize := a.poolSize
    secondRow := a.secondRow }

/-- The queues and the lists of written registers are those of a log. -/
structure Shows (a : Assembler) (log : List Issue) : Prop where
  queues : ∀ stage, (a.schedule.get stage).Holds (instructionsOn log stage)
  written1 : ∀ register,
    register ∈ a.written1 ↔ Code.isTemp register = true ∧ Log.writes log 1 register = true
  written2 : ∀ register,
    register ∈ a.written2 ↔ Code.isTemp register = true ∧ Log.writes log 2 register = true

/-- Nothing in the queues is malformed: they read back as the instructions of the log. -/
theorem Shows.decodes {a : Assembler} {log : List Issue} (shown : a.Shows log) :
    a.schedule.Decodes (instructionsOn log) :=
  fun stage => (shown.queues stage).records

theorem shows_empty {a : Assembler} (queues : a.schedule = {}) (written1 : a.written1 = [])
    (written2 : a.written2 = []) : a.Shows [] := by
  refine ⟨fun stage => ?_, ?_, ?_⟩
  · rw [queues]
    cases stage <;> exact Queue.holds_empty
  · simp [written1, Log.writes]
  · simp [written2, Log.writes]

/-- Moving the control data leaves the log alone. -/
theorem Shows.of_same {a b : Assembler} {log : List Issue} (shown : a.Shows log)
    (schedule : b.schedule = a.schedule) (written1 : b.written1 = a.written1)
    (written2 : b.written2 = a.written2) : b.Shows log :=
  ⟨by rw [schedule]; exact shown.queues, by rw [written1]; exact shown.written1,
    by rw [written2]; exact shown.written2⟩

@[simp]
theorem schedule_noteWrite (a : Assembler) (stage : Stage) (register : UInt32) :
    (a.noteWrite stage register).schedule = a.schedule := by
  unfold noteWrite
  split
  · rfl
  · split <;> rfl

@[simp]
theorem control_noteWrite (a : Assembler) (stage : Stage) (register : UInt32) :
    (a.noteWrite stage register).control = a.control := by
  unfold noteWrite
  split
  · rfl
  · split <;> rfl

/-- Queueing a record changes no control data. -/
theorem control_queued (a : Assembler) (stage : Stage) (record : List UInt32)
    (register : UInt32) :
    (((a.noteRecord stage).appendRecord stage record).noteWrite stage register).control =
      a.control := by
  have noted : (a.noteRecord stage).control = a.control := by
    unfold noteRecord
    split <;> rfl
  exact (control_noteWrite ..).trans noted

/-- Noting a write adds the register to the list of its pass if it is a temp register. -/
theorem mem_written_noteWrite (a : Assembler) (stage : Stage) (register other : UInt32) :
    (other ∈ (a.noteWrite stage register).written1 ↔
      other ∈ a.written1 ∨ stage.pass = 1 ∧ Code.isTemp other = true ∧ register = other) ∧
    (other ∈ (a.noteWrite stage register).written2 ↔
      other ∈ a.written2 ∨ stage.pass = 2 ∧ Code.isTemp other = true ∧ register = other) := by
  unfold noteWrite
  split
  next notTemp =>
    -- a register that is no temp register is noted nowhere
    have unequal : ¬ (Code.isTemp other = true ∧ register = other) := by
      rintro ⟨temp, rfl⟩
      simp [temp] at notTemp
    simp [unequal]
  next isTemp =>
    have temp : Code.isTemp other = true ∧ register = other ↔ other = register := by
      constructor
      · exact fun both => both.2.symm
      · rintro rfl
        simpa using isTemp
    split
    next first => simp [first, temp, List.mem_insert_iff, or_comm]
    next notFirst =>
      have second : stage.pass = 2 := by cases stage <;> simp_all [Stage.pass]
      simp [second, temp, List.mem_insert_iff, or_comm]

/-- Queueing a record and noting its destination appends to the log. -/
theorem Shows.append {a : Assembler} {log : List Issue} (shown : a.Shows log) (issue : Issue)
    {record : List UInt32} (recorded : issue.instruction.record? = some record) :
    ((a.appendRecord issue.stage record).noteWrite issue.stage
      issue.instruction.destination).Shows (log ++ [issue]) := by
  -- the new issue writes its destination, in the pass of its stage
  have noted (pass : Nat) (register : UInt32) :
      Log.writes (log ++ [issue]) pass register = true ↔
        Log.writes log pass register = true ∨
          issue.stage.pass = pass ∧ issue.instruction.destination = register := by
    rw [Log.writes_append, Bool.or_eq_true]
    simp [Log.writes]
  refine ⟨fun stage => ?_, fun register => ?_, fun register => ?_⟩
  · rw [schedule_noteWrite, appendRecord, Schedule.get_append, instructionsOn_append,
      instructionsOn_single]
    by_cases same : stage = issue.stage
    · subst stage
      simpa using (shown.queues issue.stage).append recorded
    · simpa [same, Ne.symm same] using shown.queues stage
  · rw [(mem_written_noteWrite _ _ _ register).1, noted, appendRecord, shown.written1]
    grind
  · rw [(mem_written_noteWrite _ _ _ register).2, noted, appendRecord, shown.written2]
    grind

theorem control_route (a : Assembler) (register : UInt32) :
    (a.route register).control = a.control := by
  unfold route
  exact control_noteWrite _ _ _

theorem Shows.route {a : Assembler} {log : List Issue} (shown : a.Shows log)
    (register : UInt32) : (a.route register).Shows (log ++ [Log.handOn register]) :=
  shown.append (Log.handOn register) rfl

end Assembler

/-! ### Following a log -/

namespace Assembly

/-- Started with the control data `before`, the step ends with `after` and queues the issues
as a log records them, or fails as the log does. -/
def Follows (step : Assembly Unit) (before after : Control) (issues : List (Place × Issue)) :
    Prop :=
  ∀ a log, a.Shows log → a.control = before →
    match Log.recordAll log issues with
    | .ok next => ∃ b, step a = .ok () b ∧ b.Shows next ∧ b.control = after
    | .error fault => ∃ b, step a = .error fault b

theorem get_apply (a : Assembler) : (get : Assembly Assembler) a = .ok a a := rfl

theorem modify_apply (change : Assembler → Assembler) (a : Assembler) :
    (modify change : Assembly Unit) a = .ok () (change a) := rfl

theorem bind_apply {α : Type} (step : Assembly α) (next : α → Assembly Unit) (a : Assembler) :
    (step >>= next) a = match step a with
      | .ok value b => next value b
      | .error fault b => .error fault b := by
  simp only [bind, EStateM.bind]
  cases step a <;> rfl

theorem follows_pure (c : Control) : Follows (pure ()) c c [] := by
  intro a log shown same
  exact ⟨a, rfl, shown, same⟩

theorem Follows.andThen {first second : Assembly Unit} {before between after : Control}
    {is js : List (Place × Issue)} (left : Follows first before between is)
    (right : Follows second between after js) :
    Follows (do first; second) before after (is ++ js) := by
  intro a log shown same
  -- the first step ends with the log of its issues, from which the second one goes on
  have leftAt := left a log shown same
  rw [Log.recordAll_append]
  cases recorded : Log.recordAll log is with
  | error fault =>
    rw [recorded] at leftAt
    obtain ⟨b, failed⟩ := leftAt
    exact ⟨b, by rw [bind_apply, failed]⟩
  | ok middle =>
    rw [recorded] at leftAt
    obtain ⟨b, passed, shownB, sameB⟩ := leftAt
    simpa only [bind_apply, passed] using right b middle shownB sameB

/-- A step may look at the control data first. -/
theorem follows_get {next : Assembler → Assembly Unit} {before after : Control}
    {issues : List (Place × Issue)}
    (each : ∀ a, a.control = before → Follows (next a) before after issues) :
    Follows (get >>= next) before after issues := by
  intro a log shown same
  exact each a same a log shown same

/-- A step may change the control data. -/
theorem follows_modify {change : Assembler → Assembler} {before after : Control}
    (data : ∀ a, a.control = before → (change a).schedule = a.schedule ∧
      (change a).written1 = a.written1 ∧ (change a).written2 = a.written2 ∧
      (change a).control = after) :
    Follows (modify change) before after [] := by
  intro a log shown same
  obtain ⟨schedule, written1, written2, control⟩ := data a same
  exact ⟨change a, rfl, shown.of_same schedule written1 written2, control⟩

theorem checkRead_eq (place : Place) (register : UInt32) {a : Assembler} {log : List Issue}
    (shown : a.Shows log) :
    match Log.supply place log register with
    | .ok next => ∃ b, checkRead place register a = .ok () b ∧ b.Shows next ∧
        b.control = a.control
    | .error fault => checkRead place register a = .error fault a := by
  have emptyAlu := (shown.queues .alu1).isEmpty_iff
  unfold Log.supply checkRead
  cases temp : Code.isTemp register with
  | false => exact ⟨a, by simp, shown, rfl⟩
  | true =>
    -- for a temp register the two lists say what the log says
    have in1 : a.written1.contains register = Log.writes log 1 register := by
      rw [Bool.eq_iff_iff, List.contains_iff_mem, shown.written1]
      simp [temp]
    have in2 : a.written2.contains register = Log.writes log 2 register := by
      rw [Bool.eq_iff_iff, List.contains_iff_mem, shown.written2]
      simp [temp]
    have single : a.schedule.alu1.isEmpty = (instructionsOn log .alu1).isEmpty := by
      rw [Bool.eq_iff_iff, List.isEmpty_iff]
      exact emptyAlu
    rw [in1, in2, single]
    cases Log.writes log 2 register with
    | true => exact ⟨a, by simp, shown, rfl⟩
    | false =>
      cases Log.writes log 1 register with
      | false => simp
      | true =>
        cases (instructionsOn log .alu1).isEmpty with
        | true => exact ⟨a, by simp, shown, rfl⟩
        | false => exact ⟨a.route register, by simp, shown.route register, a.control_route register⟩

theorem checkReads_eq (place : Place) (registers : List UInt32) {a : Assembler}
    {log : List Issue} (shown : a.Shows log) :
    match Log.supplyAll place log registers with
    | .ok next => ∃ b, checkReads place registers a = .ok () b ∧ b.Shows next ∧
        b.control = a.control
    | .error fault => ∃ b, checkReads place registers a = .error fault b := by
  induction registers generalizing a log with
  | nil => exact ⟨a, rfl, shown, rfl⟩
  | cons register rest ih =>
    have first := checkRead_eq place register shown
    simp only [Log.supplyAll, checkReads, bind_apply]
    cases supplied : Log.supply place log register with
    | error fault =>
      rw [supplied] at first
      simp only [first]
      exact ⟨a, rfl⟩
    | ok next =>
      rw [supplied] at first
      obtain ⟨b, passed, shownB, sameB⟩ := first
      have others := ih shownB
      rw [sameB] at others
      simpa only [passed] using others

private theorem shows_noteRecord {a : Assembler} {log : List Issue} (shown : a.Shows log)
    (stage : Stage) : (a.noteRecord stage).Shows log := by
  unfold Assembler.noteRecord
  split
  · exact shown.of_same rfl rfl rfl
  · exact shown

/-- Queueing an instruction that has a record is recording it in the log. -/
theorem commit_follows (issue : Issue) (pending : Pending) (control : Control)
    (tagged : issue.instruction.tag?.isSome = true) :
    Follows (commit issue.stage issue.instruction pending) control control
      [(pending.place, issue)] := by
  obtain ⟨tag, tagged⟩ := Option.isSome_iff_exists.mp tagged
  obtain ⟨record, recorded⟩ : ∃ record, issue.instruction.record? = some record :=
    ⟨_, by rw [Instruction.record?, tagged]; rfl⟩
  intro a log shown same
  rw [Log.recordAll_single]
  -- once the reads are supplied, the record is appended and its destination noted
  have queued {b : Assembler} {next : List Issue} (shownB : b.Shows next)
      (sameB : b.control = a.control) :
      ∃ c, (modify fun a =>
          ((a.noteRecord issue.stage).appendRecord issue.stage record).noteWrite issue.stage
            issue.instruction.destination : Assembly Unit) b = .ok () c ∧
        c.Shows (next ++ [issue]) ∧ c.control = control := by
    refine ⟨_, rfl, (shows_noteRecord shownB issue.stage).append issue recorded, ?_⟩
    exact (b.control_queued ..).trans (sameB.trans same)
  unfold commit Log.record Log.prepare
  simp only [recorded]
  by_cases reads : issue.stage = .alu2
  · have supplied := checkReads_eq pending.place
      (issue.instruction.operands.map (·.register)) shown
    simp only [reads, if_true, bind_apply]
    cases outcome : Log.supplyAll pending.place log
        (issue.instruction.operands.map (·.register)) with
    | error fault =>
      rw [outcome] at supplied
      obtain ⟨b, failed⟩ := supplied
      simp only [failed]
      exact ⟨b, rfl⟩
    | ok next =>
      rw [outcome] at supplied
      obtain ⟨b, passed, shownB, sameB⟩ := supplied
      simp only [passed, Except.map]
      simpa only [reads] using queued shownB sameB
  · simp only [reads, if_false]
    exact queued shown rfl

end Assembly
end PixelAsm
