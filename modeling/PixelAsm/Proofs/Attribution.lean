import PixelAsm.Proofs.Lifecycle

/-!
# Which load reports an error

An error that the device raises stays pending until someone asks for it. Uploads ask, behind
each call that hands over a part of a program, and nothing else in a session does. So an error
goes to the first load that hands over something at the call that raised it or behind it, which
need not be the load that made this call.
-/
namespace PixelAsm

/-! ### Parts that are handed over -/

/-- The call at a position hands over a part of a program that has begun. -/
def HandedOver (calls : List Call) (n : Nat) : Prop :=
  ∃ call, calls[n]? = some call ∧ call.isUpload = true ∧ Opened (calls.take n)

/-- The first part that is handed over from a position on. -/
structure FirstHanded (calls : List Call) (k n : Nat) : Prop where
  le : k ≤ n
  handed : HandedOver calls n
  first : ∀ m, k ≤ m → m < n → ¬ HandedOver calls m

theorem opened_concat {calls : List Call} {call : Call} :
    Opened (calls ++ [call]) ↔ call = .beginProgram ∨ call.isUpload = true ∧ Opened calls := by
  constructor
  · rintro ⟨earlier, inner, split, uploads⟩
    -- the last call is the beginning or a part that was handed over since
    rcases List.eq_nil_or_concat inner with rfl | ⟨front, last, rfl⟩
    · exact .inl (by simpa using (List.append_inj' split rfl).2)
    · rw [List.concat_eq_append, ← List.cons_append, ← List.append_assoc] at split
      obtain ⟨rfl, same⟩ := List.append_inj' split rfl
      obtain rfl : call = last := by simpa using same
      refine .inr ⟨uploads call (by simp), earlier, front, rfl, fun c member => ?_⟩
      exact uploads c (by simp [member])
  · rintro (rfl | ⟨upload, earlier, inner, rfl, uploads⟩)
    · exact ⟨calls, [], rfl, by simp⟩
    · refine ⟨earlier, inner ++ [call], by simp, fun c member => ?_⟩
      rcases List.mem_append.mp member with old | new
      · exact uploads c old
      · rw [List.mem_singleton.mp new, upload]

theorem HandedOver.lt {calls : List Call} {n : Nat} (handed : HandedOver calls n) :
    n < calls.length := by
  obtain ⟨call, found, -⟩ := handed
  exact (List.getElem?_eq_some_iff.mp found).1

/-- What comes later does not change whether a call hands something over. -/
theorem handedOver_append {calls : List Call} {n : Nat} (inside : n < calls.length)
    (more : List Call) : HandedOver (calls ++ more) n ↔ HandedOver calls n := by
  unfold HandedOver
  rw [List.getElem?_append_left inside, List.take_append_of_le_length (Nat.le_of_lt inside)]

theorem handedOver_last {calls : List Call} {call : Call} :
    HandedOver (calls ++ [call]) calls.length ↔ call.isUpload = true ∧ Opened calls := by
  simp [HandedOver]

/-- A last call that hands nothing over leaves the others as they were. -/
theorem handedOver_concat {calls : List Call} {call : Call}
    (other : ¬ (call.isUpload = true ∧ Opened calls)) (n : Nat) :
    HandedOver (calls ++ [call]) n ↔ HandedOver calls n := by
  rcases Nat.lt_trichotomy n calls.length with inside | rfl | outside
  · exact handedOver_append inside _
  · rw [handedOver_last]
    exact ⟨fun own => absurd own other, fun handed => absurd handed.lt (Nat.lt_irrefl _)⟩
  · constructor
    · intro handed
      have bound := handed.lt
      rw [List.length_append, List.length_singleton] at bound
      omega
    · exact fun handed => absurd handed.lt (Nat.not_lt.mpr (Nat.le_of_lt outside))

theorem FirstHanded.congr {calls others : List Call} {k n : Nat}
    (same : ∀ m ≤ n, HandedOver calls m ↔ HandedOver others m) (first : FirstHanded calls k n) :
    FirstHanded others k n where
  le := first.le
  handed := (same n (Nat.le_refl n)).mp first.handed
  first m since earlier handed :=
    first.first m since earlier ((same m (Nat.le_of_lt earlier)).mpr handed)

theorem firstHanded_append {calls : List Call} {k n : Nat} (inside : n < calls.length)
    (more : List Call) : FirstHanded (calls ++ more) k n ↔ FirstHanded calls k n := by
  have same (m : Nat) (earlier : m ≤ n) : HandedOver (calls ++ more) m ↔ HandedOver calls m :=
    handedOver_append (Nat.lt_of_le_of_lt earlier inside) more
  exact ⟨.congr same, .congr fun m earlier => (same m earlier).symm⟩

/-! ### Recorders -/

namespace Recorder

def trace (d : Recorder) : List Call := d.calls.toList

/-- An error is pending exactly if a call has raised one and nothing was handed over since. -/
structure Honest (d : Recorder) : Prop where
  pending_iff : d.errorPending = true ↔
    ∃ k, d.failAt? = some k ∧ k < d.trace.length ∧ ∀ m, k ≤ m → ¬ HandedOver d.trace m

/-- What the recorder is asked for on the way to a later one, and whether one of the questions
finds an error: that happens if the first part that is handed over from the failing call on is
handed over on this way. -/
structure Reports (d : Recorder) (found : Bool) (later : Recorder) : Prop where
  failAt : later.failAt? = d.failAt?
  grown : ∃ more, later.trace = d.trace ++ more
  honest : later.Honest
  found_iff : found = true ↔
    ∃ k n, d.failAt? = some k ∧ d.trace.length ≤ n ∧ FirstHanded later.trace k n

variable {d e f : Recorder}

theorem Honest.reports_refl (honest : d.Honest) : d.Reports false d where
  failAt := rfl
  grown := ⟨[], by simp⟩
  honest := honest
  found_iff := by
    refine ⟨fun never => (Bool.false_ne_true never).elim, ?_⟩
    rintro ⟨k, n, -, behind, first⟩
    exact absurd first.handed.lt (Nat.not_lt.mpr behind)

theorem Reports.trans {found more : Bool} (first : d.Reports found e)
    (second : e.Reports more f) : d.Reports (found || more) f := by
  obtain ⟨between, grownE⟩ := first.grown
  obtain ⟨behind, grownF⟩ := second.grown
  have longer : d.trace.length ≤ e.trace.length := by simp [grownE]
  refine ⟨second.failAt.trans first.failAt, ⟨between ++ behind, by simp [grownF, grownE]⟩,
    second.honest, ?_⟩
  rw [Bool.or_eq_true, first.found_iff, second.found_iff, first.failAt]
  constructor
  · rintro (⟨k, n, fails, own, handed⟩ | ⟨k, n, fails, own, handed⟩)
    · refine ⟨k, n, fails, own, ?_⟩
      rw [grownF]
      exact (firstHanded_append handed.handed.lt behind).mpr handed
    · exact ⟨k, n, fails, Nat.le_trans longer own, handed⟩
  · rintro ⟨k, n, fails, own, handed⟩
    by_cases inside : n < e.trace.length
    · rw [grownF] at handed
      exact .inl ⟨k, n, fails, own, (firstHanded_append inside behind).mp handed⟩
    · exact .inr ⟨k, n, fails, Nat.not_lt.mp inside, handed⟩

theorem trace_record (d : Recorder) (call : Call) : (d.record call).trace = d.trace ++ [call] := by
  simp [trace, record]

theorem errorPending_record (d : Recorder) (call : Call) :
    (d.record call).errorPending = true ↔
      d.errorPending = true ∨ d.failAt? = some d.trace.length := by
  simp [record, trace]

/-- A call that hands nothing over leaves an error pending. -/
theorem Honest.reports_record (honest : d.Honest) {call : Call}
    (other : ¬ (call.isUpload = true ∧ Opened d.trace)) : d.Reports false (d.record call) := by
  have same := handedOver_concat other
  refine ⟨rfl, ⟨[call], d.trace_record call⟩, ?_, ?_⟩
  · constructor
    rw [errorPending_record, trace_record, honest.pending_iff]
    simp only [same, List.length_append, List.length_singleton]
    constructor
    · rintro (⟨k, fails, before, none⟩ | here)
      · exact ⟨k, fails, Nat.lt_succ_of_lt before, none⟩
      · exact ⟨_, here, Nat.lt_succ_self _, fun m behind handed =>
          absurd handed.lt (Nat.not_lt.mpr behind)⟩
    · rintro ⟨k, fails, before, none⟩
      rcases Nat.lt_succ_iff_lt_or_eq.mp before with earlier | rfl
      · exact .inl ⟨k, fails, earlier, none⟩
      · exact .inr fails
  · rw [trace_record]
    refine ⟨fun never => (Bool.false_ne_true never).elim, ?_⟩
    rintro ⟨k, n, -, behind, first⟩
    exact absurd ((same n).mp first.handed).lt (Nat.not_lt.mpr behind)

theorem trace_part (d : Recorder) (call : Call) :
    (device.poll (device.perform d call)).2.trace = d.trace ++ [call] :=
  d.trace_record call

/-- The question behind a call that hands something over finds the error if there is one, and
takes it. -/
theorem Honest.reports_part (honest : d.Honest) {call : Call} (upload : call.isUpload = true)
    (opened : Opened d.trace) :
    d.Reports (device.poll (device.perform d call)).1 (device.poll (device.perform d call)).2 := by
  have trace := d.trace_part call
  have handed : HandedOver (d.trace ++ [call]) d.trace.length :=
    handedOver_last.mpr ⟨upload, opened⟩
  refine ⟨rfl, ⟨[call], trace⟩, ?_, ?_⟩
  · constructor
    rw [trace]
    refine ⟨fun never => (Bool.false_ne_true never).elim, ?_⟩
    rintro ⟨k, -, before, none⟩
    rw [List.length_append, List.length_singleton] at before
    exact absurd handed (none _ (Nat.lt_succ_iff.mp before))
  · rw [trace, show (device.poll (device.perform d call)).1 = (d.record call).errorPending from rfl,
      errorPending_record, honest.pending_iff]
    constructor
    · -- the error was pending already, or the call itself raises it
      rintro (⟨k, fails, before, none⟩ | here)
      · refine ⟨k, _, fails, Nat.le_refl _, Nat.le_of_lt before, handed, fun m since earlier => ?_⟩
        rw [handedOver_append earlier]
        exact none m since
      · exact ⟨_, _, here, Nat.le_refl _, Nat.le_refl _, handed, fun m since earlier =>
          absurd earlier (Nat.not_lt.mpr since)⟩
    · rintro ⟨k, n, fails, behind, le, last, first⟩
      have bound := last.lt
      rw [List.length_append, List.length_singleton] at bound
      obtain rfl : n = d.trace.length := by omega
      rcases Nat.lt_or_eq_of_le le with earlier | rfl
      · refine .inl ⟨k, fails, earlier, fun m since before => ?_⟩
        exact first m since before.lt ((handedOver_append before.lt _).mpr before)
      · exact .inr fails

/-! ### Uploads -/

theorem Honest.reports_uploadRecords (honest : d.Honest) (opened : Opened d.trace)
    (constants : List Binary32) (stage : Stage) (index : Nat)
    (records : List (Except RecordError Instruction)) :
    let out := device.uploadRecords constants stage index records d
    Opened out.2.trace ∧ d.Reports (!out.1.isOk) out.2 := by
  induction records generalizing index d with
  | nil => exact ⟨opened, honest.reports_refl⟩
  | cons record rest ih =>
    cases record with
    | error fault => exact ⟨opened, honest.reports_refl⟩
    | ok i =>
      simp only [Device.uploadRecords]
      cases issued : i.call? constants with
      | none => exact ⟨opened, honest.reports_refl⟩
      | some call =>
        have upload := isUpload_of_call? issued
        have own := honest.reports_part upload opened
        have still : Opened (device.poll (device.perform d call)).2.trace := by
          rw [d.trace_part call]
          exact opened_concat.mpr (.inr ⟨upload, opened⟩)
        dsimp only
        split
        next polled =>
          rw [polled] at own still
          exact ⟨still, own⟩
        next polled =>
          rw [polled] at own still
          obtain ⟨opened, others⟩ := ih own.honest still (index + 1)
          exact ⟨opened, own.trans others⟩

theorem Honest.reports_uploadStages (honest : d.Honest) (opened : Opened d.trace)
    (schedule : Schedule) (constants : List Binary32) (stages : List Stage) :
    let out := device.uploadStages schedule constants stages d
    Opened out.2.trace ∧ d.Reports (!out.1.isOk) out.2 := by
  induction stages generalizing d with
  | nil => exact ⟨opened, honest.reports_refl⟩
  | cons stage rest ih =>
    obtain ⟨still, own⟩ :=
      honest.reports_uploadRecords opened constants stage 0 (schedule.get stage).records
    unfold Device.uploadStages
    split
    next stopped =>
      rw [stopped] at own still
      exact ⟨still, own⟩
    next passed =>
      rw [passed] at own still
      obtain ⟨opened, others⟩ := ih own.honest still
      exact ⟨opened, own.trans others⟩

/-! ### Between two commands -/

/-- No program is open, and the recorder tells of errors as it should. -/
structure Watched (failAt? : Option Nat) (d : Recorder) : Prop where
  failAt : d.failAt? = failAt?
  honest : d.Honest
  closed : ¬ Opened d.trace

variable {failAt? : Option Nat}

theorem Watched.record (watched : d.Watched failAt?) {call : Call} (other : call ≠ .beginProgram) :
    (d.record call).Watched failAt? := by
  have reports := watched.honest.reports_record fun own : call.isUpload = true ∧ _ =>
    watched.closed own.2
  refine ⟨reports.failAt.trans watched.failAt, reports.honest, ?_⟩
  rw [trace_record, opened_concat]
  rintro (begins | ⟨-, opened⟩)
  · exact other begins
  · exact watched.closed opened

theorem Watched.foldl_record (watched : d.Watched failAt?) {calls : List Call}
    (others : ∀ call ∈ calls, call ≠ .beginProgram) :
    (calls.foldl Recorder.record d).Watched failAt? := by
  induction calls generalizing d with
  | nil => exact watched
  | cons call rest ih =>
    exact ih (watched.record (others call (by simp))) fun c member => others c (by simp [member])

end Recorder

namespace Program

variable {failAt? : Option Nat} {d : Recorder}

theorem reports_ensureHandle (p : Program) (honest : d.Honest) :
    d.Reports false (p.ensureHandle d).2 := by
  unfold ensureHandle
  split
  · exact honest.reports_refl
  · -- the count of programs has nothing to do with errors
    have counted : ({ d with created := d.created + 1 } : Recorder).Honest := ⟨honest.pending_iff⟩
    have reports := counted.reports_record
      fun own : (Call.create (d.created + 1)).isUpload = true ∧ _ => Bool.false_ne_true own.1
    exact ⟨reports.failAt, reports.grown, reports.honest, reports.found_iff⟩

/-- A load of a source that compiles can only fail at the device. -/
theorem load_outcome {p : Program} {source : String}
    (accepted : (p.compiler.compile source).1 = .ok ()) (d : Recorder) :
    (p.load d source).1 = .ok () ∨ ∃ fault, (p.load d source).1 = .error (.upload fault) := by
  have outcomes (result : Except UploadError Unit) :
      result.mapError ProgramError.upload = .ok () ∨
        ∃ fault, result.mapError ProgramError.upload = .error (.upload fault) := by
    cases result with
    | ok value => exact .inl rfl
    | error fault => exact .inr ⟨fault, rfl⟩
  unfold load
  cases compiled : p.compiler.compile source with
  | mk verdict compiler =>
    rw [compiled] at accepted
    subst accepted
    exact outcomes _

/-- A load of a source that compiles comes back with an error exactly if one of its questions
finds one. -/
theorem load_reports {p : Program} {source : String}
    (accepted : (p.compiler.compile source).1 = .ok ()) (watched : d.Watched failAt?) :
    d.Reports (!(p.load d source).1.isOk) (p.load d source).2.2 ∧
      (p.load d source).2.2.Watched failAt? := by
  unfold load
  cases compiled : p.compiler.compile source with
  | mk verdict compiler =>
    rw [compiled] at accepted
    subst accepted
    let handle := (p.ensureHandle d).1
    let bound := (p.ensureHandle d).2.record (.bind handle)
    let begun := bound.record .beginProgram
    have numbered := p.reports_ensureHandle watched.honest
    have binds : (p.ensureHandle d).2.Reports false bound :=
      numbered.honest.reports_record fun own => Bool.false_ne_true own.1
    have begins : bound.Reports false begun :=
      binds.honest.reports_record fun own => Bool.false_ne_true own.1
    have opened : Opened begun.trace := by
      rw [Recorder.trace_record]
      exact opened_concat.mpr (.inl rfl)
    -- the parts come between two calls that hand nothing over
    obtain ⟨-, uploads⟩ := begins.honest.reports_uploadStages opened compiler.schedule
      compiler.reading.constants Stage.all
    let out := begun.upload compiler.schedule compiler.reading.constants
    have ends : out.2.Reports false (out.2.record .endProgram) :=
      uploads.honest.reports_record fun own => Bool.false_ne_true own.1
    have whole := (((numbered.trans binds).trans begins).trans uploads).trans ends
    have result : (out.1.mapError ProgramError.upload).isOk = out.1.isOk := by
      cases out.1 <;> rfl
    simp only [Bool.false_or, Bool.or_false] at whole
    refine ⟨?_, whole.failAt.trans watched.failAt, whole.honest, ?_⟩
    · show d.Reports (!(out.1.mapError ProgramError.upload).isOk) _
      rw [result]
      exact whole
    · show ¬ Opened (out.2.record .endProgram).trace
      rw [Recorder.trace_record, opened_concat]
      rintro (begins | ⟨upload, -⟩)
      · cases begins
      · cases upload

end Program

/-! ### Sessions -/

/-- A command that programs offer, not one that changes or asks the recorder itself. -/
def Command.isLifecycle : Command → Bool
  | failAt _ | clearCalls | poll => false
  | _ => true

/-- The reply is an error that the device has reported. -/
def Reply.isDeviceError : Reply → Bool
  | result (.error (.upload _)) => true
  | _ => false

namespace Session

variable {failAt? : Option Nat} {s : Session}

theorem watched_start (count : Nat) (failAt? : Option Nat) :
    (start count failAt?).device.Watched failAt? where
  failAt := rfl
  honest := by
    refine ⟨fun never => (Bool.false_ne_true never).elim, ?_⟩
    rintro ⟨k, -, before, -⟩
    exact absurd before (Nat.not_lt_zero k)
  closed := by
    rintro ⟨earlier, inner, split, -⟩
    exact absurd (congrArg List.length split) (by simp [start, Recorder.trace])

theorem watched_run (watched : s.device.Watched failAt?) {command : Command}
    (lifecycle : command.isLifecycle = true) : (s.run command).2.device.Watched failAt? := by
  cases command with
  | failAt call? | clearCalls | poll => cases lifecycle
  | clone index | «show» index => exact watched
  | unbind index => exact watched.record Call.noConfusion
  | load index source =>
    rw [run_load]
    cases verdict : ((s.program index).compiler.compile source).1 with
    | ok value => exact (Program.load_reports verdict watched).2
    | error fault =>
      rw [(Program.load_refused verdict s.device).2]
      exact watched
  | bind index =>
    show ((s.program index).bind s.device).2.Watched failAt?
    unfold Program.bind
    split
    · exact watched
    · exact watched.record Call.noConfusion
  | bindParameters index values =>
    show ((s.program index).bindParameters s.device values).2.Watched failAt?
    unfold Program.bindParameters
    split
    · exact watched
    · refine watched.foldl_record fun call member => ?_
      obtain ⟨pair, -, rfl⟩ := List.mem_map.mp member
      exact Call.noConfusion
  | unload index =>
    show ((s.program index).unload s.device).2.Watched failAt?
    unfold Program.unload
    split
    · exact watched
    · exact watched.record Call.noConfusion

theorem watched_runAll (watched : s.device.Watched failAt?) {commands : List Command}
    (lifecycle : ∀ c ∈ commands, c.isLifecycle = true) :
    (s.runAll commands).device.Watched failAt? := by
  induction commands generalizing s with
  | nil => exact watched
  | cons command rest ih =>
    have next := watched_run watched (lifecycle command (by simp))
    exact ih next fun c member => lifecycle c (by simp [member])

/-- A load whose source compiles comes back with an error of the device exactly if the first
part of a program that is handed over from the failing call on, over all calls of the session,
is handed over by this load. -/
theorem load_reports_first_handed (count : Nat) (failAt? : Option Nat) (commands : List Command)
    (lifecycle : ∀ c ∈ commands, c.isLifecycle = true) (index : Nat) (source : String) :
    let s := (start count failAt?).runAll commands
    let out := s.run (.load index source)
    ((s.program index).compiler.compile source).1 = .ok () →
      (out.1.isDeviceError = true ↔
        ∃ k n, failAt? = some k ∧ s.trace.length ≤ n ∧ FirstHanded out.2.trace k n) := by
  intro s out accepted
  have watched : s.device.Watched failAt? := watched_runAll (watched_start count failAt?) lifecycle
  obtain ⟨reports, -⟩ := Program.load_reports accepted watched
  have result : out.1.isDeviceError = !((s.program index).load s.device source).1.isOk := by
    show (Reply.result ((s.program index).load s.device source).1).isDeviceError = _
    rcases Program.load_outcome accepted s.device with passed | ⟨fault, failed⟩
    · rw [passed]
      rfl
    · rw [failed]
      rfl
  rw [result, reports.found_iff, watched.failAt]
  rfl

/-- The source of a program with one instruction for each half. -/
def moveText : String := "ps.1.4\nmov r0, c0\n"

private theorem run_inherited :
    let s := (start 1 (some 0)).runAll [.unbind 0]
    ((s.program 0).compiler.compile moveText).1 = .ok () ∧ s.trace.length = 1 ∧
      (s.run (.load 0 moveText)).1.isDeviceError = true := by
  decide +kernel

/-- The failing call has been made before the load. -/
theorem load_reports_first_handed_inherited :
    let s := (start 1 (some 0)).runAll [.unbind 0]
    (∀ c ∈ [Command.unbind 0], c.isLifecycle = true) ∧
      ((s.program 0).compiler.compile moveText).1 = .ok () ∧
      ∃ n, 1 ≤ n ∧ FirstHanded (s.run (.load 0 moveText)).2.trace 0 n := by
  have lifecycle : ∀ c ∈ [Command.unbind 0], c.isLifecycle = true := by decide
  obtain ⟨accepted, length, failed⟩ := run_inherited
  have reports := load_reports_first_handed 1 (some 0) [.unbind 0] lifecycle 0 moveText
  generalize (start 1 (some 0)).runAll [.unbind 0] = s at accepted length failed reports ⊢
  obtain ⟨k, n, ⟨⟩, own, first⟩ := (reports accepted).mp failed
  exact ⟨lifecycle, accepted, n, length ▸ own, first⟩

/-- An error of the device is not always the error of a call that the load itself has made. -/
theorem errors_not_always_own : ¬ ∀ count failAt? commands index source,
    (∀ c ∈ commands, c.isLifecycle = true) →
      let s := (start count failAt?).runAll commands
      let out := s.run (.load index source)
      ((s.program index).compiler.compile source).1 = .ok () →
        (out.1.isDeviceError = true ↔
          ∃ k, failAt? = some k ∧ s.trace.length ≤ k ∧ k < out.2.trace.length) := by
  intro own
  have lifecycle : ∀ c ∈ [Command.unbind 0], c.isLifecycle = true := by decide
  obtain ⟨accepted, length, failed⟩ := run_inherited
  have reports := own 1 (some 0) [.unbind 0] 0 moveText lifecycle
  generalize (start 1 (some 0)).runAll [.unbind 0] = s at accepted length failed reports
  obtain ⟨k, ⟨⟩, behind, -⟩ := (reports accepted).mp failed
  omega

end Session
end PixelAsm
