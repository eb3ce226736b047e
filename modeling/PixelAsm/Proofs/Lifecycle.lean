import PixelAsm.Proofs.Protocol
import PixelAsm.Session

/-!
# The life of programs on a device

Programs that share a device are loaded, bound and unloaded in any order, and the device may
report errors at any point. As long as no program is copied, each one has its own number on the
device, and the calls that they all make follow the protocol.
-/
namespace PixelAsm

/-! ### What the device is asked for -/

/-- The second recorder has the calls of the first and some more, and no new program. -/
structure Recorder.Adds (d : Recorder) (calls : List Call) (later : Recorder) : Prop where
  calls : later.calls.toList = d.calls.toList ++ calls
  created : later.created = d.created

namespace Recorder

variable {d e f : Recorder}

theorem Adds.refl (d : Recorder) : d.Adds [] d := ⟨by simp, rfl⟩

theorem Adds.trans {calls more : List Call} (first : d.Adds calls e) (second : e.Adds more f) :
    d.Adds (calls ++ more) f :=
  ⟨by rw [second.calls, first.calls, List.append_assoc], second.created.trans first.created⟩

theorem adds_record (d : Recorder) (call : Call) : d.Adds [call] (d.record call) :=
  ⟨by simp [record], rfl⟩

theorem adds_foldl_record (d : Recorder) (calls : List Call) :
    d.Adds calls (calls.foldl record d) := by
  induction calls generalizing d with
  | nil => exact .refl d
  | cons call rest ih => exact (d.adds_record call).trans (ih _)

theorem isUpload_of_call? {constants : List Binary32} {i : Instruction} {call : Call}
    (issued : i.call? constants = some call) : call.isUpload = true := by
  cases i with
  | color | alpha | setConstants =>
    obtain ⟨_, -, rfl⟩ := Option.map_eq_some_iff.mp issued
    rfl
  | passTexCoord | sampleMap =>
    cases issued
    rfl

/-- Some parts of a program have been handed over and nothing else. -/
def HandsOver (d later : Recorder) : Prop :=
  ∃ body, (∀ c ∈ body, Call.isUpload c = true) ∧ d.Adds body later

theorem HandsOver.refl (d : Recorder) : d.HandsOver d := ⟨[], by simp, .refl d⟩

theorem HandsOver.trans (first : d.HandsOver e) (second : e.HandsOver f) : d.HandsOver f := by
  obtain ⟨body, uploads, added⟩ := first
  obtain ⟨more, others, behind⟩ := second
  refine ⟨body ++ more, fun c member => ?_, added.trans behind⟩
  rcases List.mem_append.mp member with first | second
  · exact uploads c first
  · exact others c second

/-- An upload hands over parts of a program, however far it gets. -/
theorem handsOver_uploadRecords (constants : List Binary32) (stage : Stage) (index : Nat)
    (records : List (Except RecordError Instruction)) (d : Recorder) :
    d.HandsOver (device.uploadRecords constants stage index records d).2 := by
  induction records generalizing index d with
  | nil => exact .refl d
  | cons record rest ih =>
    cases record with
    | error fault => exact .refl d
    | ok i =>
      simp only [Device.uploadRecords]
      cases issued : i.call? constants with
      | none => exact .refl d
      | some call =>
        have own : d.HandsOver (device.poll (device.perform d call)).2 := by
          refine ⟨[call], ?_, (d.adds_record call).calls, rfl⟩
          simpa using isUpload_of_call? issued
        dsimp only
        split
        next polled =>
          rw [polled] at own
          exact own
        next polled =>
          rw [polled] at own
          exact own.trans (ih _ _)

theorem handsOver_uploadStages (schedule : Schedule) (constants : List Binary32)
    (stages : List Stage) (d : Recorder) :
    d.HandsOver (device.uploadStages schedule constants stages d).2 := by
  induction stages generalizing d with
  | nil => exact .refl d
  | cons stage rest ih =>
    have own := handsOver_uploadRecords constants stage 0 (schedule.get stage).records d
    unfold Device.uploadStages
    split
    next stopped =>
      rw [stopped] at own
      exact own
    next passed =>
      rw [passed] at own
      exact own.trans (ih _)

theorem handsOver_upload (d : Recorder) (schedule : Schedule) (constants : List Binary32) :
    d.HandsOver (d.upload schedule constants).2 :=
  handsOver_uploadStages schedule constants Stage.all d

end Recorder

namespace Program

/-- A program that compiles is bound, begun, handed over and ended, whatever the device
reports. -/
theorem load_accepted {p : Program} {source : String}
    (accepted : (p.compiler.compile source).1 = .ok ()) (d : Recorder) :
    (p.load d source).2.1.handle? = some (p.ensureHandle d).1 ∧
      ∃ body, (∀ c ∈ body, c.isUpload = true) ∧
        (p.ensureHandle d).2.Adds
          (.bind (p.ensureHandle d).1 :: .beginProgram :: (body ++ [.endProgram]))
          (p.load d source).2.2 := by
  unfold load
  cases compiled : p.compiler.compile source with
  | mk verdict compiler =>
    rw [compiled] at accepted
    subst accepted
    refine ⟨rfl, ?_⟩
    let handle := (p.ensureHandle d).1
    let begun := ((p.ensureHandle d).2.record (.bind handle)).record .beginProgram
    obtain ⟨body, uploads, added⟩ :=
      begun.handsOver_upload compiler.schedule compiler.reading.constants
    refine ⟨body, uploads, ?_⟩
    have front := ((p.ensureHandle d).2.adds_record (.bind handle)).trans
      (Recorder.adds_record _ .beginProgram)
    exact front.trans (added.trans (Recorder.adds_record _ .endProgram))

theorem load_refused {p : Program} {source : String} {fault : CompileError}
    (refused : (p.compiler.compile source).1 = .error fault) (d : Recorder) :
    (p.load d source).2.1.handle? = p.handle? ∧ (p.load d source).2.2 = d := by
  unfold load
  cases compiled : p.compiler.compile source with
  | mk verdict compiler =>
    rw [compiled] at refused
    subst refused
    exact ⟨rfl, rfl⟩

end Program

/-! ### Numbers and their owners -/

/-- The programs that have a number on the device have different ones, and all these programs
live. -/
structure Owned (trace : List Call) (handle? : Nat → Option Nat) : Prop where
  living : ∀ i h, handle? i = some h → Living trace h
  apart : ∀ i j h, handle? i = some h → handle? j = some h → i = j

namespace Owned

variable {trace : List Call} {handle? : Nat → Option Nat}

theorem append (owned : Owned trace handle?) {more : List Call}
    (kept : ∀ h, .destroy h ∉ more) : Owned (trace ++ more) handle? where
  living i h has := (owned.living i h has).append (kept h)
  apart := owned.apart

/-- A program without a number gets one that no other has. -/
theorem assign (owned : Owned trace handle?) {program : Nat} (living : Living trace program)
    (fresh : ∀ i, handle? i ≠ some program) {later : Nat → Option Nat} (index : Nat)
    (own : later index = handle? index ∨ later index = some program)
    (others : ∀ i, i ≠ index → later i = handle? i) : Owned trace later := by
  -- a number is the new one or an old one
  have origin {i h : Nat} (has : later i = some h) :
      i = index ∧ h = program ∨ handle? i = some h := by
    by_cases same : i = index
    · subst i
      rcases own with kept | assigned
      · exact .inr (kept ▸ has)
      · exact .inl ⟨rfl, Option.some.inj (has.symm.trans assigned)⟩
    · exact .inr (others i same ▸ has)
  constructor
  · intro i h has
    rcases origin has with ⟨-, rfl⟩ | old
    · exact living
    · exact owned.living i h old
  · intro i j h first second
    rcases origin first with ⟨rfl, rfl⟩ | old
    · rcases origin second with ⟨rfl, -⟩ | old
      · rfl
      · exact absurd old (fresh j)
    · rcases origin second with ⟨rfl, rfl⟩ | old'
      · exact absurd old (fresh i)
      · exact owned.apart i j h old old'

/-- The program whose number is destroyed has none from then on. -/
theorem release (owned : Owned trace handle?) {index program : Nat}
    (held : handle? index = some program) {later : Nat → Option Nat}
    (own : later index = none) (others : ∀ i, i ≠ index → later i = handle? i) :
    Owned (trace ++ [.destroy program]) later := by
  have old {i h : Nat} (has : later i = some h) : i ≠ index ∧ handle? i = some h := by
    by_cases same : i = index
    · rw [same, own] at has
      cases has
    · exact ⟨same, others i same ▸ has⟩
  constructor
  · intro i h has
    obtain ⟨other, before⟩ := old has
    apply (owned.living i h before).append
    intro destroyed
    obtain rfl : h = program := by simpa using destroyed
    exact other (owned.apart i index h before held)
  · intro i j h first second
    exact owned.apart i j h (old first).2 (old second).2

end Owned

/-! ### Sessions -/

/-- A command that leaves every program the only one of its kind, and the record complete. -/
def Command.isPlain : Command → Bool
  | clone _ | clearCalls => false
  | _ => true

namespace Session

def trace (s : Session) : List Call := s.device.calls.toList

def handle? (s : Session) (index : Nat) : Option Nat := (s.program index).handle?

/-- What holds between any two commands. -/
structure Sound (s : Session) : Prop where
  protocol : Protocol s.device.created s.trace
  owned : Owned s.trace s.handle?

theorem program_start (count : Nat) (failAt? : Option Nat) (i : Nat) :
    (start count failAt?).program i = {} := by
  simp only [program, start, Array.getD_eq_getD_getElem?, Array.getElem?_replicate]
  split <;> rfl

theorem program_store (s : Session) (index : Nat) (p : Program) (device : Recorder) (i : Nat) :
    ({ programs := s.programs.setIfInBounds index p, device } : Session).program i =
      if i = index ∧ i < s.programs.size then p else s.program i := by
  simp only [program, Array.getD_eq_getD_getElem?, Array.getElem?_setIfInBounds]
  by_cases same : i = index
  · subst i
    by_cases inside : index < s.programs.size
    · simp [inside]
    · simp [inside]
  · simp [same, Ne.symm same]

theorem handle?_store (s : Session) (index : Nat) (p : Program) (device : Recorder) (i : Nat) :
    ({ programs := s.programs.setIfInBounds index p, device } : Session).handle? i =
      if i = index ∧ i < s.programs.size then p.handle? else s.handle? i := by
  simp only [handle?, program_store]
  split <;> rfl

/-- A program that comes back with its number changes no number. -/
theorem handle?_store_same (s : Session) {index : Nat} {p : Program}
    (kept : p.handle? = s.handle? index) (device : Recorder) :
    ({ programs := s.programs.setIfInBounds index p, device } : Session).handle? = s.handle? := by
  funext i
  rw [handle?_store]
  split
  next same => rw [same.1, kept]
  · rfl

/-- Only a program of the session has a number. -/
theorem lt_size_of_handle? {s : Session} {index program : Nat}
    (held : s.handle? index = some program) : index < s.programs.size := by
  by_contra outside
  simp [handle?, Session.program, Array.getD_eq_getD_getElem?, outside] at held

theorem sound_start (count : Nat) (failAt? : Option Nat) : (start count failAt?).Sound := by
  have none (i : Nat) : (start count failAt?).handle? i = none := by
    rw [handle?, program_start]
  constructor
  · exact .start
  · constructor
    · intro i h has
      rw [none] at has
      cases has
    · intro i j h has
      rw [none] at has
      cases has

/-- Calls that need no program, or only a living one, leave the numbers as they are. -/
theorem Sound.still {s t : Session} (sound : s.Sound) {calls : List Call}
    (added : s.device.Adds calls t.device) (same : t.handle? = s.handle?)
    (protocol : Protocol s.device.created (s.trace ++ calls))
    (kept : ∀ h, .destroy h ∉ calls) : t.Sound := by
  have trace : t.trace = s.trace ++ calls := added.calls
  constructor
  · rw [trace, added.created]
    exact protocol
  · rw [trace, same]
    exact sound.owned.append kept

/-! ### Loading -/

/-- The number under which a program is loaded, the calls that give it one, and how many
programs there are then. -/
inductive Numbered (s : Session) (index : Nat) : Nat → List Call → Nat → Prop
  | held {program : Nat} (held : s.handle? index = some program) :
      Numbered s index program [] s.device.created
  | new (none : s.handle? index = none) :
      Numbered s index (s.device.created + 1) [.create (s.device.created + 1)]
        (s.device.created + 1)

/-- A load that does not compile does nothing on the device. Any other one binds the program,
begins it, hands over parts of it and ends it, whether an error is reported or not. -/
def LoadsWhole (s : Session) (index : Nat) (source : String) : Prop :=
  let later := (s.run (.load index source)).2
  match ((s.program index).compiler.compile source).1 with
  | .error _ => later.device = s.device ∧ later.handle? = s.handle?
  | .ok () => ∃ program front count body, s.Numbered index program front count ∧
      (∀ c ∈ body, c.isUpload = true) ∧
      later.trace = s.trace ++
        (front ++ .bind program :: .beginProgram :: (body ++ [.endProgram])) ∧
      later.device.created = count ∧
      later.handle? = fun i => if i = index ∧ i < s.programs.size then some program else s.handle? i

theorem exists_numbered (s : Session) (index : Nat) :
    ∃ front count, s.Numbered index ((s.program index).ensureHandle s.device).1 front count ∧
      ((s.program index).ensureHandle s.device).2.calls.toList = s.trace ++ front ∧
      ((s.program index).ensureHandle s.device).2.created = count := by
  cases held : s.handle? index with
  | some program =>
    have same : (s.program index).ensureHandle s.device = (program, s.device) := by
      unfold Program.ensureHandle
      rw [show (s.program index).handle? = some program from held]
    rw [same]
    exact ⟨[], _, .held held, by simp [trace], rfl⟩
  | none =>
    have new : (s.program index).ensureHandle s.device = s.device.create := by
      unfold Program.ensureHandle
      rw [show (s.program index).handle? = none from held]
    rw [new]
    exact ⟨_, _, .new held, by simp [trace, Recorder.create, Recorder.record], rfl⟩

theorem run_load (s : Session) (index : Nat) (source : String) :
    (s.run (.load index source)).2 =
      { programs := s.programs.setIfInBounds index ((s.program index).load s.device source).2.1
        device := ((s.program index).load s.device source).2.2 } := rfl

theorem loadsWhole (s : Session) (index : Nat) (source : String) : s.LoadsWhole index source := by
  unfold LoadsWhole
  rw [run_load]
  dsimp only
  cases verdict : ((s.program index).compiler.compile source).1 with
  | error fault =>
    obtain ⟨handle, device⟩ := Program.load_refused verdict s.device
    exact ⟨device, s.handle?_store_same handle _⟩
  | ok value =>
    obtain ⟨handle, body, uploads, added⟩ := Program.load_accepted verdict s.device
    obtain ⟨front, count, numbered, given, created⟩ := s.exists_numbered index
    refine ⟨_, front, count, body, numbered, uploads, ?_, ?_, ?_⟩
    · rw [← List.append_assoc, ← given]
      exact added.calls
    · rw [← created]
      exact added.created
    · funext i
      rw [handle?_store, handle]

theorem Sound.load {s : Session} (sound : s.Sound) (index : Nat) (source : String) :
    (s.run (.load index source)).2.Sound := by
  have whole := s.loadsWhole index source
  unfold LoadsWhole at whole
  dsimp only at whole
  split at whole
  · obtain ⟨device, same⟩ := whole
    have nothing : s.device.Adds [] (s.run (.load index source)).2.device := by
      rw [device]
      exact .refl _
    exact sound.still nothing same (by simpa using sound.protocol) (by simp)
  · obtain ⟨program, front, count, body, numbered, uploads, trace, created, handles⟩ := whole
    have kept (h : Nat) :
        .destroy h ∉ .bind program :: .beginProgram :: (body ++ [.endProgram]) := by
      intro destroyed
      have inside : .destroy h ∈ body := by simpa using destroyed
      cases uploads _ inside
    cases numbered with
    | held held =>
      rw [List.nil_append] at trace
      have same : (s.run (.load index source)).2.handle? = s.handle? := by
        rw [handles]
        funext i
        split
        next own => rw [own.1, held]
        · rfl
      have protocol := sound.protocol.load (sound.owned.living index program held) uploads
      exact sound.still ⟨trace, created⟩ same protocol kept
    | new none =>
      have living := sound.protocol.living_create
      have protocol := sound.protocol.create.load living uploads
      rw [← List.append_assoc] at trace
      constructor
      · rw [trace, created]
        exact protocol
      · rw [trace, handles]
        apply Owned.append _ kept
        -- the number is larger than all that have been given
        have fresh (i : Nat) : s.handle? i ≠ some (s.device.created + 1) := by
          intro has
          have given := sound.protocol.le_of_living (sound.owned.living i _ has)
          omega
        apply (sound.owned.append (by simp)).assign living fresh index
        · by_cases inside : index < s.programs.size
          · exact .inr (by simp [inside])
          · exact .inl (by simp [inside])
        · intro i other
          simp [other]

/-! ### Other commands -/

/-- What a command other than a load can make of a session, with the calls that it takes. -/
inductive Step (s later : Session) : List Call → Prop
  | free {calls : List Call} (free : ∀ c ∈ calls, c.isFree = true)
      (same : later.handle? = s.handle?) : Step s later calls
  | bind {index program : Nat} (held : s.handle? index = some program)
      (same : later.handle? = s.handle?) : Step s later [.bind program]
  | destroy {index program : Nat} (held : s.handle? index = some program)
      (own : later.handle? index = none)
      (others : ∀ i, i ≠ index → later.handle? i = s.handle? i) :
      Step s later [.destroy program]

theorem Sound.step {s later : Session} (sound : s.Sound) {calls : List Call}
    (added : s.device.Adds calls later.device) (step : s.Step later calls) : later.Sound := by
  cases step with
  | free free same =>
    apply sound.still added same (sound.protocol.freely free)
    intro h member
    cases free _ member
  | bind held same =>
    exact sound.still added same (sound.protocol.bind (sound.owned.living _ _ held)) (by simp)
  | destroy held own others =>
    have trace : later.trace = s.trace ++ [.destroy _] := added.calls
    constructor
    · rw [trace, added.created]
      exact sound.protocol.destroy (sound.owned.living _ _ held)
    · rw [trace]
      exact sound.owned.release held own others

theorem Step.isBracket {s later : Session} {calls : List Call} (step : s.Step later calls) :
    ∀ c ∈ calls, c.isBracket = false := by
  cases step with
  | free free same => exact fun c member => (Call.other_of_isFree (free c member)).2
  | bind held same => simp [Call.isBracket]
  | destroy held own others => simp [Call.isBracket]

/-- A change of the device that is no call is no step either. -/
theorem step_nothing {s later : Session} (calls : later.device.calls = s.device.calls)
    (created : later.device.created = s.device.created) (same : later.handle? = s.handle?) :
    ∃ calls, s.device.Adds calls later.device ∧ s.Step later calls :=
  ⟨[], ⟨by simp [calls], created⟩, .free (by simp) same⟩

theorem step_bind (s : Session) (index : Nat) :
    ∃ calls, s.device.Adds calls (s.run (.bind index)).2.device ∧
      s.Step (s.run (.bind index)).2 calls := by
  have run : (s.run (.bind index)).2 =
      { s with device := ((s.program index).bind s.device).2 } := rfl
  rw [run]
  unfold Program.bind
  split
  next => exact step_nothing rfl rfl rfl
  next program held => exact ⟨_, s.device.adds_record _, .bind held rfl⟩

theorem step_bindParameters (s : Session) (index : Nat) (values : List Quad) :
    ∃ calls, s.device.Adds calls (s.run (.bindParameters index values)).2.device ∧
      s.Step (s.run (.bindParameters index values)).2 calls := by
  have run : (s.run (.bindParameters index values)).2 =
      { s with device := ((s.program index).bindParameters s.device values).2 } := rfl
  rw [run]
  unfold Program.bindParameters
  split
  · exact step_nothing rfl rfl rfl
  · refine ⟨_, s.device.adds_foldl_record _, .free (fun c member => ?_) rfl⟩
    obtain ⟨pair, -, rfl⟩ := List.mem_map.mp member
    rfl

theorem step_unload (s : Session) (index : Nat) :
    ∃ calls, s.device.Adds calls (s.run (.unload index)).2.device ∧
      s.Step (s.run (.unload index)).2 calls := by
  have run : (s.run (.unload index)).2 =
      { programs := s.programs.setIfInBounds index ((s.program index).unload s.device).1
        device := ((s.program index).unload s.device).2 } := rfl
  rw [run]
  unfold Program.unload
  split
  next => exact step_nothing rfl rfl (s.handle?_store_same rfl _)
  next program held =>
    have inside := lt_size_of_handle? held
    refine ⟨_, s.device.adds_record _, .destroy held ?_ ?_⟩
    · rw [handle?_store, if_pos ⟨rfl, inside⟩]
    · intro i other
      rw [handle?_store, if_neg (fun same => other same.1)]

end Session

def Command.isLoad : Command → Bool
  | load _ _ => true
  | _ => false

namespace Session

theorem exists_step (s : Session) {command : Command} (plain : command.isPlain = true)
    (other : command.isLoad = false) :
    ∃ calls, s.device.Adds calls (s.run command).2.device ∧ s.Step (s.run command).2 calls := by
  cases command with
  | load index source => cases other
  | clone index | clearCalls => cases plain
  | bind index => exact s.step_bind index
  | bindParameters index values => exact s.step_bindParameters index values
  | unload index => exact s.step_unload index
  | unbind index => exact ⟨_, s.device.adds_record _, .free (by simp [Call.isFree]) rfl⟩
  | «show» index | failAt call? | poll => exact step_nothing rfl rfl rfl

/-- One command keeps to the protocol. -/
theorem Sound.run {s : Session} (sound : s.Sound) {command : Command}
    (plain : command.isPlain = true) : (s.run command).2.Sound := by
  cases other : command.isLoad with
  | true =>
    cases command with
    | load index source => exact sound.load index source
    | _ => cases other
  | false =>
    obtain ⟨calls, added, step⟩ := s.exists_step plain other
    exact sound.step added step

/-- The session after one command after the other. -/
def runAll (s : Session) (commands : List Command) : Session :=
  commands.foldl (fun s command => (s.run command).2) s

theorem Sound.runAll {s : Session} (sound : s.Sound) {commands : List Command}
    (plain : ∀ c ∈ commands, c.isPlain = true) : (s.runAll commands).Sound := by
  induction commands generalizing s with
  | nil => exact sound
  | cons command rest ih =>
    have next := sound.run (plain command (by simp))
    exact ih next fun c member => plain c (by simp [member])

/-- Whatever programs that share a device do, one after the other, and whenever the device
reports an error: the trace of calls is in order, every program has its own number as long as it
has one, a load is a whole one or does not happen at all, and nothing else begins or ends a
program. -/
theorem runAll_disciplined (count : Nat) (failAt? : Option Nat) (commands : List Command)
    (plain : ∀ c ∈ commands, c.isPlain = true) :
    let s := (start count failAt?).runAll commands
    Disciplined s.trace ∧ Owned s.trace s.handle? ∧
      (∀ index source, s.LoadsWhole index source) ∧
      ∀ command, command.isPlain = true → command.isLoad = false →
        ∃ calls, (s.run command).2.trace = s.trace ++ calls ∧ ∀ c ∈ calls, c.isBracket = false := by
  intro s
  have sound : s.Sound := (sound_start count failAt?).runAll plain
  refine ⟨sound.protocol.disciplined, sound.owned, s.loadsWhole, fun command plain other => ?_⟩
  obtain ⟨calls, added, step⟩ := s.exists_step plain other
  exact ⟨calls, added.calls, step.isBracket⟩

/-- Two programs take turns. An upload is cut short by an error, a source does not compile, and
a program is unloaded twice and loaded again. -/
def takingTurns : List Command :=
  [.load 0 "ps.1.4\nmov r0, c0", .bind 1, .load 1 "ps.1.4\nmov r1, v0", .load 0 "ps.1.4\nmov",
   .failAt (some 11), .load 0 "ps.1.4\ntexld r0, t0", .unbind 1, .unload 0, .unload 0, .poll,
   .load 0 "ps.1.4\nmov r0, v1", .bindParameters 1 [⟨⟨0⟩, ⟨0⟩, ⟨0⟩, ⟨0⟩⟩], .unload 1]

theorem runAll_disciplined_takingTurns :
    let s := (start 2 (some 3)).runAll takingTurns
    (∀ c ∈ takingTurns, c.isPlain = true) ∧
      s.trace.filterMap Call.created? = [1, 2, 3] ∧ s.handle? 0 = some 3 ∧
      Disciplined s.trace ∧ Owned s.trace s.handle? ∧
      ∀ index source, s.LoadsWhole index source := by
  have plain : ∀ c ∈ takingTurns, c.isPlain = true := by decide
  have numbers : ((start 2 (some 3)).runAll takingTurns).trace.filterMap Call.created? =
      [1, 2, 3] ∧ ((start 2 (some 3)).runAll takingTurns).handle? 0 = some 3 := by
    decide +kernel
  have all := runAll_disciplined 2 (some 3) takingTurns plain
  generalize (start 2 (some 3)).runAll takingTurns = s at numbers all ⊢
  exact ⟨plain, numbers.1, numbers.2, all.1, all.2.1, all.2.2.1⟩

end Session
end PixelAsm
