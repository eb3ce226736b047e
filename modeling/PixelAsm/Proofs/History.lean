import PixelAsm.Proofs.Acceptance
import PixelAsm.Proofs.Compilation
import PixelAsm.Proofs.Lifecycle
import PixelAsm.Proofs.Loadable

/-!
# Compilers and programs without a memory

A compiler keeps its assembler from source to source, in whatever state a refused source has
left it, and resets it before it is used again. What the compiler makes of a source therefore does
not depend on what it was given before: only a source that is too large to be read leaves the
earlier reading in place, and then the queues are empty. So a program that was loaded and unloaded any number of times asks the device for what a new
one would ask for, except that it needs no new number while it holds one.
-/
namespace PixelAsm

/-! ### Compilers -/

theorem Assembler.assemble_forgets (g : Grammar) (r : Reading) (left : Assembler) :
    assemble g r left = assemble g r {} := by
  rw [assemble_apply, assemble_apply]

theorem Grammar.read_of_ends {g : Grammar} {source : String}
    (small : (utf8 source).length ≤ sourceLimit) {matched : Bool} {p : Progress}
    (ends : g.matchSource (utf8 source) = some (matched, p)) (previous : Reading) :
    g.read source previous = (verdict matched p, p.reading) := by
  simp only [read, if_neg (Nat.not_lt.mpr small), ends]

theorem Grammar.read_of_large (g : Grammar) {source : String}
    (large : sourceLimit < (utf8 source).length) (previous : Reading) :
    g.read source previous =
      (.error (.sourceTooLarge (utf8 source).length sourceLimit), previous) := by
  simp only [read, if_pos large]

namespace Compiler

theorem grammar_compile (c : Compiler) (source : String) :
    (c.compile source).2.grammar = c.grammar := by
  unfold compile
  split
  · rfl
  · split
    · rfl
    · split <;> rfl

theorem grammar_compileAll (c : Compiler) (sources : List String) :
    (c.compileAll sources).grammar = c.grammar := by
  induction sources generalizing c with
  | nil => rfl
  | cons source rest ih => exact (ih _).trans (c.grammar_compile source)

/-- Compilers with one grammar agree on a source that can be read to an end. -/
theorem compile_eq_of_grammar {c d : Compiler} {g : Grammar} (first : c.grammar = .ok g)
    (second : d.grammar = .ok g) {source : String}
    (small : (utf8 source).length ≤ sourceLimit) {matched : Bool} {p : Progress}
    (ends : g.matchSource (utf8 source) = some (matched, p)) :
    c.compile source = d.compile source := by
  rw [compile_apply first, compile_apply second, Grammar.read_of_ends small ends,
    Grammar.read_of_ends small ends]

theorem compile_of_large {c : Compiler} {g : Grammar} (grammar : c.grammar = .ok g)
    {source : String} (large : sourceLimit < (utf8 source).length) :
    c.compile source =
      (.error (.sourceTooLarge (utf8 source).length sourceLimit),
        { grammar := .ok g, reading := c.reading }) := by
  rw [compile_apply grammar, g.read_of_large large]

/-- The calls that hand the queues over are the same on all devices that report no error. -/
theorem Suited.exists_upload {c : Compiler} (suited : c.Suited) :
    ∃ body, ∀ d : Recorder, d.Unarmed →
      d.upload c.schedule c.reading.constants = (.ok (), Recorder.device.after d body) := by
  obtain ⟨instructions, full⟩ := suited.uploadsInFull
  -- the calls depend on the instructions alone, so they are chosen before the device
  choose calls carried using fun stage => exists_calls (full.suits stage)
  refine ⟨Stage.all.flatMap calls, fun d unarmed => ?_⟩
  exact Device.upload_silent full.decodes full.arity carried unarmed.silent

end Compiler

/-! ### Programs -/

theorem Recorder.Unarmed.record {d : Recorder} (unarmed : d.Unarmed) (call : Call) :
    (d.record call).Unarmed := by
  obtain ⟨settled, passed⟩ := unarmed
  have notHere : d.failAt? ≠ some d.calls.size :=
    fun here => Nat.lt_irrefl _ (passed _ here)
  constructor
  · simp [Recorder.record, settled, notHere]
  · intro n marked
    have earlier := passed n marked
    simp only [Recorder.record, Array.size_push]
    omega

namespace Program

/-- A load of these calls, under the number that the program has or is given. -/
def loadCalls (p : Program) (d : Recorder) (body : List Call) : List Call :=
  match p.handle? with
  | some handle => .bind handle :: .beginProgram :: (body ++ [.endProgram])
  | none =>
    .create (d.created + 1) :: .bind (d.created + 1) :: .beginProgram :: (body ++ [.endProgram])

theorem loadCalls_held {p : Program} {handle : Nat} (held : p.handle? = some handle)
    (d : Recorder) (body : List Call) :
    p.loadCalls d body = .bind handle :: .beginProgram :: (body ++ [.endProgram]) := by
  simp [loadCalls, held]

theorem loadCalls_new {p : Program} (new : p.handle? = none) (d : Recorder) (body : List Call) :
    p.loadCalls d body =
      .create (d.created + 1) :: .bind (d.created + 1) :: .beginProgram ::
        (body ++ [.endProgram]) := by
  simp [loadCalls, new]

theorem unarmed_ensureHandle (p : Program) {d : Recorder} (unarmed : d.Unarmed) :
    (p.ensureHandle d).2.Unarmed := by
  unfold ensureHandle
  split
  · exact unarmed
  · exact Recorder.Unarmed.record (d := { d with created := d.created + 1 }) unarmed _

/-- A program that compiles asks for its calls, if the device reports no error. -/
theorem load_unarmed {p : Program} {d : Recorder} (unarmed : d.Unarmed) {source : String}
    {c : Compiler} (compiled : p.compiler.compile source = (.ok (), c)) {body : List Call}
    (uploads : ∀ d : Recorder, d.Unarmed →
      d.upload c.schedule c.reading.constants = (.ok (), Recorder.device.after d body)) :
    (p.load d source).1 = .ok () ∧
      (p.load d source).2.2.calls.toList = d.calls.toList ++ p.loadCalls d body := by
  have begun := ((p.unarmed_ensureHandle unarmed).record (.bind (p.ensureHandle d).1)).record
    .beginProgram
  unfold load
  simp only [compiled, uploads _ begun]
  refine ⟨rfl, ?_⟩
  simp only [Recorder.record, Array.toList_push, Recorder.calls_after]
  cases held : p.handle? with
  | some handle => simp [ensureHandle, loadCalls_held, held]
  | none => simp [ensureHandle, loadCalls_new, held, Recorder.create, Recorder.record]

theorem load_of_error {p : Program} {source : String} {fault : CompileError} {c : Compiler}
    (compiled : p.compiler.compile source = (.error fault, c)) (d : Recorder) :
    (p.load d source).1 = .error (.compile fault) ∧ (p.load d source).2.2 = d := by
  simp [load, compiled]

theorem compiler_load (p : Program) (d : Recorder) (source : String) :
    (p.load d source).2.1.compiler = (p.compiler.compile source).2 := by
  unfold load
  cases compiled : p.compiler.compile source with
  | mk verdict c => cases verdict <;> rfl

theorem compiler_unload (p : Program) (d : Recorder) :
    (p.unload d).1.compiler = p.compiler := by
  unfold unload
  split <;> rfl

/-- Programs with the grammar of the shader dialects ask two devices that report no error for the
same, under their own numbers. -/
theorem load_same {p q : Program} (first : p.compiler.grammar = Dialect.grammar)
    (second : q.compiler.grammar = Dialect.grammar) {d e : Recorder} (quiet : d.Unarmed)
    (quiet' : e.Unarmed) (source : String) :
    (p.load d source).1 = (q.load e source).1 ∧
      ((p.load d source).2.2 = d ∧ (q.load e source).2.2 = e ∨
        ∃ body, (p.load d source).2.2.calls.toList = d.calls.toList ++ p.loadCalls d body ∧
          (q.load e source).2.2.calls.toList = e.calls.toList ++ q.loadCalls e body) := by
  rw [Dialect.grammar_eq_linked] at first second
  -- the verdicts agree, and so do the compilers behind them if it is good
  have refused {fault : CompileError} {c c' : Compiler}
      (one : p.compiler.compile source = (.error fault, c))
      (other : q.compiler.compile source = (.error fault, c')) :
      (p.load d source).1 = (q.load e source).1 ∧
        (p.load d source).2.2 = d ∧ (q.load e source).2.2 = e := by
    obtain ⟨result, kept⟩ := load_of_error one d
    obtain ⟨result', kept'⟩ := load_of_error other e
    exact ⟨result.trans result'.symm, kept, kept'⟩
  rcases Nat.lt_or_ge sourceLimit (utf8 source).length with large | small
  · obtain ⟨result, kept⟩ := refused (Compiler.compile_of_large first large)
      (Compiler.compile_of_large second large)
    exact ⟨result, .inl kept⟩
  · obtain ⟨matched, r, ends⟩ := Dialect.matchSource_total (utf8 source)
    have same := Compiler.compile_eq_of_grammar first second small ends
    cases compiled : p.compiler.compile source with
    | mk verdict c =>
      rw [compiled] at same
      cases verdict with
      | error fault =>
        obtain ⟨result, kept⟩ := refused compiled same.symm
        exact ⟨result, .inl kept⟩
      | ok value =>
        have suited : c.Suited := by
          have suited := Compiler.suited_compile first source
          rwa [compiled] at suited
        obtain ⟨body, uploads⟩ := suited.exists_upload
        obtain ⟨result, calls⟩ := load_unarmed quiet compiled uploads
        obtain ⟨result', calls'⟩ := load_unarmed quiet' same.symm uploads
        exact ⟨result.trans result'.symm, .inr ⟨body, calls, calls'⟩⟩

end Program

/-! ### Sessions -/

namespace Session

/-- All programs of the session are for the shader dialects. -/
def Dialectal (s : Session) : Prop := ∀ index, (s.program index).compiler.grammar = Dialect.grammar

theorem dialectal_start (count : Nat) (failAt? : Option Nat) : (start count failAt?).Dialectal := by
  intro index
  rw [program_start]
  exact Compiler.grammar_standard

theorem Dialectal.store {s : Session} (dialectal : s.Dialectal) {p : Program}
    (own : p.compiler.grammar = Dialect.grammar) (index : Nat) (device : Recorder) :
    ({ programs := s.programs.setIfInBounds index p, device } : Session).Dialectal := by
  intro i
  rw [program_store]
  split
  · exact own
  · exact dialectal i

theorem Dialectal.run {s : Session} (dialectal : s.Dialectal) (command : Command) :
    (s.run command).2.Dialectal := by
  cases command with
  | load index source =>
    have own : ((s.program index).load s.device source).2.1.compiler.grammar =
        Dialect.grammar := by
      rw [Program.compiler_load, Compiler.grammar_compile]
      exact dialectal index
    exact dialectal.store own index _
  | unload index =>
    have own : ((s.program index).unload s.device).1.compiler.grammar = Dialect.grammar := by
      rw [Program.compiler_unload]
      exact dialectal index
    exact dialectal.store own index _
  | clone index =>
    intro i
    have copy : (s.run (.clone index)).2.program i =
        if i = s.programs.size then s.program index else s.program i := by
      simp only [Session.run, program, Array.getD_eq_getD_getElem?, Array.getElem?_push]
      split <;> rfl
    rw [copy]
    split
    · exact dialectal index
    · exact dialectal i
  | bind _ | unbind _ | bindParameters _ _ | «show» _ | failAt _ | clearCalls | poll =>
    exact dialectal

theorem Dialectal.runAll {s : Session} (dialectal : s.Dialectal) (commands : List Command) :
    (s.runAll commands).Dialectal := by
  induction commands generalizing s with
  | nil => exact dialectal
  | cons command rest ih => exact ih (dialectal.run command)

end Session

/-- Assembling a reading comes to the same in any state that an earlier program can have left
in the assembler. With any grammar, a compiler in any state gives the same result for a source
that can be read to an end, and is left in the same state, after any other sources as a new one,
and a source that is too large leaves the earlier reading with empty queues. A program of a
session with any past asks a device that reports no error for the calls of a new program, under
its own number. -/
theorem compile_and_load_forget_history :
    (∀ (g : Grammar) (r : Reading) (left : Assembler),
      Assembler.assemble g r left = Assembler.assemble g r {}) ∧
    (∀ (g : Grammar) (before : Compiler) (history : List String) (source : String),
      before.grammar = .ok g →
      let fresh : Compiler := { grammar := .ok g }
      let used := before.compileAll history
      ((utf8 source).length ≤ sourceLimit → g.matchSource (utf8 source) ≠ none →
        used.compile source = fresh.compile source) ∧
      (sourceLimit < (utf8 source).length →
        (used.compile source).2.reading = used.reading ∧
          ∀ stage, ((used.compile source).2.schedule.get stage).words = #[])) ∧
    ∀ (count : Nat) (failAt? : Option Nat) (past : List Command) (index : Nat)
        (source : String) (other : Recorder),
      let s := (Session.start count failAt?).runAll past
      let used := s.program index
      let fresh : Program := {}
      s.device.Unarmed → other.Unarmed →
        (used.load s.device source).1 = (fresh.load other source).1 ∧
        ((used.load s.device source).2.2 = s.device ∧ (fresh.load other source).2.2 = other ∨
          ∃ body,
            (used.load s.device source).2.2.calls.toList =
              s.device.calls.toList ++ used.loadCalls s.device body ∧
            (fresh.load other source).2.2.calls.toList =
              other.calls.toList ++ fresh.loadCalls other body) := by
  refine ⟨Assembler.assemble_forgets, ?_, ?_⟩
  · intro g before history source known fresh used
    have grammar : used.grammar = .ok g := (before.grammar_compileAll history).trans known
    constructor
    · intro small ends
      obtain ⟨⟨matched, p⟩, found⟩ := Option.ne_none_iff_exists'.mp ends
      exact Compiler.compile_eq_of_grammar grammar rfl small found
    · intro large
      rw [Compiler.compile_of_large grammar large]
      refine ⟨rfl, fun stage => ?_⟩
      cases stage <;> rfl
  · intro count failAt? past index source other s used fresh quiet quiet'
    have dialectal := (Session.dialectal_start count failAt?).runAll past
    have new : fresh.compiler.grammar = Dialect.grammar := Compiler.grammar_standard
    exact Program.load_same (dialectal index) new quiet quiet' source

/-- A source that is refused while it is read, and one that is refused while it is assembled,
behind the first row of a pair and an instruction of the second pass. -/
def refusedSources : List String :=
  ["ps.1.4\ndef c0, 1, 2, 3, 4\nmov", "ps.1.1\ntexm3x3pad t1, t0\nmov r0, t1\nmov r0, t2"]

/-- The compiler of the shader dialects behind the refused sources. -/
def halfwayCompiler : Compiler := Compiler.standard.compileAll refusedSources

/-- A source with both rows of a pair. -/
def pairedRows : String := "ps.1.1\ntexm3x3pad t1, t0\ntexm3x3pad t2, t0\nmov r0, t1"

def pairedReading : Reading := (Compiler.standard.compile pairedRows).2.reading

/-- The refused sources leave an assembler that expects the second row of a pair. Without a
reset it would take the rows of the next source for each other, even with empty queues. -/
private theorem scan_halfway :
    halfwayCompiler.assembler.secondRow = true ∧
      Assembly.scan Dialect.linked.code Assembler.templateDepth pairedReading.tokens
          ({ halfwayCompiler.assembler with schedule := {} }.prepare pairedReading) ≠
        Assembly.scan Dialect.linked.code Assembler.templateDepth pairedReading.tokens
          (.start pairedReading) := by
  -- the outcomes are told apart by the words of one queue
  let queued (outcome : EStateM.Result CompileError Assembler Unit) := EStateM.run' (do
    (fun _ => outcome : Assembly Unit)
    return (← get).schedule.alu1.words) {}
  have evaluated : halfwayCompiler.assembler.secondRow = true ∧
      queued (Assembly.scan Dialect.linked.code Assembler.templateDepth pairedReading.tokens
          ({ halfwayCompiler.assembler with schedule := {} }.prepare pairedReading)) ≠
        queued (Assembly.scan Dialect.linked.code Assembler.templateDepth pairedReading.tokens
          (.start pairedReading)) := by
    decide +kernel
  exact ⟨evaluated.1, fun same => evaluated.2 (congrArg queued same)⟩

/-- A past with refused sources, and with a program that was unloaded and has got another number
since. -/
theorem compile_and_load_forget_history_reloaded :
    let past := [Command.load 0 "ps.1.4\nmov r0, c0", .load 0 "ps.1.4\nmov", .unload 0,
      .load 0 "ps.1.4\nmov r0, v0"]
    let s := (Session.start 1 none).runAll past
    halfwayCompiler.assembler.secondRow = true ∧
      Assembly.scan Dialect.linked.code Assembler.templateDepth pairedReading.tokens
          ({ halfwayCompiler.assembler with schedule := {} }.prepare pairedReading) ≠
        Assembly.scan Dialect.linked.code Assembler.templateDepth pairedReading.tokens
          (.start pairedReading) ∧
      Assembler.assemble Dialect.linked pairedReading halfwayCompiler.assembler =
        Assembler.assemble Dialect.linked pairedReading {} ∧
      halfwayCompiler.compile pairedRows =
        ({ grammar := .ok Dialect.linked } : Compiler).compile pairedRows ∧
      (s.program 0).handle? = some 2 ∧
      ∃ body, ((s.program 0).load s.device pairedRows).2.2.calls.toList =
          s.device.calls.toList ++ .bind 2 :: .beginProgram :: (body ++ [.endProgram]) ∧
        (({} : Program).load {} pairedRows).2.2.calls.toList =
          .create 1 :: .bind 1 :: .beginProgram :: (body ++ [.endProgram]) := by
  intro past
  obtain ⟨halfway, differs⟩ := scan_halfway
  have small : (utf8 pairedRows).length ≤ sourceLimit := by decide +kernel
  have ends : Dialect.linked.matchSource (utf8 pairedRows) ≠ none := by
    obtain ⟨matched, p, found⟩ := Dialect.matchSource_total (utf8 pairedRows)
    simp [found]
  have loaded : ((Session.start 1 none).runAll past).device.errorPending = false ∧
      ((Session.start 1 none).runAll past).device.failAt? = none ∧
      (((Session.start 1 none).runAll past).program 0).handle? = some 2 ∧
      (Program.load {} {} pairedRows).2.2.calls.size ≠ 0 := by decide +kernel
  obtain ⟨assemblers, compilers, programs⟩ := compile_and_load_forget_history
  have programs := programs 1 none past 0 pairedRows {}
  generalize (Session.start 1 none).runAll past = s at loaded programs ⊢
  obtain ⟨settled, unset, held, issued⟩ := loaded
  refine ⟨halfway, differs, assemblers _ _ _,
    (compilers _ _ refusedSources pairedRows Compiler.linked_standard).1 small ends, held, ?_⟩
  obtain ⟨-, ⟨-, unchanged⟩ | ⟨body, again, first⟩⟩ :=
    programs ⟨settled, by simp [unset]⟩ ⟨rfl, by simp⟩
  · rw [unchanged] at issued
    exact absurd rfl issued
  · refine ⟨body, ?_, ?_⟩
    · rw [again, Program.loadCalls_held held]
    · rw [first, Program.loadCalls_new rfl]
      rfl

end PixelAsm
