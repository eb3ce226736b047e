import PixelAsm.Compiler
import PixelAsm.Proofs.Retargeting
import PixelAsm.Proofs.Uploading

/-!
# Queues that can be uploaded in full

Whatever grammar a compiler works with and whatever it was given, its queues can be read to
their ends, and every instruction in them suits its stage and the constants of the latest
reading. So an upload never gives up a queue half way.
-/
namespace PixelAsm

/-! ### Queues and stages -/

/-- Every queue holds instructions that suit its stage. -/
def Schedule.Suited (s : Schedule) (pool : Nat) : Prop :=
  ∀ stage, ∃ is, (s.get stage).Holds is ∧ ∀ i ∈ is, i.Suits pool stage

theorem Schedule.suited_empty (pool : Nat) : ({} : Schedule).Suited pool := by
  intro stage
  refine ⟨[], ?_, by simp⟩
  cases stage <;> exact Queue.holds_empty

theorem Schedule.Suited.append {s : Schedule} {pool : Nat} (suited : s.Suited pool)
    {stage : Stage} {i : Instruction} {record : List UInt32} (recorded : i.record? = some record)
    (suits : i.Suits pool stage) : (s.append record stage).Suited pool := by
  intro other
  obtain ⟨is, held, each⟩ := suited other
  rw [Schedule.get_append]
  by_cases same : other = stage
  · subst other
    refine ⟨is ++ [i], by simpa using held.append recorded, fun j member => ?_⟩
    rcases List.mem_append.mp member with old | new
    · exact each j old
    · rw [List.mem_singleton.mp new]
      exact suits
  · exact ⟨is, by simpa [same] using held, each⟩

namespace Assembler

theorem suited_invariant (pool : Nat) :
    QueueInvariant pool fun a => a.poolSize = pool ∧ a.schedule.Suited pool where
  beside := And.left
  same := by
    rintro a b ⟨size, suited⟩ same
    exact ⟨same.poolSize.trans size, same.schedule ▸ suited⟩
  routed := by
    rintro a register ⟨size, suited⟩
    refine ⟨(a.poolSize_route register).trans size, ?_⟩
    -- a register is handed on by a texture instruction
    have suits : (Instruction.passTexCoord register register Code.swizzleStr).Suits pool
        .texture2 := rfl
    have handedOn := suited.append rfl suits
    simpa [route, Instruction.record?, Instruction.tag?, appendRecord] using handedOn
  queued := by
    rintro a stage i record ⟨size, suited⟩ recorded suits
    refine ⟨(a.poolSize_enqueue stage i record).trans size, ?_⟩
    have unchanged : (a.noteRecord stage).schedule = a.schedule := by
      unfold noteRecord
      split <;> rfl
    simpa [enqueue, appendRecord, unchanged] using suited.append recorded suits

end Assembler

/-! ### The output register -/

theorem Instruction.Suits.redirect {pool : Nat} {stage : Stage} {i : Instruction}
    (suits : i.Suits pool stage) (register : UInt32) : (i.redirect register).Suits pool stage := by
  cases i <;> exact suits

theorem suits_deliver {pool : Nat} {stage : Stage} {is : List Instruction}
    (each : ∀ i ∈ is, i.Suits pool stage) : ∀ i ∈ deliver is, i.Suits pool stage := by
  intro i member
  obtain ⟨j, inside, rfl | rfl⟩ := mem_deliver member
  · exact each i inside
  · exact (each j inside).redirect _

namespace Assembler

/-- Giving the last instructions another destination keeps every instruction where it suits. -/
theorem suited_retarget {a : Assembler} {pool : Nat} (suited : a.schedule.Suited pool)
    {is : List Instruction} (tracked : a.Tracks is) : a.retarget.schedule.Suited pool := by
  intro stage
  by_cases last : stage = .alu2
  · subst stage
    obtain ⟨js, held, each⟩ := suited .alu2
    obtain rfl : is = js := tracked.held.instructions.symm.trans held.instructions
    exact ⟨deliver is, tracked.retarget, suits_deliver each⟩
  · rw [a.get_retarget last]
    exact suited stage

/-- The queues of a reading suit its constants, as far as assembling went. -/
theorem assemble_suited (g : Grammar) (r : Reading) (before : Assembler) :
    match assemble g r before with
    | .ok () a => a.schedule.Suited r.constants.length
    | .error _ a => a.schedule.Suited r.constants.length := by
  have kept := Assembly.scan_keeps (suited_invariant r.constants.length) g.code templateDepth
    r.tokens (start r) ⟨rfl, Schedule.suited_empty _⟩
  rw [assemble_apply]
  cases scanned : Assembly.scan g.code templateDepth r.tokens (start r) with
  | error fault a =>
    rw [scanned] at kept
    exact kept.2
  | ok value a =>
    rw [scanned] at kept
    obtain ⟨is, tracked⟩ := scan_tracks scanned
    cases legacy : a.legacy with
    | false => simpa [legacy] using kept.2
    | true => simpa [legacy] using suited_retarget kept.2 tracked

end Assembler

/-! ### Compilers -/

namespace Compiler

/-- The queues suit the constants that the compiler holds. -/
def Suited (c : Compiler) : Prop := c.schedule.Suited c.reading.constants.length

/-- A compile leaves queues and constants that belong together, whether it succeeds or not. -/
theorem suited_compile {c : Compiler} {g : Grammar} (grammar : c.grammar = .ok g)
    (source : String) : (c.compile source).2.Suited := by
  rw [compile_apply grammar]
  cases read : g.read source c.reading with
  | mk verdict reading =>
    cases verdict with
    -- constants may be left from an earlier source, but then the queues are empty
    | error fault => exact Schedule.suited_empty _
    | ok value =>
      have assembled := Assembler.assemble_suited g reading {}
      dsimp only
      split
      next a passed =>
        rw [passed] at assembled
        exact assembled
      next fault a failed =>
        rw [failed] at assembled
        exact assembled

/-- Without a grammar a compiler keeps what it has. -/
theorem Suited.compile {c : Compiler} (suited : c.Suited) (source : String) :
    (c.compile source).2.Suited := by
  cases grammar : c.grammar with
  | error fault =>
    unfold Compiler.compile
    rw [grammar]
    exact suited
  | ok g => exact suited_compile grammar source

/-- The compiler after one source after the other. -/
def compileAll (c : Compiler) (sources : List String) : Compiler :=
  sources.foldl (fun c source => (c.compile source).2) c

theorem Suited.compileAll {c : Compiler} (suited : c.Suited) (sources : List String) :
    (c.compileAll sources).Suited := by
  induction sources generalizing c with
  | nil => exact suited
  | cons source rest ih => exact ih (suited.compile source)

/-- All that the compiler holds for the target can be had from it: the queues read back as
these instructions, what they hold suits its stage and the constants, and an upload to a
device that reports no error asks for one call for each instruction, stage after stage. -/
structure UploadsInFull (c : Compiler) (instructions : Stage → List Instruction) : Prop where
  decodes : c.schedule.Decodes instructions
  arity : ∀ stage, ∀ i ∈ instructions stage, i.HasArity
  suits : ∀ stage, ∀ i ∈ instructions stage, i.Suits c.reading.constants.length stage
  uploads : ∀ (σ : Type) (device : Device σ) (d : σ), device.Silent d →
    ∃ calls : Stage → List Call,
      (∀ stage, (instructions stage).Forall₂ (Instruction.Carried c.reading.constants)
        (calls stage)) ∧
      device.upload d c.schedule c.reading.constants =
        (.ok (), device.after d (Stage.all.flatMap calls))

/-- Instructions that suit their stages have calls that carry them. -/
theorem exists_calls {constants : List Binary32} {stage : Stage} {is : List Instruction}
    (suits : ∀ i ∈ is, i.Suits constants.length stage) :
    ∃ calls, is.Forall₂ (Instruction.Carried constants) calls := by
  apply Instruction.exists_calls
  intro i member
  apply i.exists_carried
  rintro register index rfl
  exact (suits _ member).2

theorem Suited.uploadsInFull {c : Compiler} (suited : c.Suited) :
    ∃ instructions, c.UploadsInFull instructions := by
  choose instructions held suits using suited
  have arity (stage : Stage) : ∀ i ∈ instructions stage, i.HasArity :=
    fun i member => i.isSome_tag?_iff.mp ((held stage).1 i member)
  have decodes : c.schedule.Decodes instructions := fun stage => (held stage).records
  refine ⟨instructions, decodes, arity, suits, fun σ device d silent => ?_⟩
  choose calls carried using fun stage => exists_calls (suits stage)
  exact ⟨calls, carried, Device.upload_silent decodes arity carried silent⟩

/-- Whatever the grammar is and however many sources were compiled or refused. -/
theorem compileAll_uploads_in_full (grammar : Except GrammarError Grammar)
    (sources : List String) :
    ∃ instructions, (({ grammar } : Compiler).compileAll sources).UploadsInFull instructions := by
  have fresh : ({ grammar } : Compiler).Suited := Schedule.suited_empty _
  exact (fresh.compileAll sources).uploadsInFull

end Compiler
end PixelAsm
