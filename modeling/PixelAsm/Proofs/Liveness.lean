import PixelAsm.Proofs.Compilation
import PixelAsm.Proofs.Routing

/-!
# Liveness across the passes

Whatever a compiled program reads in the arithmetic stage of the second pass has been put
there: by a texture instruction of the second pass, by earlier arithmetic of it, or, in a
program that runs as a single pass, by a texture instruction of the first one.
-/
namespace PixelAsm

open Syntax

/-- An instruction of a stage stands somewhere in the log, and what is in front of it there
is in front of it in its queue. -/
theorem instructionsOn_split {log : List Issue} {stage : Stage} {earlier later : List Instruction}
    {i : Instruction} (queue : instructionsOn log stage = earlier ++ i :: later) :
    ∃ before issue behind, log = before ++ issue :: behind ∧ issue.stage = stage ∧
      issue.instruction = i ∧ instructionsOn before stage = earlier := by
  unfold instructionsOn at queue ⊢
  obtain ⟨front, back, filtered, rfl, last⟩ := List.map_eq_append_iff.mp queue
  obtain ⟨issue, rest, rfl, rfl, rfl⟩ := List.map_eq_cons_iff.mp last
  obtain ⟨before, others, rfl, rfl, here⟩ := List.filter_eq_append_iff.mp filtered
  -- between two instructions of the stage only other stages occur
  obtain ⟨gap, behind, rfl, none, own, rfl⟩ := List.filter_eq_cons_iff.mp here
  have skipped : gap.filter (·.stage == stage) = [] := List.filter_eq_nil_iff.mpr none
  refine ⟨before ++ gap, issue, behind, by simp, by simpa using own, rfl, ?_⟩
  rw [List.filter_append, skipped, List.append_nil]

theorem mem_instructionsOn {log : List Issue} {issue : Issue} (member : issue ∈ log) :
    issue.instruction ∈ instructionsOn log issue.stage :=
  List.mem_map_of_mem (List.mem_filter.mpr ⟨member, by simp⟩)

/-- A write that the log shows was made by one of the two stages of its pass. -/
theorem Log.exists_of_writes {log : List Issue} {pass : Nat} {register : UInt32}
    (written : Log.writes log pass register = true) :
    ∃ issue ∈ log, issue.stage.pass = pass ∧ issue.instruction.destination = register := by
  simpa [Log.writes] using written

/-- If the first pass shows no arithmetic up to some arithmetic of the second pass, then it
has none at all. -/
theorem Log.alu1_complete {log front mixed before behind : List Issue} {issue : Issue}
    (divided : log = front ++ mixed) (early : ∀ i ∈ front, i.stage ≠ .alu2)
    (noAlu : instructionsOn mixed .alu1 = []) (split : log = before ++ issue :: behind)
    (late : issue.stage = .alu2) (single : instructionsOn before .alu1 = []) :
    instructionsOn log .alu1 = [] := by
  have inFront : ∃ more, before = front ++ more := by
    rcases List.append_eq_append_iff.mp (divided.symm.trans split) with
      ⟨more, rfl, -⟩ | ⟨overlap, rfl, rest⟩
    · exact ⟨more, rfl⟩
    · -- the instruction cannot stand in the early part
      cases overlap with
      | nil => exact ⟨[], by simp⟩
      | cons other more =>
        obtain ⟨rfl, -⟩ := List.cons.inj rest
        exact absurd late (early _ (by simp))
  obtain ⟨more, rfl⟩ := inFront
  rw [instructionsOn_append] at single
  rw [divided, instructionsOn_append, noAlu, (List.append_eq_nil_iff.mp single).1]
  rfl

/-- Each temp register that arithmetic of the second pass reads has a writer that reaches it:
a texture instruction of the second pass, earlier arithmetic of the second pass, or a
texture instruction of the first pass if that pass has no arithmetic. -/
def SecondPassSupplied (queues : Stage → List Instruction) : Prop :=
  ∀ earlier i later, queues .alu2 = earlier ++ i :: later →
    ∀ o ∈ i.operands, Code.isTemp o.register = true →
      (∃ t ∈ queues .texture2, t.destination = o.register) ∨
      (∃ e ∈ earlier, e.destination = o.register) ∨
      (queues .alu1 = [] ∧ ∃ t ∈ queues .texture1, t.destination = o.register)

theorem Log.Supplied.queues {log front mixed : List Issue} (supplied : Log.Supplied log)
    (divided : log = front ++ mixed) (early : ∀ i ∈ front, i.stage ≠ .alu2)
    (noAlu : instructionsOn mixed .alu1 = []) : SecondPassSupplied (instructionsOn log) := by
  intro earlier i later queue o member temp
  obtain ⟨before, issue, behind, split, late, rfl, rfl⟩ := instructionsOn_split queue
  have inLog {e : Issue} (inside : e ∈ before) : e ∈ log := by
    rw [split]
    exact List.mem_append_left _ inside
  -- a write of the second pass is a texture's or earlier arithmetic's
  rcases supplied before issue behind split late o member temp with second | ⟨single, first⟩
  · obtain ⟨e, inside, pass, same⟩ := Log.exists_of_writes second
    cases stage : e.stage with
    | texture1 | alu1 => simp [stage, Stage.pass] at pass
    | texture2 => exact .inl ⟨_, stage ▸ mem_instructionsOn (inLog inside), same⟩
    | alu2 => exact .inr (.inl ⟨_, stage ▸ mem_instructionsOn inside, same⟩)
  · obtain ⟨e, inside, pass, same⟩ := Log.exists_of_writes first
    cases stage : e.stage with
    | texture2 | alu2 => simp [stage, Stage.pass] at pass
    | alu1 =>
      have impossible := mem_instructionsOn inside
      rw [stage, single] at impossible
      cases impossible
    | texture1 =>
      exact .inr (.inr ⟨Log.alu1_complete divided early noAlu split late single, _,
        stage ▸ mem_instructionsOn (inLog inside), same⟩)

namespace Dialect

/-- The queues of a compiled source, as the tokens have left them, supply the second pass.
What the compiler hands out are these queues, but for the destination that the dialects
before ps.1.4 change at the end. -/
theorem compile_supplies_second_pass (c : Compiler) (dialect : c.grammar = grammar)
    (source : String) (accepted : (c.compile source).1 = .ok ()) :
    ∃ a queues, c.scanned? source = some a ∧
      (c.compile source).2.schedule = (if a.legacy then a.retarget else a).schedule ∧
      a.schedule.Decodes queues ∧ SecondPassSupplied queues := by
  obtain ⟨a, scanned, ⟨p, represents⟩, shows⟩ := compile_shows_log dialect accepted
  obtain ⟨b, same, final⟩ := Compiler.compile_scanned accepted
  obtain rfl : a = b := Option.some.inj (scanned.symm.trans same)
  obtain ⟨located, log, issues, recorded, shown, -⟩ := shows p represents
  obtain ⟨-, front, mixed, divided, early, noAlu⟩ :=
    Log.log_of_program represents.dialect issues recorded
  have supplied := Log.supplied_nil.recordAll recorded
  exact ⟨a, instructionsOn log, scanned, final, shown.decodes,
    supplied.queues divided early noAlu⟩

/-- The second pass of this program takes `r0` and `r1` over from the first one. -/
theorem compile_supplies_routed_program :
    (Compiler.standard.compile twoPassText).1 = .ok () ∧
      ∃ a queues, Compiler.standard.scanned? twoPassText = some a ∧
        (Compiler.standard.compile twoPassText).2.schedule =
          (if a.legacy then a.retarget else a).schedule ∧
        a.schedule.Decodes queues ∧ SecondPassSupplied queues :=
  ⟨compile_twoPassText.1,
    compile_supplies_second_pass _ Compiler.grammar_standard _ compile_twoPassText.1⟩

end Dialect
end PixelAsm
