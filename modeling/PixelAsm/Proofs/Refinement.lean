import PixelAsm.Proofs.Compilation
import PixelAsm.Proofs.Retargeting
import PixelAsm.Proofs.Routing

/-!
# The queues of a compiled program

The queues that the compiler hands out are those of a statement-by-statement translation,
with two differences that no single statement accounts for: the registers that the second
pass takes over from the first one, and the output register of the dialects before ps.1.4.
-/
namespace PixelAsm

open Syntax

namespace Syntax.Shader

/-- The queues of the program. The result of a program in a dialect before ps.1.4 is
delivered in the output register. -/
def delivered (p : Shader) (stage : Stage) : List Instruction :=
  if p.isLegacy ∧ stage = .alu2 then deliver (p.queues stage) else p.queues stage

end Syntax.Shader

/-- Behind the last token the assembler knows the last two records, whatever the grammar is. -/
theorem Compiler.tracks_of_scanned? {c : Compiler} {source : String} {a : Assembler}
    (scanned : c.scanned? source = some a) : ∃ is, a.Tracks is := by
  unfold Compiler.scanned? at scanned
  split at scanned
  · cases scanned
  · split at scanned
    · cases scanned
    · split at scanned
      next passed =>
        cases scanned
        exact Assembler.scan_tracks passed
      · cases scanned

/-- After retargeting the queues of a log read back with the result delivered. -/
theorem Assembler.Shows.records_retarget {a : Assembler} {log : List Issue} (shown : a.Shows log)
    {is : List Instruction} (tracked : a.Tracks is) (stage : Stage) :
    (a.retarget.schedule.get stage).records =
      (if stage = .alu2 then deliver (instructionsOn log stage)
        else instructionsOn log stage).map .ok := by
  split
  next last =>
    have known : instructionsOn log .alu2 = is := by
      rw [← (shown.queues .alu2).instructions]
      exact tracked.held.instructions
    rw [last, known]
    exact tracked.retarget.records
  next other =>
    rw [a.get_retarget other]
    exact shown.decodes stage

namespace Dialect

variable {c : Compiler} {source : String}

/-- Every queue reads back as the program's own. -/
theorem compile_decodes (dialect : c.grammar = grammar)
    (accepted : (c.compile source).1 = .ok ()) {p : Shader}
    (represents : Represents (c.compile source).2.reading p) :
    (c.compile source).2.schedule.Decodes p.delivered := by
  obtain ⟨a, scanned, -, shows⟩ := compile_shows_log dialect accepted
  obtain ⟨b, same, final⟩ := Compiler.compile_scanned accepted
  obtain rfl : a = b := Option.some.inj (scanned.symm.trans same)
  obtain ⟨located, log, issues, recorded, shown, legacy⟩ := shows p represents
  -- the log gives the queues behind the last token; the offsets tell what retargeting does
  obtain ⟨queues, -⟩ := Log.log_of_program represents.dialect issues recorded
  obtain ⟨is, tracked⟩ := Compiler.tracks_of_scanned? scanned
  intro stage
  rw [final, legacy, Shader.delivered, ← queues]
  cases p.isLegacy with
  | false => simpa using shown.decodes stage
  | true => simpa using shown.records_retarget tracked stage

/-- A source that compiles is the text of a program. Whatever program it is a text of, the
queues are that program's: the contributions of its statements in the order of the source,
the registers that are handed on, and the result in the output register. -/
theorem compile_refines_translation (c : Compiler) (dialect : c.grammar = grammar)
    (source : String) (accepted : (c.compile source).1 = .ok ()) :
    (∃ p, Represents (c.compile source).2.reading p) ∧
      ∀ p, Represents (c.compile source).2.reading p →
        (c.compile source).2.schedule.Decodes p.delivered := by
  obtain ⟨a, -, exists_program, -⟩ := compile_shows_log dialect accepted
  exact ⟨exists_program, fun p represents => compile_decodes dialect accepted represents⟩

theorem compile_refines_translation_twoPass :
    (Compiler.standard.compile twoPassText).1 = .ok () ∧
      (Compiler.standard.compile twoPassText).2.schedule.Decodes twoPass.delivered := by
  have accepted := compile_twoPassText.1
  exact ⟨accepted, (compile_refines_translation _ Compiler.grammar_standard _ accepted).2 _
    represents_twoPass⟩

/-- The contributions of the statements alone are not what is in the queues: the second pass
of a program may need registers of the first. -/
theorem contributions_incomplete : ¬ ∀ (source : String) (p : Shader),
    (Compiler.standard.compile source).1 = .ok () →
      Represents (Compiler.standard.compile source).2.reading p →
        (Compiler.standard.compile source).2.schedule.Decodes (instructionsOn p.issues) := by
  intro complete
  have queues := complete twoPassText twoPass compile_twoPassText.1 represents_twoPass .texture2
  have lengths := congrArg List.length queues
  rw [compile_twoPassText.2.2.2.2] at lengths
  exact absurd lengths (by decide)

end Dialect
end PixelAsm
