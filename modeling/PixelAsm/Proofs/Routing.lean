import PixelAsm.Proofs.Stages
import PixelAsm.Proofs.Supply

/-!
# Routing

The queues of a program in terms of its contributions. All of them are queued in the order
of the source. Behind the texture instructions of the second pass come those that hand
registers on, if the first pass has arithmetic: one for each temp register that the
arithmetic of the second pass reads before the second pass writes it.
-/
namespace PixelAsm

open Syntax

namespace Syntax.Shader

/-- The registers that the second pass takes over from the first, in the order in which they
are read. -/
def routed (p : Shader) : List UInt32 :=
  if instructionsOn p.issues .alu1 = [] then []
  else Log.exposed ((instructionsOn p.issues .texture2).map (·.destination))
    (instructionsOn p.issues .alu2)

/-- The queues behind the last token. -/
def queues (p : Shader) : Stage → List Instruction
  | .texture2 => instructionsOn p.issues .texture2 ++
      p.routed.map fun r => .passTexCoord r r Code.swizzleStr
  | stage => instructionsOn p.issues stage

end Syntax.Shader

namespace Log

theorem instructionsOn_of_late {back : List Issue}
    (late : ∀ i ∈ back, i.stage = .alu2) (stage : Stage) :
    instructionsOn back stage = if stage = .alu2 then back.map (·.instruction) else [] := by
  unfold instructionsOn
  split
  next last =>
    rw [List.filter_eq_self.mpr fun i member => by simp [late i member, last]]
  next other =>
    rw [List.filter_eq_nil_iff.mpr fun i member => by simp [late i member, Ne.symm other]]
    rfl

theorem instructionsOn_of_early {front : List Issue}
    (early : ∀ i ∈ front, i.stage ≠ .alu2) : instructionsOn front .alu2 = [] := by
  unfold instructionsOn
  rw [List.filter_eq_nil_iff.mpr fun i member => by simpa using early i member]
  rfl

/-- Without arithmetic in the last stage, the second pass writes through its textures. -/
theorem mem_destinations {front : List Issue} (early : ∀ i ∈ front, i.stage ≠ .alu2)
    (r : UInt32) : r ∈ (instructionsOn front .texture2).map (·.destination) ↔
      writes front 2 r = true := by
  -- of the two stages of the second pass only textures are left
  have second (i : Issue) (member : i ∈ front) : i.stage = .texture2 ↔ i.stage.pass = 2 := by
    have notLast := early i member
    cases stage : i.stage with
    | texture1 | alu1 | texture2 => simp [Stage.pass]
    | alu2 => exact absurd stage notLast
  simp only [instructionsOn, writes, List.mem_map, List.mem_filter, List.any_eq_true,
    beq_iff_eq, Bool.and_eq_true]
  constructor
  · rintro ⟨_, ⟨i, ⟨member, stage⟩, rfl⟩, same⟩
    exact ⟨i, member, (second i member).mp stage, same⟩
  · rintro ⟨i, member, pass, same⟩
    exact ⟨_, ⟨i, ⟨member, (second i member).mpr pass⟩, rfl⟩, same⟩

/-- The log of a program starts with what goes to the first three stages. -/
theorem log_of_program {p : Shader} (dialect : p.InDialect) {located : List (Place × Issue)}
    (issues : located.map (·.2) = p.issues) {log : List Issue}
    (recorded : recordAll [] located = .ok log) :
    (∀ stage, instructionsOn log stage = p.queues stage) ∧
      ∃ front mixed, log = front ++ mixed ∧ (∀ i ∈ front, i.stage ≠ .alu2) ∧
        instructionsOn mixed .alu1 = [] := by
  obtain ⟨front, back, divided, early, late⟩ := p.issues_split dialect
  rw [divided] at issues
  obtain ⟨locatedFront, locatedBack, rfl, rfl, rfl⟩ := List.map_eq_append_iff.mp issues
  have early1 : ∀ x ∈ locatedFront, x.2.stage ≠ .alu2 :=
    fun x member => early x.2 (List.mem_map_of_mem member)
  have late2 : ∀ x ∈ locatedBack, x.2.stage = .alu2 :=
    fun x member => late x.2 (List.mem_map_of_mem member)
  -- the early part is recorded as it is; what is handed on comes with the late part
  rw [recordAll_append, recordAll_early [] early1, List.nil_append] at recorded
  have stages := recordAll_late late2 (mem_destinations early) recorded
  obtain ⟨mixed, rfl⟩ := recordAll_extends recorded
  have contributed (stage : Stage) : instructionsOn p.issues stage =
      instructionsOn (locatedFront.map (·.2)) stage ++
        if stage = .alu2 then locatedBack.map (·.2.instruction) else [] := by
    rw [divided, instructionsOn_append, instructionsOn_of_late late, List.map_map]
    rfl
  refine ⟨fun stage => ?_, _, mixed, rfl, early, ?_⟩
  · rw [stages stage]
    cases stage with
    | texture1 | alu1 => simp [Shader.queues, contributed]
    | alu2 => simp [Shader.queues, contributed]
    | texture2 =>
      simp [Shader.queues, Shader.routed, routed, contributed, instructionsOn_of_early early]
  · have whole := stages .alu1
    rw [instructionsOn_append] at whole
    exact List.append_cancel_left whole

end Log
end PixelAsm
