import PixelAsm.Proofs.Refinement
import PixelAsm.Proofs.UndefinedReads

/-!
# Registers that cross between the passes

A register crosses if the arithmetic of the second pass reads it when the first pass has
written it and the second has not. In a program whose first pass has arithmetic these are the
registers that are handed on: each once, in the order of the first such reads, behind the
texture instructions that the program has in the second pass itself. None of these has a
register that is handed on as its destination.
-/
namespace PixelAsm

open Syntax

theorem nodup_eraseDups (registers : List UInt32) : registers.eraseDups.Nodup := by
  cases registers with
  | nil => simp
  | cons register rest =>
    rw [List.eraseDups_cons, List.nodup_cons]
    exact ⟨by simp, nodup_eraseDups _⟩
termination_by registers.length
decreasing_by exact Nat.lt_succ_of_le (List.length_filter_le _ _)

/-! ### Registers that are missing -/

namespace Log

theorem missing_eq (ready registers : List UInt32) :
    missing ready registers =
      (registers.filter fun r => Code.isTemp r && !ready.contains r).eraseDups := by
  induction registers generalizing ready with
  | nil => rfl
  | cons register rest ih =>
    rw [missing, List.filter_cons]
    split
    · -- from here on the register is ready
      rw [List.eraseDups_cons, ih, List.filter_filter]
      congr 2
      refine List.filter_congr fun r _ => ?_
      rw [List.contains_cons, Bool.not_or]
      ac_rfl
    · exact ih ready

theorem mem_missing {ready registers : List UInt32} {r : UInt32} :
    r ∈ missing ready registers ↔ r ∈ registers ∧ Code.isTemp r = true ∧ r ∉ ready := by
  rw [missing_eq]
  simp

theorem missing_congr {ready other : List UInt32} (same : ∀ r, r ∈ ready ↔ r ∈ other)
    (registers : List UInt32) : missing ready registers = missing other registers := by
  rw [missing_eq, missing_eq]
  congr 1
  refine List.filter_congr fun r _ => ?_
  rw [Bool.eq_iff_iff]
  simp [same]

theorem exposed_congr {ready other : List UInt32} (same : ∀ r, r ∈ ready ↔ r ∈ other)
    (is : List Instruction) : exposed ready is = exposed other is := by
  induction is generalizing ready other with
  | nil => rfl
  | cons i rest ih =>
    have next : ∀ r, r ∈ i.destination :: (missing other (i.operands.map (·.register)) ++ ready) ↔
        r ∈ i.destination :: (missing other (i.operands.map (·.register)) ++ other) := by
      simp [same]
    rw [exposed, exposed, missing_congr same, ih next]

/-- What is exposed was not ready. -/
theorem not_mem_of_exposed {ready : List UInt32} {is : List Instruction} {r : UInt32}
    (member : r ∈ exposed ready is) : r ∉ ready := by
  induction is generalizing ready with
  | nil => cases member
  | cons i rest ih =>
    rcases List.mem_append.mp member with here | behind
    · exact (mem_missing.mp here).2.2
    · have fresh := ih behind
      simp only [List.mem_cons, List.mem_append, not_or] at fresh
      exact fresh.2.2

variable {registers : List UInt32} {destination : UInt32}

/-- Instructions whose reads and destination are ready change nothing. -/
theorem exposed_skip {halves : List Instruction}
    (same : ∀ i ∈ halves, i.operands.map (·.register) = registers ∧ i.destination = destination)
    {ready : List UInt32} (covered : ∀ r ∈ registers, Code.isTemp r = true → r ∈ ready)
    (held : destination ∈ ready) (rest : List Instruction) :
    exposed ready (halves ++ rest) = exposed ready rest := by
  induction halves with
  | nil => rfl
  | cons i more ih =>
    obtain ⟨reads, writes⟩ := same i (List.mem_cons_self ..)
    have nothing : missing ready registers = [] := by
      rw [List.eq_nil_iff_forall_not_mem]
      intro r member
      obtain ⟨read, temp, lacking⟩ := mem_missing.mp member
      exact lacking (covered r read temp)
    rw [List.cons_append, exposed, reads, writes, nothing]
    have unchanged : ∀ r, r ∈ destination :: ([] ++ ready) ↔ r ∈ ready := by
      intro r
      simp only [List.nil_append, List.mem_cons, or_iff_right_iff_imp]
      rintro rfl
      exact held
    rw [List.nil_append, exposed_congr unchanged]
    exact ih fun j member => same j (List.mem_cons_of_mem i member)

/-- The halves of a statement lack what its first half lacks. -/
theorem exposed_halves {halves : List Instruction} (some : halves ≠ [])
    (same : ∀ i ∈ halves, i.operands.map (·.register) = registers ∧ i.destination = destination)
    (ready : List UInt32) (rest : List Instruction) :
    exposed ready (halves ++ rest) = missing ready registers ++
      exposed (destination :: (missing ready registers ++ ready)) rest := by
  obtain ⟨i, more, rfl⟩ := List.exists_cons_of_ne_nil some
  obtain ⟨reads, writes⟩ := same i (List.mem_cons_self ..)
  -- behind the first half its reads and the destination are ready
  rw [List.cons_append, exposed, reads, writes,
    exposed_skip fun j member => same j (List.mem_cons_of_mem i member)]
  · intro r read temp
    by_cases held : r ∈ ready
    · simp [held]
    · simp [mem_missing, read, temp, held]
  · exact List.mem_cons_self ..

end Log

/-! ### Reads that cross -/

namespace Syntax

/-- Late reads of registers that the statements in front have written in the first pass and not
in the second. -/
def Statement.crossReads (legacy : Bool) (before : List Statement) (s : Statement) : List UInt32 :=
  (s.lateReads legacy before).filter fun r =>
    Log.writes (issuesBehind legacy [] before) 1 r &&
      !Log.writes (issuesBehind legacy [] before) 2 r

/-- The reads of statements behind others that cross between the passes, in order. -/
def crossReadsBehind (legacy : Bool) (before : List Statement) : List Statement → List UInt32
  | [] => []
  | s :: rest => s.crossReads legacy before ++ crossReadsBehind legacy (before ++ [s]) rest

theorem crossReadsBehind_append (legacy : Bool) (before ss ts : List Statement) :
    crossReadsBehind legacy before (ss ++ ts) =
      crossReadsBehind legacy before ss ++ crossReadsBehind legacy (before ++ ss) ts := by
  induction ss generalizing before with
  | nil => simp [crossReadsBehind]
  | cons s rest ih => simp [crossReadsBehind, ih]

/-- Statements without a part in the last stage have no late reads. -/
theorem Statement.lateReads_of_early {legacy : Bool} {before : List Statement} {s : Statement}
    (early : ∀ i ∈ s.issues legacy before, i.stage ≠ .alu2) : s.lateReads legacy before = [] := by
  cases s with
  | composite s => rfl
  | simple s =>
    cases s with
    | define t | texture t | legacyTexture t | phaseMarker => rfl
    | arithmetic t =>
      refine if_neg fun late => ?_
      obtain ⟨i, member⟩ := List.exists_mem_of_ne_nil _ t.instructions_ne_nil
      rw [issues_of_late late] at early
      exact early ⟨.alu2, i⟩ (List.mem_map_of_mem member) rfl

theorem crossReadsBehind_early {legacy : Bool} {before ss : List Statement}
    (early : ∀ i ∈ issuesBehind legacy before ss, i.stage ≠ .alu2) :
    crossReadsBehind legacy before ss = [] := by
  induction ss generalizing before with
  | nil => rfl
  | cons s rest ih =>
    rw [issuesBehind, List.forall_mem_append] at early
    rw [crossReadsBehind, Statement.crossReads, Statement.lateReads_of_early early.1, ih early.2]
    rfl

theorem lackingAt_append (legacy : Bool) (before ss ts : List Statement) (n : Nat) :
    lackingAt legacy before (ss ++ ts) (ss.length + n) = lackingAt legacy (before ++ ss) ts n := by
  have seen : (ss ++ ts).take (ss.length + n) = ss ++ ts.take n := List.take_length_add_append n
  simp [lackingAt, readsAt, seen, List.getElem?_append_right]

end Syntax

namespace Log

theorem written_issuesBehind (legacy : Bool) (before ss : List Statement) (register : UInt32) :
    written (issuesBehind legacy before ss) register = ss.any (·.touches register) := by
  induction ss generalizing before with
  | nil => rfl
  | cons s rest ih => rw [issuesBehind, written_append, written_statement, ih, List.any_cons]

section Late

variable {legacy : Bool} {before : List Statement}
  (late : (legacy || before.any (·.isMarker)) = true) (t : Arithmetic) {ready done : List UInt32}
  (known : ∀ r, r ∈ ready ↔ writes (issuesBehind legacy [] before) 2 r = true ∨ r ∈ done)
include late known

/-- If every register that a statement reads was written, it lacks those that it reads across
the passes, less those that were handed on before. -/
theorem missing_arithmetic
    (defined : ∀ r ∈ t.reads, (writes (issuesBehind legacy [] before) 1 r ||
      writes (issuesBehind legacy [] before) 2 r) = true) :
    missing ready (t.sources.map (·.register.code)) =
      (((Statement.simple (.arithmetic t)).crossReads legacy before).filter
        fun r => !done.contains r).eraseDups := by
  rw [t.reads_eq] at defined
  rw [missing_eq, Statement.crossReads, Statement.lateReads, if_pos late, t.reads_eq,
    List.filter_filter, List.filter_filter]
  congr 1
  refine List.filter_congr fun r member => ?_
  cases temp : Code.isTemp r with
  | false => simp
  | true =>
    have some := defined r (List.mem_filter.mpr ⟨member, temp⟩)
    have held : ready.contains r =
        (writes (issuesBehind legacy [] before) 2 r || done.contains r) := by
      rw [Bool.eq_iff_iff]
      simp [known]
    rw [held]
    -- what the second pass has not written, the first has
    cases second : writes (issuesBehind legacy [] before) 2 r with
    | true => simp
    | false =>
      rw [second, Bool.or_false] at some
      simp [some]

/-- Behind a statement the registers are ready that the second pass has written or that were
handed on. -/
theorem ready_arithmetic (r : UInt32) :
    r ∈ t.target.register.code ::
        ((((Statement.simple (.arithmetic t)).crossReads legacy before).filter
          fun r => !done.contains r).eraseDups ++ ready) ↔
      writes (issuesBehind legacy [] (before ++ [.simple (.arithmetic t)])) 2 r = true ∨
        r ∈ done ++ (Statement.simple (.arithmetic t)).crossReads legacy before := by
  -- what a late statement writes at all, it writes in the second pass
  have own : writes (t.instructions.map (⟨.alu2, ·⟩)) 2 r = true ↔
      r = t.target.register.code := by
    have either : writes (t.instructions.map (⟨.alu2, ·⟩)) 2 r =
        written (t.instructions.map (⟨.alu2, ·⟩)) r := by
      simp [writes, written, Stage.pass, Function.comp_def]
    rw [either, ← Statement.issues_of_late late, written_statement]
    simp [Statement.touches, Statement.sets, Statement.target?, Simple.target?, Statement.scratch,
      @eq_comm _ r]
  rw [issuesBehind_append, writes_append, Bool.or_eq_true, List.nil_append, issuesBehind,
    issuesBehind, List.append_nil, Statement.issues_of_late late, own]
  simp only [List.mem_cons, List.mem_append, List.mem_eraseDups, List.mem_filter, known]
  grind

end Late

/-- What the arithmetic of the second pass lacks are the registers that it reads across the
passes, less those that were handed on before. -/
theorem exposed_arithmetic {legacy : Bool} {before : List Statement} (ts : List Arithmetic)
    (late : (legacy || before.any (·.isMarker)) = true)
    (defined : ∀ n, lackingAt legacy before (ts.map (.simple <| .arithmetic ·)) n = [])
    {ready done : List UInt32}
    (known : ∀ r, r ∈ ready ↔ writes (issuesBehind legacy [] before) 2 r = true ∨ r ∈ done) :
    exposed ready (ts.flatMap (·.instructions)) =
      ((crossReadsBehind legacy before (ts.map (.simple <| .arithmetic ·))).filter
        fun r => !done.contains r).eraseDups := by
  -- what is ready grows along the statements with what was read across
  induction ts generalizing before ready done with
  | nil => rfl
  | cons t rest ih =>
    let s : Statement := .simple (.arithmetic t)
    -- every register that is read has been written, in one of the passes
    have own : ∀ r ∈ t.reads, (writes (issuesBehind legacy [] before) 1 r ||
        writes (issuesBehind legacy [] before) 2 r) = true := by
      intro r read
      have here := defined 0
      rw [List.map_cons, lackingAt_zero, Statement.lacking, Statement.lateReads, if_pos late,
        List.filter_eq_nil_iff] at here
      rw [← written_eq, written_issuesBehind]
      simpa using here r read
    have others : ∀ n, lackingAt legacy (before ++ [s])
        (rest.map (.simple <| .arithmetic ·)) n = [] := by
      intro n
      rw [← lackingAt_succ]
      exact defined (n + 1)
    rw [List.flatMap_cons, exposed_halves t.instructions_ne_nil
      (fun i member => Arithmetic.of_mem_instructions member),
      missing_arithmetic late t known own,
      ih (late_concat late s) others (ready_arithmetic late t known),
      List.map_cons, crossReadsBehind, List.filter_append, List.eraseDups_append]
    congr 2
    -- leaving out what was handed on goes in two steps
    rw [List.removeAll, List.filter_filter]
    refine List.filter_congr fun r _ => ?_
    by_cases handed : r ∈ done
    · simp [handed]
    · simp [handed]

theorem map_instruction_arithmetic {legacy : Bool} {before : List Statement}
    (late : (legacy || before.any (·.isMarker)) = true) (ts : List Arithmetic) :
    (issuesBehind legacy before (ts.map (.simple <| .arithmetic ·))).map (·.instruction) =
      ts.flatMap (·.instructions) := by
  induction ts generalizing before with
  | nil => rfl
  | cons t rest ih =>
    rw [List.map_cons, issuesBehind, List.map_append, ih (late_concat late _),
      Statement.issues_of_late late, List.flatMap_cons]
    simp [Function.comp_def]

end Log

/-! ### Programs -/

namespace Syntax.Shader

/-- The registers that cross between the passes of the program, each once, in the order of the
first reads across. Without arithmetic in the first pass there are none. -/
def crossing (p : Shader) : List UInt32 :=
  if instructionsOn p.issues .alu1 = [] then []
  else (crossReadsBehind p.isLegacy [] p.statements).eraseDups

variable {p : Shader}

/-- If every register that is read was written, the registers that cross are handed on. -/
theorem routed_eq_crossing (dialect : p.InDialect) (defined : ∀ n, p.untouchedAt n = []) :
    p.routed = p.crossing := by
  obtain ⟨early, late, divided, before, placed⟩ := p.statements_split dialect
  have issues : p.issues = issuesBehind p.isLegacy [] early ++
      issuesBehind p.isLegacy early (late.map (.simple <| .arithmetic ·)) := by
    rw [Shader.issues, divided, issuesBehind_append, List.nil_append]
  have reads : crossReadsBehind p.isLegacy [] p.statements =
      crossReadsBehind p.isLegacy early (late.map (.simple <| .arithmetic ·)) := by
    rw [divided, crossReadsBehind_append, crossReadsBehind_early before, List.nil_append,
      List.nil_append]
  have untouched : ∀ n,
      lackingAt p.isLegacy early (late.map (.simple <| .arithmetic ·)) n = [] := by
    intro n
    have here : lackingAt p.isLegacy [] p.statements (early.length + n) = [] :=
      defined (early.length + n)
    rw [divided, lackingAt_append] at here
    exact here
  unfold routed crossing
  split
  · rfl
  · rw [reads, issues, instructionsOn_append, instructionsOn_append,
      Log.instructionsOn_of_early before, List.nil_append]
    rcases placed with rfl | behind
    · rfl
    · -- what the textures of the second pass write is ready, and nothing is handed on yet
      have own := Log.instructionsOn_of_late (late_arithmetic late behind)
      have known (r : UInt32) :
          r ∈ (instructionsOn (issuesBehind p.isLegacy [] early) .texture2).map (·.destination) ↔
            Log.writes (issuesBehind p.isLegacy [] early) 2 r = true ∨ r ∈ [] := by
        rw [Log.mem_destinations before, or_iff_left List.not_mem_nil]
      rw [own, own, if_neg (by decide), if_pos rfl, List.append_nil,
        Log.map_instruction_arithmetic behind, Log.exposed_arithmetic late behind untouched known]
      congr 1
      exact List.filter_eq_self.mpr (by simp)

end Syntax.Shader

namespace Dialect

/-- What is handed on is exactly what crosses: behind the texture instructions that the program
has in the second pass comes one instruction for each register that crosses. None of these is
handed on twice or is a destination of the instructions in front. -/
theorem compile_routes_crossing (c : Compiler) (dialect : c.grammar = grammar) (source : String)
    (accepted : (c.compile source).1 = .ok ()) :
    (∃ p, Represents (c.compile source).2.reading p) ∧
      ∀ p, Represents (c.compile source).2.reading p →
        ((c.compile source).2.schedule.get .alu1).records =
            (instructionsOn p.issues .alu1).map .ok ∧
          ((c.compile source).2.schedule.get .texture2).records =
            (instructionsOn p.issues .texture2 ++
              p.crossing.map fun r => Instruction.passTexCoord r r Code.swizzleStr).map .ok ∧
          p.crossing.Nodup ∧
          ∀ r ∈ p.crossing, ∀ i ∈ instructionsOn p.issues .texture2, i.destination ≠ r := by
  have read := read_of_compile dialect accepted
  refine ⟨read_represents read, fun p represents => ?_⟩
  -- the source compiles, so it reads nothing that was never written
  have reports := (compile_reports_first dialect read represents).exists_iff
  have defined : ∀ n, p.untouchedAt n = [] := by
    intro n
    refine Classical.byContradiction fun some => ?_
    obtain ⟨register, place, failed⟩ := reports.mpr ⟨n, some⟩
    rw [accepted] at failed
    cases failed
  have crossing := Shader.routed_eq_crossing represents.dialect defined
  have decodes := compile_decodes dialect accepted represents
  refine ⟨?_, ?_, ?_, ?_⟩
  · simpa [Shader.delivered, Shader.queues] using decodes .alu1
  · rw [← crossing]
    simpa [Shader.delivered, Shader.queues] using decodes .texture2
  · unfold Shader.crossing
    split
    · exact List.nodup_nil
    · exact nodup_eraseDups _
  · rintro r member i issued rfl
    rw [← crossing] at member
    unfold Shader.routed at member
    split at member
    · cases member
    · exact Log.not_mem_of_exposed member (List.mem_map_of_mem issued)

theorem compile_routes_crossing_twoPass :
    (Compiler.standard.compile twoPassText).1 = .ok () ∧
      Represents (Compiler.standard.compile twoPassText).2.reading twoPass ∧
      twoPass.crossing = [Code.r1, Code.r0] ∧
      ((Compiler.standard.compile twoPassText).2.schedule.get .texture2).records =
        [.ok (.passTexCoord Code.r1 Code.r1 Code.swizzleStr),
          .ok (.passTexCoord Code.r0 Code.r0 Code.swizzleStr)] := by
  have accepted := compile_twoPassText.1
  obtain ⟨-, routes⟩ :=
    compile_routes_crossing Compiler.standard Compiler.grammar_standard twoPassText accepted
  obtain ⟨-, textures, -⟩ := routes twoPass represents_twoPass
  have crossing : twoPass.crossing = [Code.r1, Code.r0] := by decide
  have own : instructionsOn twoPass.issues .texture2 = [] := by decide
  rw [crossing, own] at textures
  exact ⟨accepted, represents_twoPass, crossing, textures⟩

end Dialect
end PixelAsm
