import PixelAsm.Proofs.Compilation
import PixelAsm.Proofs.Stages
import PixelAsm.Proofs.Supply

/-!
# Registers that were never written

Arithmetic of the second pass may read a temp register only if something in front of it has
written the register. A program that keeps to this compiles. In any other one the first
statement that does not is reported at its opcode, with the first register that it lacks.

A write is one of the instructions that a statement contributes. A statement that stands
for several others also writes the registers that it takes for intermediate results, and so
keeps reads of these from being reported.
-/
namespace PixelAsm

/-! ### What statements read and write -/

namespace Syntax

def SourceRegister.temp? : SourceRegister → Option UInt32
  | temp register => some register.code
  | constant _ | color _ => none

/-- The temp registers among the sources, in their order. -/
def Arithmetic.reads (s : Arithmetic) : List UInt32 := s.sources.filterMap (·.register.temp?)

/-- The register that the statement names as its destination. -/
def Simple.target? : Simple → Option UInt32
  | define register => some register.code
  | texture s => some s.target.code
  | legacyTexture s => some s.target.code
  | arithmetic s => some s.target.register.code
  | phaseMarker => none

def Composite.target : Composite → Terminal .texRegPs11
  | plain _ x _ => x
  | reflection _ x _ _ => x

/-- The registers that the statement takes for intermediate results. -/
def Composite.scratch : Composite → List UInt32
  | plain opcode _ _ =>
    if opcode.symbol ∈ [.texm3x2pad, .texm3x2tex, .texm3x3pad, .texm3x3tex] then [Code.r5] else []
  | reflection _ _ _ _ => [Code.r4, Code.r5]

namespace Statement

def isComposite : Statement → Bool
  | simple _ => false
  | composite _ => true

def target? : Statement → Option UInt32
  | simple s => s.target?
  | composite s => some s.target.code

def scratch : Statement → List UInt32
  | simple _ => []
  | composite s => s.scratch

/-- The statement has the register as its destination. -/
def sets (s : Statement) (register : UInt32) : Bool := s.target? == some register

/-- The statement changes the register, as its destination or on the way to it. -/
def touches (s : Statement) (register : UInt32) : Bool :=
  s.sets register || s.scratch.contains register

/-- The temp registers that the statement, behind others, reads as arithmetic of the second
pass. -/
def lateReads (legacy : Bool) (before : List Statement) : Statement → List UInt32
  | simple (.arithmetic s) => if legacy || before.any (·.isMarker) then s.reads else []
  | _ => []

end Statement

theorem temp?_eq (r : SourceRegister) :
    r.temp? = if Code.isTemp r.code then some r.code else none := by
  have constants : ∀ t ∈ Symbol.terminals .constReg, Code.isTemp t.code = false := by decide
  have colors : ∀ t ∈ Symbol.terminals .colorReg, Code.isTemp t.code = false := by decide
  cases r with
  | temp t => exact (if_pos (Assembly.isTemp_tempReg t.symbol t.member)).symm
  | constant t =>
    have other : Code.isTemp (SourceRegister.constant t).code = false :=
      constants t.symbol t.member
    rw [other]
    rfl
  | color t =>
    have other : Code.isTemp (SourceRegister.color t).code = false := colors t.symbol t.member
    rw [other]
    rfl

/-- The temp registers are told from the others by their codes. -/
theorem Arithmetic.reads_eq (s : Arithmetic) :
    s.reads = (s.sources.map (·.register.code)).filter Code.isTemp := by
  unfold reads
  induction s.sources with
  | nil => rfl
  | cons x rest ih =>
    rw [List.filterMap_cons, temp?_eq, List.map_cons, List.filter_cons, ih]
    cases Code.isTemp x.register.code <;> rfl

/-- Both halves of an arithmetic statement read its sources and write its destination. -/
theorem Arithmetic.of_mem_instructions {s : Arithmetic} {i : Instruction}
    (member : i ∈ s.instructions) :
    i.operands.map (·.register) = s.sources.map (·.register.code) ∧
      i.destination = s.target.register.code := by
  rcases List.mem_append.mp member with color | alpha
  · obtain ⟨-, rfl⟩ : _ ∧ i = s.color := by simpa using color
    exact ⟨by simp [Arithmetic.color, Instruction.operands, Source.operand], rfl⟩
  · obtain ⟨-, rfl⟩ : _ ∧ i = s.alpha := by simpa using alpha
    exact ⟨by simp [Arithmetic.alpha, Instruction.operands, Source.operand], rfl⟩

/-- Every mask leaves at least one half of an arithmetic statement. -/
theorem Arithmetic.instructions_ne_nil (s : Arithmetic) : s.instructions ≠ [] := by
  have masks : ∀ t ∈ Symbol.terminals .dstMask,
      t.code &&& Code.rgb ≠ 0 ∨ t.code &&& Code.alpha ≠ 0 := by decide
  have written : s.target.channels &&& Code.rgb ≠ 0 ∨ s.target.channels &&& Code.alpha ≠ 0 := by
    unfold Destination.channels
    cases s.target.mask? with
    | none => exact .inl (by decide)
    | some t => exact masks t.symbol t.member
  unfold instructions
  rcases written with color | alpha
  · simp [color]
  · simp [alpha]

theorem code_tempOf (t : Terminal .texRegPs11) : (tempOf t).code = t.code := by
  have same : ∀ x ∈ Symbol.terminals .texRegPs11, ∀ member,
      (tempOf ⟨x, member⟩).code = x.code := by decide
  exact same t.symbol t.member t.member

end Syntax

/-! ### Writes in the log -/

namespace Log

open Syntax

/-- Some instruction has written the register, in either pass. -/
def written (log : List Issue) (register : UInt32) : Bool :=
  log.any (·.instruction.destination == register)

theorem written_append (log more : List Issue) (register : UInt32) :
    written (log ++ more) register = (written log register || written more register) :=
  List.any_append

theorem written_eq (log : List Issue) (register : UInt32) :
    written log register = (writes log 1 register || writes log 2 register) := by
  rw [Bool.eq_iff_iff, Bool.or_eq_true]
  simp only [written, writes, List.any_eq_true, Bool.and_eq_true, beq_iff_eq]
  constructor
  · rintro ⟨i, member, same⟩
    have passes : i.stage.pass = 1 ∨ i.stage.pass = 2 := by
      cases i.stage <;> simp [Stage.pass]
    rcases passes with first | second
    · exact .inl ⟨i, member, first, same⟩
    · exact .inr ⟨i, member, second, same⟩
  · rintro (⟨i, member, -, same⟩ | ⟨i, member, -, same⟩) <;> exact ⟨i, member, same⟩

theorem written_simple (s : Simple) (setting : Setting) (register : UInt32) :
    written (s.issues setting) register = (s.target? == some register) := by
  cases s with
  | define r => simp [written, Simple.issues, Simple.target?, Instruction.destination]
  | texture t =>
    have same : t.instruction.destination = t.target.code := by
      unfold Texture.instruction
      split <;> rfl
    simp [written, Simple.issues, Simple.target?, same]
  | legacyTexture t =>
    have same : t.instruction.destination = t.target.code := by
      unfold LegacyTexture.instruction
      split <;> rfl
    simp [written, Simple.issues, Simple.target?, same]
  | phaseMarker => rfl
  | arithmetic t =>
    rw [Bool.eq_iff_iff]
    simp only [written, Simple.issues, Simple.target?, List.any_map, List.any_eq_true,
      Function.comp_apply, beq_iff_eq, Option.some.injEq]
    constructor
    · rintro ⟨i, member, same⟩
      rw [← (Arithmetic.of_mem_instructions member).2, same]
    · intro same
      obtain ⟨i, member⟩ := List.exists_mem_of_ne_nil _ t.instructions_ne_nil
      exact ⟨i, member, by rw [(Arithmetic.of_mem_instructions member).2, same]⟩

theorem written_flatMap {α : Type} (f : α → List Issue) (xs : List α) (register : UInt32) :
    written (xs.flatMap f) register = xs.any fun x => written (f x) register :=
  List.any_flatMap

/-- What a composite statement writes on the way to its result are its scratch registers. -/
theorem mem_targets_expansion (s : Composite) (secondRow : Bool) (register : UInt32) :
    register ∈ (s.expansion secondRow).filterMap (·.target?) ↔
      register = s.target.code ∨ register ∈ s.scratch := by
  cases s with
  | reflection opcode x y z =>
    have same := code_tempOf x
    show register ∈ [x.code, Code.r5, Code.r4, Code.r4, (tempOf x).code, Code.r5,
      (tempOf x).code] ↔ register = x.code ∨ register ∈ [Code.r4, Code.r5]
    grind
  | plain opcode x y =>
    have same := code_tempOf x
    obtain ⟨symbol, member⟩ := opcode
    simp only [Symbol.terminals, List.mem_cons, List.not_mem_nil, or_false] at member
    have moved : register ∈ [(tempOf x).code, (tempOf x).code, (tempOf x).code] ↔
        register = x.code ∨ register ∈ [] := by grind
    have row : register ∈ [x.code, Code.r5] ↔ register = x.code ∨ register ∈ [Code.r5] := by
      grind
    have lastRow : register ∈ [x.code, Code.r5, (tempOf x).code] ↔
        register = x.code ∨ register ∈ [Code.r5] := by grind
    rcases member with rfl | rfl | rfl | rfl | rfl | rfl | rfl | rfl
    · exact moved
    · exact moved
    · show register ∈ [x.code, (tempOf x).code] ↔ register = x.code ∨ register ∈ []
      grind
    · show register ∈ [x.code, (tempOf x).code, (tempOf x).code] ↔
        register = x.code ∨ register ∈ []
      grind
    · exact row
    · exact lastRow
    · exact row
    · exact lastRow

theorem written_statement (s : Statement) (legacy : Bool) (before : List Statement)
    (register : UInt32) : written (s.issues legacy before) register = s.touches register := by
  cases s with
  | simple s =>
    rw [Statement.issues, written_simple]
    simp [Statement.touches, Statement.sets, Statement.target?, Statement.scratch]
  | composite s =>
    have issued := mem_targets_expansion s (secondRowBehind before) register
    rw [Statement.issues, written_flatMap, Bool.eq_iff_iff]
    simpa [written_simple, Statement.touches, Statement.sets, Statement.target?,
      Statement.scratch, @eq_comm _ register] using issued

/-! ### The first read that fails -/

/-- A temp register that no instruction has written. -/
def lacks (log : List Issue) (register : UInt32) : Bool :=
  Code.isTemp register && !written log register

/-- Supplying a register fails if nothing has written it, and counts no register as written
that was not. -/
theorem supply_outcome (place : Place) (log : List Issue) (register : UInt32) :
    (lacks log register = true ∧
        supply place log register = .error (.undefinedRead register place)) ∨
      lacks log register = false ∧
        ∃ next, supply place log register = .ok next ∧ written next = written log := by
  unfold supply lacks
  rw [written_eq]
  -- only a temp register that the second pass has not written asks for more
  cases temp : Code.isTemp register with
  | false => exact .inr ⟨rfl, log, rfl, rfl⟩
  | true =>
    cases second : writes log 2 register with
    | true => exact .inr ⟨by simp, log, rfl, rfl⟩
    | false =>
      cases first : writes log 1 register with
      | false => exact .inl ⟨rfl, rfl⟩
      | true =>
        refine .inr ⟨rfl, ?_⟩
        cases (instructionsOn log .alu1).isEmpty with
        | true => exact ⟨log, rfl, rfl⟩
        | false =>
          refine ⟨log ++ [handOn register], rfl, funext fun other => ?_⟩
          -- what is handed on was written before
          have known : written log register = true := by rw [written_eq, first, Bool.true_or]
          have handed : written [handOn register] other = (register == other) := by
            simp [written, handOn, Instruction.destination]
          rw [written_append, handed]
          by_cases same : register = other
          · subst same
            simp [known]
          · simp [same]

/-- Supplying several registers fails at the first of them that nothing has written. -/
theorem supplyAll_outcome (place : Place) (log : List Issue) (registers : List UInt32) :
    match registers.filter (lacks log) with
    | [] => ∃ next, supplyAll place log registers = .ok next ∧ written next = written log
    | register :: _ => supplyAll place log registers = .error (.undefinedRead register place) := by
  induction registers generalizing log with
  | nil => exact ⟨log, rfl, rfl⟩
  | cons register rest ih =>
    rw [supplyAll]
    rcases supply_outcome place log register with ⟨lacking, failed⟩ | ⟨ready, next, passed, same⟩
    · rw [List.filter_cons_of_pos lacking, failed]
    · -- what a supplied register does to the log is no write of any other
      have others : lacks next = lacks log := by
        unfold lacks
        rw [same]
      rw [List.filter_cons_of_neg (by simp [ready]), passed, ← others, ← same]
      exact ih next

/-- The halves of a statement read the same registers, so one of them fails exactly if the
first does. -/
theorem recordAll_halves (place : Place) (registers : List UInt32) (halves : List Instruction)
    (same : ∀ i ∈ halves, i.operands.map (·.register) = registers) (log : List Issue) :
    match registers.filter (lacks log) with
    | [] => ∃ next, recordAll log (halves.map (place, ⟨.alu2, ·⟩)) = .ok next ∧
        ∀ r, written next r = (written log r || halves.any (·.destination == r))
    | register :: _ => halves ≠ [] →
        recordAll log (halves.map (place, ⟨.alu2, ·⟩)) =
          .error (.undefinedRead register place) := by
  induction halves generalizing log with
  | nil =>
    split
    · exact ⟨log, rfl, by simp⟩
    · exact fun some => absurd rfl some
  | cons i rest ih =>
    have outcome := supplyAll_outcome place log registers
    have prepared : record place log ⟨.alu2, i⟩ =
        (supplyAll place log registers).map (· ++ [⟨.alu2, i⟩]) := by
      rw [record, prepare, if_pos rfl, same i (List.mem_cons_self ..)]
    rw [List.map_cons, recordAll, prepared]
    cases lacking : registers.filter (lacks log) with
    | cons register more =>
      rw [lacking] at outcome
      rw [outcome]
      exact fun _ => rfl
    | nil =>
      rw [lacking] at outcome
      obtain ⟨middle, supplied, kept⟩ := outcome
      rw [supplied]
      dsimp only [Except.map]
      have next (r : UInt32) : written (middle ++ [⟨.alu2, i⟩]) r =
          (written log r || i.destination == r) := by
        rw [written_append, kept]
        simp [written]
      -- a register that was written stays written
      have still : registers.filter (lacks (middle ++ [⟨.alu2, i⟩])) = [] := by
        rw [List.filter_eq_nil_iff] at lacking ⊢
        intro r member
        have before := lacking r member
        simp only [lacks, next] at before ⊢
        grind
      have behind := ih (fun j member => same j (List.mem_cons_of_mem i member))
        (middle ++ [⟨.alu2, i⟩])
      rw [still] at behind
      obtain ⟨last, recorded, written⟩ := behind
      refine ⟨last, recorded, fun r => ?_⟩
      rw [written, next, List.any_cons, Bool.or_assoc]

end Log

/-! ### Statement by statement -/

namespace Syntax

/-- Late reads of registers that nothing in front touches. -/
def Statement.lacking (legacy : Bool) (before : List Statement) (s : Statement) : List UInt32 :=
  (s.lateReads legacy before).filter fun r => !before.any (·.touches r)

theorem Statement.issues_of_late {legacy : Bool} {before : List Statement}
    (late : (legacy || before.any (·.isMarker)) = true) (t : Arithmetic) :
    (Statement.simple (.arithmetic t)).issues legacy before =
      t.instructions.map (⟨.alu2, ·⟩) := by
  simp only [Statement.issues, Simple.issues, settingBehind, Bool.not_false, Bool.and_true, late,
    if_true]

theorem late_concat {legacy : Bool} {before : List Statement}
    (late : (legacy || before.any (·.isMarker)) = true) (s : Statement) :
    (legacy || (before ++ [s]).any (·.isMarker)) = true := by
  rw [List.any_append, ← Bool.or_assoc, late, Bool.true_or]

/-- A statement either is arithmetic of the last stage or has no part in it. -/
theorem Statement.late_or_early (legacy : Bool) (before : List Statement) (s : Statement)
    (harmless : s.isComposite = true → before.any (·.isMarker) = false) :
    (∃ t, s = .simple (.arithmetic t) ∧ (legacy || before.any (·.isMarker)) = true) ∨
      s.lateReads legacy before = [] ∧ ∀ i ∈ s.issues legacy before, i.stage ≠ .alu2 := by
  cases s with
  | composite s =>
    exact .inr ⟨rfl, fun i member => stage_of_texture (t := .composite s) (harmless rfl) member⟩
  | simple s =>
    have issued : (Statement.simple s).issues legacy before =
        s.issues (settingBehind legacy before) := rfl
    rw [issued]
    cases s with
    | define t | texture t | legacyTexture t =>
      exact .inr ⟨rfl, fun i member => stage_of_early (.inr (by intros; simp)) member⟩
    | phaseMarker => exact .inr ⟨rfl, by simp [Simple.issues]⟩
    | arithmetic t =>
      cases late : legacy || before.any (·.isMarker) with
      | true => exact .inl ⟨t, rfl, rfl⟩
      | false =>
        refine .inr ⟨by simp [lateReads, late], fun i member => stage_of_early (.inl ?_) member⟩
        simpa [Setting.late, settingBehind] using late

end Syntax

namespace Log

open Syntax

/-- Recording a statement fails at the first register that it lacks. -/
theorem recordAll_statement (legacy : Bool) {before : List Statement} {log : List Issue}
    (s : Statement) (place : Place)
    (harmless : s.isComposite = true → before.any (·.isMarker) = false)
    (known : ∀ r, written log r = before.any (·.touches r)) :
    match s.lacking legacy before with
    | [] => ∃ next, recordAll log ((s.issues legacy before).map (place, ·)) = .ok next ∧
        ∀ r, written next r = (before ++ [s]).any (·.touches r)
    | register :: _ => recordAll log ((s.issues legacy before).map (place, ·)) =
        .error (.undefinedRead register place) := by
  have touched (r : UInt32) : (before ++ [s]).any (·.touches r) =
      (written log r || written (s.issues legacy before) r) := by
    rw [List.any_append, known, written_statement]
    simp
  unfold Statement.lacking
  rcases s.late_or_early legacy before harmless with ⟨t, rfl, late⟩ | ⟨silent, early⟩
  · -- the registers that the halves read are told from constants and colours by their codes
    have issued := Statement.issues_of_late late t
    have lacking : ((Statement.simple (.arithmetic t)).lateReads legacy before).filter
        (fun r => !before.any (·.touches r)) =
          (t.sources.map (·.register.code)).filter (lacks log) := by
      rw [Statement.lateReads, if_pos late, t.reads_eq, List.filter_filter]
      congr 1
      funext r
      rw [lacks, known, Bool.and_comm]
    have outcome := recordAll_halves place _ t.instructions
      (fun i member => (Arithmetic.of_mem_instructions member).1) log
    rw [lacking]
    rw [issued] at touched ⊢
    rw [List.map_map]
    cases fault : (t.sources.map (·.register.code)).filter (lacks log) with
    | cons register more =>
      rw [fault] at outcome
      exact outcome t.instructions_ne_nil
    | nil =>
      rw [fault] at outcome
      obtain ⟨next, recorded, writes⟩ := outcome
      refine ⟨next, recorded, fun r => ?_⟩
      rw [writes, touched]
      simp [written, Function.comp_def]
  · -- what goes to the other stages is recorded without a question
    rw [silent]
    refine ⟨log ++ s.issues legacy before, ?_, fun r => by rw [written_append, touched]⟩
    rw [recordAll_early log (by simpa using early)]
    simp [Function.comp_def]

end Log

/-- The outcome names the first register of the first statement that misses one, at the opcode
of the statement, and is a success if none does. -/
structure ReportsFirst (missing : Nat → List UInt32) (opcodes : List Token)
    (outcome : Except CompileError Unit) : Prop where
  reported : ∀ n register rest, missing n = register :: rest → (∀ m < n, missing m = []) →
    ∃ token, opcodes[n]? = some token ∧ outcome = .error (.undefinedRead register token.place)
  passed : (∀ n, missing n = []) → outcome = .ok ()

namespace ReportsFirst

variable {missing : Nat → List UInt32} {opcodes : List Token}

/-- If the first statement misses a register, no later one is the first to do so. -/
theorem here {register : UInt32} {rest : List UInt32} (own : missing 0 = register :: rest)
    (token : Token) (opcodes : List Token) :
    ReportsFirst missing (token :: opcodes) (.error (.undefinedRead register token.place)) := by
  constructor
  · intro n other more lacking first
    cases n with
    | zero =>
      rw [own] at lacking
      cases lacking
      exact ⟨token, rfl, rfl⟩
    | succ n =>
      have earlier := first 0 (Nat.succ_pos n)
      rw [own] at earlier
      cases earlier
  · intro none
    rw [none 0] at own
    cases own

/-- If the first statement misses nothing, the others decide. -/
theorem behind {outcome : Except CompileError Unit} (own : missing 0 = [])
    (others : ReportsFirst (fun n => missing (n + 1)) opcodes outcome) (token : Token) :
    ReportsFirst missing (token :: opcodes) outcome := by
  constructor
  · intro n register rest lacking first
    cases n with
    | zero =>
      rw [own] at lacking
      cases lacking
    | succ n =>
      exact others.reported n register rest lacking fun m earlier =>
        first (m + 1) (Nat.succ_lt_succ earlier)
  · intro none
    exact others.passed fun n => none (n + 1)

/-- There is a report exactly if something is missing. -/
theorem exists_iff {outcome : Except CompileError Unit}
    (reports : ReportsFirst missing opcodes outcome) :
    (∃ register place, outcome = .error (.undefinedRead register place)) ↔
      ∃ n, missing n ≠ [] := by
  constructor
  · rintro ⟨register, place, failed⟩
    refine Classical.byContradiction fun none => ?_
    have passed := reports.passed fun n =>
      Classical.byContradiction fun some => none ⟨n, some⟩
    rw [failed] at passed
    cases passed
  · rintro ⟨n, some⟩
    refine Classical.byContradiction fun silent => some ?_
    -- without a report nothing is missing, by induction along the statements
    clear some
    induction n using Nat.strongRecOn with
    | ind n earlier =>
      cases lacking : missing n with
      | nil => rfl
      | cons register rest =>
        obtain ⟨token, -, failed⟩ := reports.reported n register rest lacking earlier
        exact absurd ⟨register, token.place, failed⟩ silent

end ReportsFirst

namespace Syntax

/-- Late reads of the statement at a position. -/
def readsAt (legacy : Bool) (before ss : List Statement) (n : Nat) : List UInt32 :=
  ss[n]?.elim [] (·.lateReads legacy (before ++ ss.take n))

def lackingAt (legacy : Bool) (before ss : List Statement) (n : Nat) : List UInt32 :=
  (readsAt legacy before ss n).filter fun r => !(before ++ ss.take n).any (·.touches r)

theorem lackingAt_zero (legacy : Bool) (before : List Statement) (s : Statement)
    (rest : List Statement) : lackingAt legacy before (s :: rest) 0 = s.lacking legacy before := by
  simp [lackingAt, readsAt, Statement.lacking]

theorem lackingAt_succ (legacy : Bool) (before : List Statement) (s : Statement)
    (rest : List Statement) (n : Nat) :
    lackingAt legacy before (s :: rest) (n + 1) = lackingAt legacy (before ++ [s]) rest n := by
  simp [lackingAt, readsAt]

end Syntax

open Syntax in
/-- Recording statement by statement reports the first register that is lacking. -/
theorem Log.recordAll_reports (legacy : Bool) {before : List Statement} {log : List Issue}
    (placed : List (Statement × Token))
    (harmless : ∀ front s back, placed.map (·.1) = front ++ s :: back →
      s.isComposite = true → (before ++ front).any (·.isMarker) = false)
    (known : ∀ r, written log r = before.any (·.touches r)) :
    ReportsFirst (lackingAt legacy before (placed.map (·.1))) (placed.map (·.2))
      ((recordAll log (locatedBehind legacy before placed)).map fun _ => ()) := by
  induction placed generalizing before log with
  | nil =>
    refine ⟨fun n register rest missing => ?_, fun _ => rfl⟩
    cases missing
  | cons x rest ih =>
    obtain ⟨s, token⟩ := x
    have own : s.isComposite = true → before.any (·.isMarker) = false := by
      simpa using harmless [] s (rest.map (·.1)) rfl
    have step := recordAll_statement legacy s token.place own known
    have first := lackingAt_zero legacy before s (rest.map (·.1))
    rw [locatedBehind, recordAll_append]
    simp only [List.map_cons]
    cases lacking : s.lacking legacy before with
    | cons register more =>
      rw [lacking] at step first
      rw [step]
      exact .here first token _
    | nil =>
      rw [lacking] at step first
      obtain ⟨next, recorded, written⟩ := step
      rw [recorded]
      have others : ∀ front t back, rest.map (·.1) = front ++ t :: back →
          t.isComposite = true → (before ++ [s] ++ front).any (·.isMarker) = false := by
        intro front t back split
        simpa using harmless (s :: front) t back (by rw [List.map_cons, split]; rfl)
      refine .behind first ?_ token
      -- the statements behind this one lack what they lack with it in front of them
      rw [show (fun n => lackingAt legacy before (s :: rest.map (·.1)) (n + 1)) =
        lackingAt legacy (before ++ [s]) (rest.map (·.1)) from
          funext (lackingAt_succ legacy before s _)]
      exact ih others written

end PixelAsm
