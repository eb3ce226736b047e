import PixelAsm.Proofs.Definedness

/-!
# Reporting reads of undefined registers

Compiling a source that the grammar accepts ends in the first undefined read of its program,
if there is one. Statements that stand for others aside, a read is undefined if no statement in
front of it has the register as its destination.

The matrix statements of the dialects before ps.1.4 keep their rows in the registers behind
`r0` and `r1`. What they leave there counts as written, so a program that reads `r0` or `r1`
behind such a statement is not told that it has never set the register.
-/
namespace PixelAsm

open Syntax

/-! ### Programs -/

namespace Syntax

theorem Block.not_isComposite {b : Block} (current : ∀ t ∈ b.textures, ∃ s, t = .current s) :
    ∀ s ∈ b.statements, s.isComposite = false := by
  intro s member
  rcases List.mem_append.mp member with texture | arithmetic
  · obtain ⟨t, inside, rfl⟩ := List.mem_map.mp texture
    obtain ⟨u, rfl⟩ := current t inside
    rfl
  · obtain ⟨t, -, rfl⟩ := List.mem_map.mp arithmetic
    rfl

namespace Shader

/-- The temp registers that the statement at a position reads as arithmetic of the second
pass. -/
def lateReadsAt (p : Shader) (n : Nat) : List UInt32 :=
  p.statements[n]?.elim [] (·.lateReads p.isLegacy (p.statements.take n))

/-- Late reads of registers that no statement in front has as its destination. -/
def undefinedAt (p : Shader) (n : Nat) : List UInt32 :=
  (p.lateReadsAt n).filter fun r => !(p.statements.take n).any (·.sets r)

/-- Late reads of registers that no statement in front changes at all. -/
def untouchedAt (p : Shader) (n : Nat) : List UInt32 :=
  (p.lateReadsAt n).filter fun r => !(p.statements.take n).any (·.touches r)

variable {p : Shader}

theorem InDialect.not_isComposite (dialect : p.InDialect) (modern : p.isLegacy = false) :
    ∀ s ∈ p.statements, s.isComposite = false := by
  intro s member
  rcases List.mem_append.mp member with first | second
  · rcases List.mem_append.mp first with definition | block
    · obtain ⟨t, -, rfl⟩ := List.mem_map.mp definition
      rfl
    · exact Block.not_isComposite (dialect.first_current modern) s block
  · unfold secondStatements at second
    split at second
    next block found =>
      rcases List.mem_cons.mp second with rfl | inside
      · rfl
      · exact Block.not_isComposite (dialect.second_current modern found) s inside
    · cases second

theorem InDialect.statements_legacy (dialect : p.InDialect) (legacy : p.isLegacy = true) :
    p.statements = p.firstStatements := by
  rw [statements, secondStatements, dialect.second_legacy legacy, List.append_nil]

/-- No statement that stands for others comes behind the phase marker. -/
theorem InDialect.unmarked_composite (dialect : p.InDialect) {front back : List Statement}
    {s : Statement} (split : p.statements = front ++ s :: back) (composite : s.isComposite = true) :
    front.any (·.isMarker) = false := by
  -- ps.1.4 has no such statements, and the dialects before it have no marker
  cases legacy : p.isLegacy with
  | false =>
    have simple := dialect.not_isComposite legacy s (by simp [split])
    rw [composite] at simple
    cases simple
  | true =>
    rw [List.any_eq_false]
    intro t member
    have unmarked := p.unmarked_first t (by
      rw [← dialect.statements_legacy legacy, split]
      exact List.mem_append_left _ member)
    simp [unmarked]

/-- Without statements that stand for others nothing changes but destinations. -/
theorem untouchedAt_eq (simple : ∀ s ∈ p.statements, s.isComposite = false) :
    p.untouchedAt = p.undefinedAt := by
  funext n
  unfold untouchedAt undefinedAt
  refine List.filter_congr fun r _ => ?_
  have same : ∀ s ∈ p.statements.take n, s.touches r = s.sets r := by
    intro s member
    have plain := simple s (List.mem_of_mem_take member)
    cases s with
    | simple s => simp [Statement.touches, Statement.scratch]
    | composite s => cases plain
  rw [Bool.not_inj_iff, Bool.eq_iff_iff, List.any_eq_true, List.any_eq_true]
  constructor
  · rintro ⟨s, member, touched⟩
    exact ⟨s, member, by rw [← same s member, touched]⟩
  · rintro ⟨s, member, set⟩
    exact ⟨s, member, by rw [same s member, set]⟩

end Shader
end Syntax

namespace Dialect

variable {c : Compiler} {source : String} {r : Reading} {p : Shader}

/-- Compiling a source that is read without error ends as recording its program does. -/
theorem compile_outcome (dialect : c.grammar = grammar)
    (accepted : linked.read source c.reading = (.ok (), r)) (represents : Represents r p) :
    (c.compile source).1 = (Log.recordAll [] (p.located r.tokens)).map fun _ => () := by
  obtain ⟨-, outcome⟩ := scan_represents represents
  rw [grammar_eq_linked] at dialect
  simp only [Compiler.compile_apply dialect, accepted, Assembler.assemble_apply]
  cases recorded : Log.recordAll [] (p.located r.tokens) with
  | ok log =>
    rw [recorded] at outcome
    obtain ⟨a, scanned, -, -⟩ := outcome
    simp only [scanned]
    rfl
  | error fault =>
    rw [recorded] at outcome
    obtain ⟨a, failed⟩ := outcome
    simp only [failed]
    rfl

/-- Compiling reports the first register that is read and that nothing in front changes. -/
theorem compile_reports_first (dialect : c.grammar = grammar)
    (accepted : linked.read source c.reading = (.ok (), r)) (represents : Represents r p) :
    ReportsFirst p.untouchedAt (opcodes r.tokens) (c.compile source).1 := by
  obtain ⟨placed, -⟩ := scan_represents represents
  have covered : (opcodes r.tokens).length = p.statements.length := by
    simpa using congrArg List.length placed
  rw [compile_outcome dialect accepted represents]
  have statements : (p.statements.zip (opcodes r.tokens)).map (·.1) = p.statements :=
    List.map_fst_zip (Nat.le_of_eq covered.symm)
  have tokens : (p.statements.zip (opcodes r.tokens)).map (·.2) = opcodes r.tokens :=
    List.map_snd_zip (Nat.le_of_eq covered)
  have harmless : ∀ front s back,
      (p.statements.zip (opcodes r.tokens)).map (·.1) = front ++ s :: back →
        s.isComposite = true → ([] ++ front).any (·.isMarker) = false := by
    intro front s back split composite
    rw [statements] at split
    exact represents.dialect.unmarked_composite split composite
  -- recording starts from an empty log, with nothing in front of the program
  have reports := Log.recordAll_reports p.isLegacy _ harmless
    (fun register => (rfl : Log.written [] register = _))
  rw [statements, tokens] at reports
  exact reports

/-- Compiling a source that the grammar accepts reports its first undefined read, at the opcode
of the statement that reads, and succeeds if there is none. This holds in ps.1.4 and, where no
statement stands for others, in the dialects before it. -/
theorem compile_reports_undefined_reads {c : Compiler} (dialect : c.grammar = grammar)
    {g : Grammar} (known : grammar = .ok g) {source : String} {r : Reading}
    (accepted : g.read source c.reading = (.ok (), r)) :
    (∃ p, Represents r p) ∧ ∀ p, Represents r p →
      (p.isLegacy = true → ∀ s ∈ p.statements, s.isComposite = false) →
        ((∃ register place, (c.compile source).1 = .error (.undefinedRead register place)) ↔
            ∃ n, p.undefinedAt n ≠ []) ∧
          ReportsFirst p.undefinedAt (opcodes r.tokens) (c.compile source).1 ∧
          (opcodes r.tokens).map Token.key = p.statements.map (·.layout.opcode.key) := by
  rw [grammar_eq_linked] at known
  cases known
  refine ⟨read_represents accepted, fun p represents legacySimple => ?_⟩
  have simple : ∀ s ∈ p.statements, s.isComposite = false := by
    cases legacy : p.isLegacy with
    | true => exact legacySimple legacy
    | false => exact represents.dialect.not_isComposite legacy
  have reports := compile_reports_first dialect accepted represents
  rw [Shader.untouchedAt_eq simple] at reports
  exact ⟨reports.exists_iff, reports, (scan_represents represents).1⟩

/-- Two sums behind the phase marker, the second one of registers that nothing has written. -/
def lateSum : Shader :=
  { version := .ps14
    definitions := []
    first :=
      { textures := [.current ⟨.texld, .r0, none, .interpolator .t0, none⟩]
        arithmetic := [] }
    second? := some
      { textures := []
        arithmetic :=
          [⟨none, .two, .add, ⟨none, none, .r0, none⟩,
              [plain (.temp .r0), plain (.temp .r0)], rfl⟩,
            ⟨none, .two, .add, ⟨none, none, .r0, none⟩,
              [plain (.temp .r2), plain (.temp .r1)], rfl⟩] } }

def lateSumText : String := "ps.1.4\ntexld r0, t0\nphase\nadd r0, r0, r0\nadd r0, r2, r1\n"

private theorem read_lateSumText :
    let read := linked.read lateSumText {}
    read.1 = .ok () ∧ read.2.tokens.map Token.key = lateSum.leaves.map Leaf.key ∧
      read.2.contexts = lateSum.finalContexts ∧
      read.2.constants.length = lateSum.leaves.countP (·.symbol == .value) ∧
      (opcodes read.2.tokens)[3]?.map (·.place) = some ⟨5, 41⟩ := by
  decide +kernel

private theorem represents_lateSum : Represents (linked.read lateSumText {}).2 lateSum where
  tokens := read_lateSumText.2.1
  dialect :=
    { first := by decide
      second := by
        rintro block ⟨rfl⟩
        decide }
  contexts := read_lateSumText.2.2.1
  constants := read_lateSumText.2.2.2.1

theorem compile_reports_undefined_reads_lateSum :
    grammar = .ok linked ∧ (linked.read lateSumText {}).1 = .ok () ∧
      Represents (linked.read lateSumText {}).2 lateSum ∧ lateSum.isLegacy = false ∧
      (Compiler.standard.compile lateSumText).1 = .error (.undefinedRead Code.r2 ⟨5, 41⟩) := by
  have facts := read_lateSumText
  have represents := represents_lateSum
  generalize read : linked.read lateSumText {} = out at facts represents ⊢
  obtain ⟨outcome, r⟩ := out
  obtain ⟨rfl, -, -, -, placed⟩ := facts
  refine ⟨grammar_eq_linked, rfl, represents, by decide, ?_⟩
  have fresh : Compiler.standard.reading = {} := rfl
  obtain ⟨-, reports⟩ := compile_reports_undefined_reads Compiler.grammar_standard
    grammar_eq_linked (fresh ▸ read)
  obtain ⟨-, ⟨reported, -⟩, -⟩ := reports lateSum represents (by decide)
  have lacking : lateSum.undefinedAt 3 = [Code.r2, Code.r1] := by decide
  obtain ⟨token, found, failed⟩ := reported 3 _ _ lacking (by decide)
  rw [found, Option.map_some, Option.some.injEq] at placed
  rw [failed, placed]

end Dialect

/-! ### Scratch registers -/

namespace Syntax.Shader

/-- A statement reads `r0` or `r1` of a dialect before ps.1.4 although no arithmetic in front of
it has written that register. -/
structure ReadsUnset (p : Shader) (n : Nat) (register : UInt32) : Prop where
  named : register ∈ [Symbol.ps11R0.code, Symbol.ps11R1.code]
  read : ∃ s, p.statements[n]? = some (.simple (.arithmetic s)) ∧ register ∈ s.reads
  unset : ∀ s, .simple (.arithmetic s) ∈ p.statements.take n → s.target.register.code ≠ register

variable {p : Shader}

theorem InDialect.first_legacy (dialect : p.InDialect) (legacy : p.isLegacy = true) :
    ∀ t ∈ p.first.textures, ∀ s, t ≠ .current s := by
  -- the contexts of these dialects leave out the opcodes of ps.1.4
  have closed : ∀ v ∈ Symbol.terminals .programType, (v != .ps14) = true →
      ∀ o ∈ Symbol.terminals .texOpPs14, o.contextKey &&& (Context.base ||| v.contextSet) = 0 := by
    decide
  rintro t member s rfl
  have listed : TextureStatement.statement (.current s) ∈ p.firstStatements :=
    List.mem_append_right _ (List.mem_append_left _ (List.mem_map_of_mem member))
  have opcode := dialect.first s.opcode.leaf (List.mem_flatMap.mpr ⟨_, listed, by
    simp [TextureStatement.statement, Statement.leaves, Statement.layout, Simple.layout,
      Layout.leaves]⟩)
  exact opcode (closed p.version.symbol p.version.member legacy s.opcode.symbol s.opcode.member)

/-- Before ps.1.4 only arithmetic has `r0` or `r1` as its destination. -/
theorem InDialect.arithmetic_of_target (dialect : p.InDialect) (legacy : p.isLegacy = true)
    {register : UInt32} (named : register ∈ [Symbol.ps11R0.code, Symbol.ps11R1.code])
    {s : Statement} (member : s ∈ p.statements) (target : s.target? = some register) :
    ∃ t, s = .simple (.arithmetic t) ∧ t.target.register.code = register := by
  have constants : ∀ t ∈ Symbol.terminals .constReg,
      t.code ∉ [Symbol.ps11R0.code, Symbol.ps11R1.code] := by decide
  have textures : ∀ t ∈ Symbol.terminals .texRegPs11,
      t.code ∉ [Symbol.ps11R0.code, Symbol.ps11R1.code] := by decide
  rw [dialect.statements_legacy legacy, firstStatements, Block.statements, List.mem_append,
    List.mem_append] at member
  rcases member with definition | texture | arithmetic
  · obtain ⟨t, -, rfl⟩ := List.mem_map.mp definition
    cases target
    exact absurd named (constants t.symbol t.member)
  · obtain ⟨t, inside, rfl⟩ := List.mem_map.mp texture
    cases t with
    | current u => exact absurd rfl (dialect.first_legacy legacy _ inside u)
    | legacy u =>
      cases target
      exact absurd named (textures u.target.symbol u.target.member)
    | composite u =>
      cases target
      exact absurd named (textures u.target.symbol u.target.member)
  · obtain ⟨t, -, rfl⟩ := List.mem_map.mp arithmetic
    cases target
    exact ⟨t, rfl, rfl⟩

/-- A read of a register that was not set is undefined unless the register was scratch. -/
theorem ReadsUnset.mem_untouchedAt (dialect : p.InDialect) (legacy : p.isLegacy = true) {n : Nat}
    {register : UInt32} (reads : p.ReadsUnset n register)
    (clean : ∀ s ∈ p.statements.take n, register ∉ s.scratch) : register ∈ p.untouchedAt n := by
  obtain ⟨t, found, read⟩ := reads.read
  refine List.mem_filter.mpr ⟨?_, ?_⟩
  · simp [lateReadsAt, found, Statement.lateReads, legacy, read]
  · -- what changes the register in front could only be arithmetic or scratch
    rw [Bool.not_eq_true', List.any_eq_false]
    intro s member touched
    simp only [Statement.touches, Statement.sets, Bool.or_eq_true, beq_iff_eq,
      List.contains_iff_mem] at touched
    rcases touched with target | scratch
    · obtain ⟨u, rfl, same⟩ := dialect.arithmetic_of_target legacy reads.named
        (List.mem_of_mem_take member) target
      exact reads.unset u member same
    · exact clean s member scratch

end Syntax.Shader

namespace Dialect

/-- Before ps.1.4, a read of `r0` or `r1` that no arithmetic has written is reported unless a
statement in front of it has used the register as scratch. What is reported at all are the
reads of registers that are neither destinations nor scratch of anything in front. -/
theorem compile_reports_unset_registers {c : Compiler} (dialect : c.grammar = grammar)
    {g : Grammar} (known : grammar = .ok g) {source : String} {r : Reading}
    (accepted : g.read source c.reading = (.ok (), r)) :
    (∃ p, Represents r p) ∧ ∀ p, Represents r p → p.isLegacy = true →
      (∀ n register, p.ReadsUnset n register →
          (∀ s ∈ p.statements.take n, register ∉ s.scratch) →
            ∃ other place, (c.compile source).1 = .error (.undefinedRead other place)) ∧
        ((∃ register place, (c.compile source).1 = .error (.undefinedRead register place)) ↔
          ∃ n register, register ∈ p.lateReadsAt n ∧
            ∀ s ∈ p.statements.take n, s.target? ≠ some register ∧ register ∉ s.scratch) := by
  rw [grammar_eq_linked] at known
  cases known
  refine ⟨read_represents accepted, fun p represents legacy => ?_⟩
  have reported := (compile_reports_first dialect accepted represents).exists_iff
  refine ⟨fun n register unset clean => reported.mpr ⟨n, ?_⟩, reported.trans ?_⟩
  · exact List.ne_nil_of_mem (unset.mem_untouchedAt represents.dialect legacy clean)
  · refine exists_congr fun n => ?_
    have listed : p.untouchedAt n ≠ [] ↔ ∃ register, register ∈ p.untouchedAt n :=
      ⟨List.exists_mem_of_ne_nil _, fun ⟨_, member⟩ => List.ne_nil_of_mem member⟩
    rw [listed]
    simp [Shader.untouchedAt, Statement.touches, Statement.sets]

/-- A row of a matrix, and then a move from a register that the program has not set. -/
def rowThenMove (register : Terminal .tempReg) : Shader :=
  { version := .ps11
    definitions := []
    first :=
      { textures := [.legacy ⟨.tex, .ps11T0⟩, .composite (.plain .texm3x2pad .ps11T1 .ps11T0)]
        arithmetic :=
          [⟨none, .one, .mov, ⟨none, none, .ps11R0, none⟩, [plain (.temp register)], rfl⟩] }
    second? := none }

theorem readsUnset_rowThenMove {register : Terminal .tempReg}
    (named : register.code ∈ [Symbol.ps11R0.code, Symbol.ps11R1.code]) :
    (rowThenMove register).ReadsUnset 2 register.code where
  named := named
  read := ⟨_, rfl, List.mem_singleton.mpr rfl⟩
  unset := by
    intro s member
    simp [Shader.statements, Shader.firstStatements, Block.statements, rowThenMove,
      TextureStatement.statement] at member

def moveR0Text : String := "ps.1.1\ntex t0\ntexm3x2pad t1, t0\nmov r0, r0\n"

def moveR1Text : String := "ps.1.1\ntex t0\ntexm3x2pad t1, t0\nmov r0, r1\n"

private theorem compile_moveTexts :
    let first := linked.read moveR0Text {}
    let second := Compiler.standard.compile moveR1Text
    (first.1 = .ok () ∧ first.2.tokens.map Token.key = (rowThenMove .ps11R0).leaves.map Leaf.key ∧
      first.2.contexts = (rowThenMove .ps11R0).finalContexts ∧
      first.2.constants.length = (rowThenMove .ps11R0).leaves.countP (·.symbol == .value)) ∧
    second.1 = .ok () ∧
      second.2.reading.tokens.map Token.key = (rowThenMove .ps11R1).leaves.map Leaf.key ∧
      second.2.reading.contexts = (rowThenMove .ps11R1).finalContexts ∧
      second.2.reading.constants.length =
        (rowThenMove .ps11R1).leaves.countP (·.symbol == .value) := by
  decide +kernel

/-- The row leaves `r0` alone, so the program learns that it has not set it. -/
theorem compile_reports_unset_registers_rowThenMove :
    grammar = .ok linked ∧ (linked.read moveR0Text {}).1 = .ok () ∧
      Represents (linked.read moveR0Text {}).2 (rowThenMove .ps11R0) ∧
      (rowThenMove .ps11R0).ReadsUnset 2 Symbol.ps11R0.code ∧
      ∃ register place,
        (Compiler.standard.compile moveR0Text).1 = .error (.undefinedRead register place) := by
  have facts := compile_moveTexts.1
  generalize read : linked.read moveR0Text {} = out at facts ⊢
  obtain ⟨outcome, r⟩ := out
  obtain ⟨rfl, tokens, contexts, constants⟩ := facts
  have represents : Represents r (rowThenMove .ps11R0) :=
    { tokens, contexts, constants
      dialect := { first := by decide, second := by rintro block ⟨⟩ } }
  have unset : (rowThenMove .ps11R0).ReadsUnset 2 Symbol.ps11R0.code :=
    readsUnset_rowThenMove (by decide)
  refine ⟨grammar_eq_linked, rfl, represents, unset, ?_⟩
  have fresh : Compiler.standard.reading = {} := rfl
  obtain ⟨-, reports⟩ := compile_reports_unset_registers Compiler.grammar_standard
    grammar_eq_linked (fresh ▸ read)
  exact (reports _ represents rfl).1 2 _ unset (by decide)

/-- A row keeps its value in the register behind `r1`, and a program that reads `r1` without
having set it compiles. -/
theorem scratch_not_always_hidden : ∃ source p,
    (Compiler.standard.compile source).1 = .ok () ∧
      Represents (Compiler.standard.compile source).2.reading p ∧ p.isLegacy = true ∧
      p.ReadsUnset 2 Symbol.ps11R1.code := by
  obtain ⟨accepted, tokens, contexts, constants⟩ := compile_moveTexts.2
  exact ⟨moveR1Text, rowThenMove .ps11R1, accepted,
    { tokens, contexts, constants
      dialect := { first := by decide, second := by rintro block ⟨⟩ } },
    rfl, readsUnset_rowThenMove (by decide)⟩

end Dialect
end PixelAsm
