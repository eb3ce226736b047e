import PixelAsm.Proofs.Parsing
import PixelAsm.Proofs.Scanning

/-!
# Compiling a program of the dialects

A source that is read without error is the text of a program, and the outcome of
assembling it is the outcome of recording the program's contributions in an empty log.
-/
namespace PixelAsm

open Syntax

namespace Syntax.Shader

/-- The contributions of the program, each at the place of the opcode of its statement. -/
def located (p : Shader) (tokens : List Token) : List (Place × Issue) :=
  locatedBehind p.isLegacy [] (p.statements.zip (opcodes tokens))

theorem map_located (p : Shader) {tokens : List Token}
    (placed : (opcodes tokens).map Token.key = p.statements.map (·.layout.opcode.key)) :
    (p.located tokens).map (·.2) = p.issues := by
  have covered : (opcodes tokens).length = p.statements.length := by
    simpa using congrArg List.length placed
  rw [located, map_locatedBehind, List.map_fst_zip (Nat.le_of_eq covered.symm)]
  rfl

end Syntax.Shader

namespace Dialect

private theorem legacy_of_contexts (p : Shader) :
    (p.finalContexts &&& Context.ps11 != 0) = p.isLegacy := by
  -- the phase marker does not touch the bit that tells the dialects apart
  have opened : ∀ t ∈ Symbol.terminals .programType,
      ((Context.base ||| t.contextSet) &&& Context.ps11 != 0) = (t != .ps14) ∧
        ((Context.base ||| t.contextSet) &&& ~~~Context.phase1 &&& Context.ps11 != 0) =
          (t != .ps14) := by
    decide
  obtain ⟨whole, marked⟩ := opened p.version.symbol p.version.member
  unfold Shader.finalContexts Shader.openContexts
  split
  · exact marked
  · exact whole

private theorem literalsIn_statements (p : Shader) :
    literalsIn p.statements = p.leaves.countP (·.symbol == .value) := by
  have version : ∀ t ∈ Symbol.terminals .programType, t ≠ .value := by decide
  have own : p.version.leaf.symbol ≠ .value := version p.version.symbol p.version.member
  rw [Shader.leaves, List.countP_cons_of_neg (by simpa using own)]
  rfl

/-- Assembling the reading of a program records its contributions, statement by statement. -/
theorem scan_represents {r : Reading} {p : Shader} (represents : Represents r p) :
    (opcodes r.tokens).map Token.key = p.statements.map (·.layout.opcode.key) ∧
      match Log.recordAll [] (p.located r.tokens) with
      | .ok log => ∃ a, Assembly.scan linked.code Assembler.templateDepth r.tokens (.start r) =
          .ok () a ∧ a.Shows log ∧ a.legacy = p.isLegacy
      | .error fault => ∃ a,
          Assembly.scan linked.code Assembler.templateDepth r.tokens (.start r) =
            .error fault a := by
  -- at the start no statement is behind the assembler
  have behind : (Assembler.start r).control.Behind p.isLegacy [] :=
    ⟨rfl, by rw [← legacy_of_contexts, ← represents.contexts]; rfl, rfl, rfl, rfl, rfl⟩
  have enough : literalsIn p.statements ≤ (Assembler.start r).control.poolSize := by
    rw [literalsIn_statements, ← represents.constants]
    exact Nat.le_refl _
  obtain ⟨placed, after, follows, behindAll⟩ :=
    Assembly.scan_follows code_id p.version.leaf rfl p.statements represents.tokens behind enough
  refine ⟨placed, ?_⟩
  have scanned := follows (.start r) [] (Assembler.shows_empty rfl rfl rfl) rfl
  rw [← Shader.located] at scanned
  cases recorded : Log.recordAll [] (p.located r.tokens) with
  | error fault =>
    rw [recorded] at scanned
    exact scanned
  | ok log =>
    rw [recorded] at scanned
    obtain ⟨a, passed, shown, control⟩ := scanned
    refine ⟨a, passed, shown, ?_⟩
    rw [← behindAll.legacy, ← control]
    rfl

end Dialect

/-! ### Compilers -/

namespace Compiler

instance : DecidableEq (Except CompileError Unit)
  | .ok (), .ok () => isTrue rfl
  | .error fault, .error other => decidable_of_iff (fault = other) (by simp)
  | .ok (), .error _ => isFalse (by simp)
  | .error _, .ok () => isFalse (by simp)

theorem grammar_standard : standard.grammar = Dialect.grammar := by
  rw [standard]

theorem linked_standard : standard.grammar = .ok Dialect.linked :=
  grammar_standard.trans Dialect.grammar_eq_linked

/-- The assembler behind the last token of a source that compiles, with the queues as the
tokens have left them. -/
def scanned? (c : Compiler) (source : String) : Option Assembler :=
  match c.grammar with
  | .error _ => none
  | .ok g =>
    match g.read source c.reading with
    | (.error _, _) => none
    | (.ok (), reading) =>
      match Assembly.scan g.code Assembler.templateDepth reading.tokens (.start reading) with
      | .ok () a => some a
      | .error _ _ => none

/-- The queues of a compiled source are those behind the last token, except that in the
dialects before ps.1.4 the last destination is changed. -/
theorem compile_scanned {c : Compiler} {source : String}
    (accepted : (c.compile source).1 = .ok ()) :
    ∃ a, c.scanned? source = some a ∧
      (c.compile source).2.schedule = (if a.legacy then a.retarget else a).schedule := by
  revert accepted
  unfold compile scanned?
  -- each step of both functions looks at the same result
  cases c.grammar with
  | error fault =>
    intro accepted
    cases accepted
  | ok g =>
    dsimp only
    obtain ⟨verdict, reading⟩ := g.read source c.reading
    cases verdict with
    | error fault =>
      intro accepted
      cases accepted
    | ok value =>
      simp only [Assembler.assemble_apply]
      cases Assembly.scan g.code Assembler.templateDepth reading.tokens (.start reading) with
      | error fault a =>
        intro accepted
        cases accepted
      | ok value a =>
        intro _
        exact ⟨a, rfl, rfl⟩

end Compiler

namespace Dialect

variable {c : Compiler} {source : String}

theorem read_of_compile (dialect : c.grammar = grammar)
    (accepted : (c.compile source).1 = .ok ()) :
    linked.read source c.reading = (.ok (), (c.compile source).2.reading) := by
  rw [grammar_eq_linked] at dialect
  rw [Compiler.compile_apply dialect] at accepted ⊢
  split at accepted
  · cases accepted
  next reading read =>
    rw [read]
    split <;> rfl

/-- The queues behind the last token show the log of any program that the source is a text
of, and there is such a program. -/
theorem compile_shows_log (dialect : c.grammar = grammar)
    (accepted : (c.compile source).1 = .ok ()) :
    ∃ a, c.scanned? source = some a ∧ (∃ p, Represents (c.compile source).2.reading p) ∧
      ∀ p, Represents (c.compile source).2.reading p →
        ∃ (located : List (Place × Issue)) (log : List Issue), located.map (·.2) = p.issues ∧
          Log.recordAll [] located = .ok log ∧ a.Shows log ∧ a.legacy = p.isLegacy := by
  have read := read_of_compile dialect accepted
  obtain ⟨a, scanned, -⟩ := Compiler.compile_scanned accepted
  refine ⟨a, scanned, read_represents read, fun p represents => ?_⟩
  -- the tokens that were scanned are those of the reading that is kept
  have passed : Assembly.scan linked.code Assembler.templateDepth
      (c.compile source).2.reading.tokens (.start (c.compile source).2.reading) = .ok () a := by
    unfold Compiler.scanned? at scanned
    rw [dialect, grammar_eq_linked] at scanned
    simp only [read] at scanned
    split at scanned
    next b passed =>
      cases scanned
      exact passed
    · cases scanned
  obtain ⟨placed, outcome⟩ := scan_represents represents
  refine ⟨p.located (c.compile source).2.reading.tokens, ?_⟩
  cases recorded : Log.recordAll [] (p.located (c.compile source).2.reading.tokens) with
  | error fault =>
    rw [recorded] at outcome
    obtain ⟨b, failed⟩ := outcome
    rw [passed] at failed
    cases failed
  | ok log =>
    rw [recorded] at outcome
    obtain ⟨b, same, shown, legacy⟩ := outcome
    rw [passed] at same
    cases same
    exact ⟨log, p.map_located placed, rfl, shown, legacy⟩

/-! ### A program of two passes -/

/-- The second pass adds what the first one has sampled and moved. -/
def twoPass : Shader :=
  { version := .ps14
    definitions := []
    first :=
      { textures := [.current ⟨.texld, .r0, none, .interpolator .t0, none⟩]
        arithmetic := [⟨none, .one, .mov, ⟨none, none, .r1, none⟩, [plain (.temp .r0)], rfl⟩] }
    second? := some
      { textures := []
        arithmetic := [⟨none, .two, .add, ⟨none, none, .r0, none⟩,
          [plain (.temp .r1), plain (.temp .r0)], rfl⟩] } }

def twoPassText : String := "ps.1.4\ntexld r0, t0\nmov r1, r0\nphase\nadd r0, r1, r0\n"

/-- The text compiles to the leaves of the program, and two registers are handed on. -/
theorem compile_twoPassText :
    let out := Compiler.standard.compile twoPassText
    out.1 = .ok () ∧ out.2.reading.tokens.map Token.key = twoPass.leaves.map Leaf.key ∧
      out.2.reading.contexts = twoPass.finalContexts ∧
      out.2.reading.constants.length = twoPass.leaves.countP (·.symbol == .value) ∧
      (out.2.schedule.get .texture2).records.length = 2 := by
  decide +kernel

theorem represents_twoPass :
    Represents (Compiler.standard.compile twoPassText).2.reading twoPass where
  tokens := compile_twoPassText.2.1
  dialect :=
    { first := by decide +kernel
      second := by
        rintro block ⟨rfl⟩
        decide +kernel }
  contexts := compile_twoPassText.2.2.1
  constants := compile_twoPassText.2.2.2.1

end Dialect
end PixelAsm
