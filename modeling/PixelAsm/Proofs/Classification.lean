import PixelAsm.Proofs.Acceptance
import PixelAsm.Proofs.Compilation

/-!
# How compiling a source can end

A source is refused if it is too large, if it does not start with a version, or if the
grammar matches only a part of it. A source that is matched in full compiles, unless it
reads a register that was never written. Nothing else can go wrong.
-/
namespace PixelAsm

open Syntax

/-- The error can come from the text of a source. -/
def CompileError.isReachable : CompileError → Bool
  | .sourceTooLarge _ _ | .rejected | .trailingInput _ | .undefinedRead _ _ => true
  | .noGrammar | .grammar _ | .endlessRecursion | .pipeNotCleared _ | .operandOverflow _
  | .missingOperand _ _ | .badOperandCount _ _ | .expansionOperand _ _ | .missingConstants _ _
  | .unexpectedToken _ => false

namespace Dialect

/-- The grammar matches the source from its beginning, and tells whether more than trivia
is left. -/
def Matches (bytes : List UInt8) (more : Bool) : Prop :=
  ∃ g p, grammar = .ok g ∧ g.matchSource bytes = some (true, p) ∧ p.reader.skipTrivia.1 = more

private theorem matches_linked {bytes : List UInt8} {more : Bool} (found : Matches bytes more) :
    ∃ p, linked.matchSource bytes = some (true, p) ∧ p.reader.skipTrivia.1 = more := by
  obtain ⟨g, p, known, matched, left⟩ := found
  rw [grammar_eq_linked] at known
  cases known
  exact ⟨p, matched, left⟩

/-- What is left of a source that is matched is left for good. -/
theorem Matches.unique {bytes : List UInt8} {more other : Bool} (first : Matches bytes more)
    (second : Matches bytes other) : more = other := by
  obtain ⟨p, matched, rfl⟩ := matches_linked first
  obtain ⟨q, again, rfl⟩ := matches_linked second
  rw [matched] at again
  cases again
  rfl

theorem Matches.startsWithVersion {bytes : List UInt8} {more : Bool}
    (found : Matches bytes more) : StartsWithVersion bytes := by
  obtain ⟨p, matched, -⟩ := matches_linked found
  exact (matchSource_verdict matched).mp rfl

/-- Assembling a reading of the shader grammar can only fail at a read. -/
theorem assemble_outcome {r : Reading} {p : Shader} (represents : Represents r p)
    (before : Assembler) :
    (∃ a, Assembler.assemble linked r before = .ok () a) ∨
      ∃ register place a,
        Assembler.assemble linked r before = .error (.undefinedRead register place) a := by
  obtain ⟨-, outcome⟩ := scan_represents represents
  rw [Assembler.assemble_apply]
  cases recorded : Log.recordAll [] (p.located r.tokens) with
  | ok log =>
    rw [recorded] at outcome
    obtain ⟨a, scanned, -, -⟩ := outcome
    rw [scanned]
    exact .inl ⟨_, rfl⟩
  | error fault =>
    rw [recorded] at outcome
    obtain ⟨a, failed⟩ := outcome
    obtain ⟨register, place, rfl⟩ := Log.recordAll_error recorded
    rw [failed]
    exact .inr ⟨register, place, a, rfl⟩

/-- The ways in which compiling a source ends. -/
private theorem outcome_cases (source : String) :
    let bytes := utf8 source
    let outcome := (Compiler.standard.compile source).1
    (sourceLimit < bytes.length ∧ outcome = .error (.sourceTooLarge bytes.length sourceLimit)) ∨
    (bytes.length ≤ sourceLimit ∧ ¬ StartsWithVersion bytes ∧ outcome = .error .rejected) ∨
    (bytes.length ≤ sourceLimit ∧ Matches bytes true ∧
      ∃ place, outcome = .error (.trailingInput place)) ∨
    (bytes.length ≤ sourceLimit ∧ Matches bytes false ∧
      (outcome = .ok () ∨ ∃ register place, outcome = .error (.undefinedRead register place))) := by
  dsimp only
  -- matching always ends, so the bound on nesting is never the outcome
  obtain ⟨verdict, p, matched⟩ := matchSource_total (utf8 source)
  have decided := matchSource_verdict matched
  rw [Compiler.compile_apply Compiler.linked_standard]
  by_cases large : sourceLimit < (utf8 source).length
  · refine .inl ⟨large, ?_⟩
    simp only [Grammar.read, if_pos large]
  · have small : (utf8 source).length ≤ sourceLimit := Nat.le_of_not_lt large
    have read : linked.read source Compiler.standard.reading =
        (Grammar.verdict verdict p, p.reading) := by
      simp only [Grammar.read, if_neg large, matched]
    cases verdict with
    | false =>
      refine .inr (.inl ⟨small, fun starts => Bool.false_ne_true (decided.mpr starts), ?_⟩)
      rw [read]
      rfl
    | true =>
      have found : Matches (utf8 source) p.reader.skipTrivia.1 :=
        ⟨linked, p, grammar_eq_linked, matched, rfl⟩
      cases left : p.reader.skipTrivia with
      | mk more next =>
        rw [left] at found
        cases more with
        | true =>
          refine .inr (.inr (.inl ⟨small, found, ⟨next.line, next.offset⟩, ?_⟩))
          rw [read]
          simp only [Grammar.verdict, left]
          rfl
        | false =>
          refine .inr (.inr (.inr ⟨small, found, ?_⟩))
          have passed : Grammar.verdict true p = .ok () := by
            simp only [Grammar.verdict, left]
            rfl
          -- the whole source is a program, which the assembler can only refuse at a read
          obtain ⟨program, represents⟩ := matchRule_root_represents matched
          rw [read, passed]
          dsimp only
          rcases assemble_outcome represents _ with ⟨a, assembled⟩ | ⟨register, place, a, failed⟩
          · rw [assembled]
            exact .inl rfl
          · rw [failed]
            exact .inr ⟨register, place, rfl⟩

/-- Which error, if any, a source leads to. -/
structure Classified (bytes : List UInt8) (outcome : Except CompileError Unit) : Prop where
  tooLarge : (∃ size limit, outcome = .error (.sourceTooLarge size limit)) ↔ 65536 < bytes.length
  rejected : outcome = .error .rejected ↔ bytes.length ≤ 65536 ∧ ¬ StartsWithVersion bytes
  trailing : (∃ place, outcome = .error (.trailingInput place)) ↔
    bytes.length ≤ 65536 ∧ Matches bytes true
  assembled : bytes.length ≤ 65536 → Matches bytes false →
    outcome = .ok () ∨ ∃ register place, outcome = .error (.undefinedRead register place)
  /-- A source that starts with a version is matched, in part or in full. -/
  matched : StartsWithVersion bytes → Matches bytes true ∨ Matches bytes false
  reachable : ∀ fault, outcome = .error fault → fault.isReachable = true

/-- Every source is classified. -/
theorem compile_classified (source : String) :
    Classified (utf8 source) (Compiler.standard.compile source).1 := by
  have covered : StartsWithVersion (utf8 source) →
      Matches (utf8 source) true ∨ Matches (utf8 source) false := by
    intro starts
    obtain ⟨verdict, p, matched⟩ := matchSource_total (utf8 source)
    rw [(matchSource_verdict matched).mpr starts] at matched
    have found : Matches (utf8 source) p.reader.skipTrivia.1 :=
      ⟨linked, p, grammar_eq_linked, matched, rfl⟩
    cases more : p.reader.skipTrivia.1 with
    | true => exact .inl (more ▸ found)
    | false => exact .inr (more ▸ found)
  -- each outcome is of one kind, which settles the other fields
  rcases outcome_cases source with ⟨large, outcome⟩ | ⟨small, unversioned, outcome⟩ |
    ⟨small, part, place, outcome⟩ | ⟨small, whole, done | ⟨register, place, failed⟩⟩
  · have large : 65536 < (utf8 source).length := large
    have notSmall : ¬ (utf8 source).length ≤ 65536 := Nat.not_le.mpr large
    rw [outcome]
    exact
      { tooLarge := by simp [large]
        rejected := by simp [notSmall]
        trailing := by simp [notSmall]
        assembled := fun small => absurd small notSmall
        matched := covered
        reachable := by simp [CompileError.isReachable] }
  · have small : (utf8 source).length ≤ 65536 := small
    have neither {more : Bool} (found : Matches (utf8 source) more) : False :=
      unversioned found.startsWithVersion
    rw [outcome]
    exact
      { tooLarge := by simpa using small
        rejected := by simp [small, unversioned]
        trailing := by simpa using fun _ => neither
        assembled := fun _ whole => (neither whole).elim
        matched := covered
        reachable := by simp [CompileError.isReachable] }
  · have small : (utf8 source).length ≤ 65536 := small
    rw [outcome]
    exact
      { tooLarge := by simpa using small
        rejected := by simp [part.startsWithVersion]
        trailing := by simp [small, part]
        assembled := fun _ whole => absurd (part.unique whole) (by decide)
        matched := covered
        reachable := by simp [CompileError.isReachable] }
  · have small : (utf8 source).length ≤ 65536 := small
    have notPart : ¬ Matches (utf8 source) true :=
      fun part => absurd (part.unique whole) (by decide)
    rw [done]
    exact
      { tooLarge := by simpa using small
        rejected := by simp [whole.startsWithVersion]
        trailing := by simp [notPart]
        assembled := fun _ _ => .inl rfl
        matched := covered
        reachable := by simp }
  · have small : (utf8 source).length ≤ 65536 := small
    have notPart : ¬ Matches (utf8 source) true :=
      fun part => absurd (part.unique whole) (by decide)
    rw [failed]
    exact
      { tooLarge := by simpa using small
        rejected := by simp [whole.startsWithVersion]
        trailing := by simp [notPart]
        assembled := fun _ _ => .inr ⟨register, place, rfl⟩
        matched := covered
        reachable := by simp [CompileError.isReachable] }

end Dialect
end PixelAsm
