import PixelAsm.Proofs.Orders
import PixelAsm.Proofs.Refinement

/-!
# Where a register comes from

Sampling at computed coordinates needs the second pass. A statement that does so in front of
the phase marker is overtaken by the statements behind it that stay in the first pass. For
each statement of a ps.1.4 program and each register we compare the statement that was the
last to write the register in the order of the source with the one that was last when the
program runs, and say exactly when they differ.
-/
namespace PixelAsm

open Syntax

/-- The registers that an instruction reads. -/
def Instruction.reads : Instruction → List UInt32
  | color _ _ operands | alpha _ _ operands => operands.map (·.register)
  | passTexCoord _ coordinate _ => [coordinate]
  | sampleMap _ interpolator _ => [interpolator]
  | setConstants _ _ => []

namespace Syntax.Shader

variable {p : Shader}

/-- A statement that reads the register gets it from another statement than its place in the
source says. In each case a statement of the second pass stands in front of one of the first,
which only sampling at computed coordinates can bring about. -/
inductive Hazard (p : Shader) (n : Nat) (register : UInt32) : Prop where
  /-- The register is read in the first pass, but the last to write it does so in the
  second. -/
  | readAfterWrite {writer : Nat} (last : p.sourceOrder.lastWriter? n register = some writer)
      (late : p.isLate writer = true) (early : p.isLate n = false)
  /-- The register is read in the second pass. The last to write it does so in the first, but
  a statement in front of that one writes it in the second. -/
  | writeAfterWrite {writer other : Nat}
      (last : p.sourceOrder.lastWriter? n register = some writer)
      (early : p.isLate writer = false) (late : p.isLate n = true)
      (writes : other ∈ p.sourceOrder.writers register) (before : other < writer)
      (overtaken : p.isLate other = true)
  /-- The register is read in the second pass. No statement in front has written it in the
  second pass last, but a statement behind writes it in the first. -/
  | writeAfterRead {other : Nat}
      (early : ∀ writer, p.sourceOrder.lastWriter? n register = some writer →
        p.isLate writer = false)
      (late : p.isLate n = true) (writes : other ∈ p.sourceOrder.writers register)
      (behind : n < other) (overtakes : p.isLate other = false)

private theorem latest_none_iff {n : Nat} {register : UInt32}
    (latest : Order.Latest id (· ∈ p.sourceOrder.writers register) n none)
    (last : p.sourceOrder.lastWriter? n register = none) :
    Order.Latest p.runKey (· ∈ p.sourceOrder.writers register) n none ↔
      ¬ p.Hazard n register := by
  constructor
  · intro first hazard
    cases hazard with
    | readAfterWrite same _ _ => simp [last] at same
    | writeAfterWrite same _ _ _ _ _ => simp [last] at same
    | writeAfterRead _ late writes behind overtakes =>
      have before := runKey_lt_iff.mpr (.inr ⟨overtakes, late⟩)
      exact absurd (first _ writes) (Nat.not_le.mpr before)
  · intro safe k writes
    have behind : n ≤ k := latest k writes
    refine Nat.le_of_not_lt fun before => safe ?_
    rcases runKey_lt_iff.mp before with ⟨-, inFront⟩ | ⟨early, late⟩
    · omega
    · have other : n ≠ k := by
        rintro rfl
        rw [early] at late
        cases late
      refine .writeAfterRead ?_ late writes (by omega) early
      simp [last]

private theorem latest_some_iff {n writer : Nat} {register : UInt32}
    (latest : Order.Latest id (· ∈ p.sourceOrder.writers register) n (some writer))
    (last : p.sourceOrder.lastWriter? n register = some writer) :
    Order.Latest p.runKey (· ∈ p.sourceOrder.writers register) n (some writer) ↔
      ¬ p.Hazard n register := by
  obtain ⟨writes, inFront, greatest⟩ := latest
  have inFront : writer < n := inFront
  have greatest {k : Nat} (also : k ∈ p.sourceOrder.writers register) (before : k < n) :
      k ≤ writer := greatest k also before
  constructor
  · rintro ⟨-, before, first⟩ hazard
    cases hazard with
    | readAfterWrite same late early =>
      obtain rfl : writer = _ := Option.some.inj (last.symm.trans same)
      rw [runKey_lt_iff, late, early] at before
      simp at before
    | writeAfterWrite same early late also inFrontOf overtaken =>
      obtain rfl : writer = _ := Option.some.inj (last.symm.trans same)
      have behind := first _ also (runKey_lt_iff.mpr (.inl ⟨overtaken.trans late.symm, by omega⟩))
      have ahead := runKey_lt_iff.mpr (.inr ⟨early, overtaken⟩)
      omega
    | writeAfterRead early late also behind overtakes =>
      have between := first _ also (runKey_lt_iff.mpr (.inr ⟨overtakes, late⟩))
      have ahead := runKey_lt_iff.mpr
        (.inl ⟨(early writer last).trans overtakes.symm, by omega⟩)
      omega
  · intro safe
    refine ⟨writes, ?_, fun k also before => Nat.le_of_not_lt fun between => safe ?_⟩
    · rw [runKey_lt_iff]
      cases late : p.isLate writer <;> cases lateN : p.isLate n
      · exact .inl ⟨rfl, inFront⟩
      · exact .inr ⟨rfl, rfl⟩
      · exact absurd (.readAfterWrite last late lateN) safe
      · exact .inl ⟨rfl, inFront⟩
    · -- another writer runs between the last one and the reader
      rcases runKey_lt_iff.mp between with ⟨same, behind⟩ | ⟨early, overtaken⟩
      · rcases runKey_lt_iff.mp before with ⟨-, inFrontOf⟩ | ⟨earlyK, lateN⟩
        · have bounded := greatest also inFrontOf
          omega
        · refine .writeAfterRead ?_ lateN also ?_ earlyK
          · intro other known
            rw [last] at known
            cases known
            exact same.trans earlyK
          · refine Nat.lt_of_not_le fun notBehind => ?_
            rcases Nat.lt_or_eq_of_le notBehind with inFrontOf | rfl
            · have bounded := greatest also inFrontOf
              omega
            · rw [earlyK] at lateN
              cases lateN
      · rcases runKey_lt_iff.mp before with ⟨same, inFrontOf⟩ | ⟨earlyK, -⟩
        · have bounded := greatest also inFrontOf
          refine .writeAfterWrite last early (same.symm.trans overtaken) also ?_ overtaken
          refine Nat.lt_of_le_of_ne bounded ?_
          rintro rfl
          rw [early] at overtaken
          cases overtaken
        · rw [earlyK] at overtaken
          cases overtaken

/-- The last writer is the same in both orders unless there is a hazard. -/
theorem lastWriter?_runOrder_iff (dialect : p.InDialect) (modern : p.isLegacy = false) {n : Nat}
    {i : Issue} (member : (n, i) ∈ p.numbered) (register : UInt32) :
    p.runOrder.lastWriter? n register = p.sourceOrder.lastWriter? n register ↔
      ¬ p.Hazard n register := by
  -- both orders are sorted, one by number and one by pass, so a last writer is a greatest key
  have written : (some n, i.instruction) ∈ p.sourceOrder := mem_sourceOrder.mpr ⟨i.stage, member⟩
  have latest := Order.lastWriter?_latest (fun _ _ same => same) p.sorted_sourceOrder
    ⟨_, written⟩ register
  rw [Order.lastWriter?_eq_iff runKey_injective (sorted_runOrder dialect modern)
    ⟨_, mem_runOrder.mpr written⟩ register]
  simp only [mem_writers_runOrder]
  cases last : p.sourceOrder.lastWriter? n register with
  | none =>
    rw [last] at latest
    exact latest_none_iff latest last
  | some writer =>
    rw [last] at latest
    exact latest_some_iff latest last

/-- Only sampling at computed coordinates in front of the phase marker leads to a hazard. -/
theorem Hazard.exists_dependent {n : Nat} {i : Issue} (member : (n, i) ∈ p.numbered)
    {register : UInt32} (hazard : p.Hazard n register) :
    ∃ s ∈ p.firstStatements, s.isDependent = true := by
  -- a statement of the first block is late only because of its coordinates
  have dependent {m : Nat} (late : p.isLate m = true) (inFirst : m < p.firstStatements.length) :
      ∃ s ∈ p.firstStatements, s.isDependent = true := by
    have notBehind : ¬ p.firstStatements.length ≤ m := Nat.not_le.mpr inFirst
    simp only [isLate, notBehind, decide_false, Bool.false_or, Option.any_eq_true] at late
    obtain ⟨s, found, samples⟩ := late
    exact ⟨s, List.mem_of_getElem? found, samples⟩
  have latest := Order.lastWriter?_latest (fun _ _ same => same) p.sorted_sourceOrder
    ⟨_, mem_sourceOrder.mpr ⟨i.stage, member⟩⟩ register
  cases hazard with
  | readAfterWrite last late early =>
    rw [last] at latest
    exact dependent late (Nat.lt_trans latest.2.1 (lt_of_not_isLate early))
  | writeAfterWrite last early late writes before overtaken =>
    exact dependent overtaken (Nat.lt_trans before (lt_of_not_isLate early))
  | writeAfterRead early late writes behind overtakes =>
    exact dependent late (Nat.lt_trans behind (lt_of_not_isLate overtakes))

end Syntax.Shader

namespace Dialect

/-- In a ps.1.4 program that compiles, each statement finds a register as the source says
unless there is a hazard, and in a hazard it does not. The order in which the program runs is
that of its queues. -/
theorem compile_keeps_writers (c : Compiler) (dialect : c.grammar = grammar) (source : String)
    (accepted : (c.compile source).1 = .ok ()) :
    (∃ p, Represents (c.compile source).2.reading p) ∧
      ∀ p, Represents (c.compile source).2.reading p → p.isLegacy = false →
        ((c.compile source).2.schedule.Decodes fun stage => (p.queued stage).map (·.2)) ∧
        ∀ n i, (n, i) ∈ p.numbered → ∀ register,
          (p.runOrder.lastWriter? n register = p.sourceOrder.lastWriter? n register ↔
            ¬ p.Hazard n register) := by
  obtain ⟨-, -, exists_program, -⟩ := compile_shows_log dialect accepted
  refine ⟨exists_program, fun p represents modern => ⟨?_, fun n i member register => ?_⟩⟩
  · have same : p.delivered = fun stage => (p.queued stage).map (·.2) := by
      funext stage
      rw [p.map_queued, Shader.delivered, modern]
      simp
    rw [← same]
    exact compile_decodes dialect accepted represents
  · exact Shader.lastWriter?_runOrder_iff represents.dialect modern member register

/-- Nothing in this program is overtaken, so every register comes from where the source
says. -/
theorem compile_keeps_writers_twoPass :
    (Compiler.standard.compile twoPassText).1 = .ok () ∧
      ∀ n i, (n, i) ∈ twoPass.numbered → ∀ register,
        twoPass.runOrder.lastWriter? n register = twoPass.sourceOrder.lastWriter? n register := by
  have accepted := compile_twoPassText.1
  refine ⟨accepted, fun n i member register => ?_⟩
  obtain ⟨-, kept⟩ := compile_keeps_writers _ Compiler.grammar_standard _ accepted
  refine ((kept twoPass represents_twoPass rfl).2 n i member register).mpr fun hazard => ?_
  obtain ⟨s, inside, dependent⟩ := hazard.exists_dependent member
  have independent : ∀ s ∈ twoPass.firstStatements, s.isDependent = false := by decide
  rw [independent s inside] at dependent
  cases dependent

/-- The arithmetic reads what is sampled at computed coordinates, but overtakes the sampling. -/
def overtaken : Shader :=
  { version := .ps14
    definitions := []
    first :=
      { textures :=
          [.current ⟨.texcrd, .r0, some rgb, .interpolator .t0, none⟩,
           .current ⟨.texld, .r1, none, .temp .r0, none⟩]
        arithmetic := [⟨none, .one, .mov, ⟨none, none, .r2, none⟩, [plain (.temp .r1)], rfl⟩] }
    second? := none }

def overtakenText : String := "ps.1.4\ntexcrd r0.rgb, t0\ntexld r1, r0\nmov r2, r1\n"

private theorem compile_overtakenText :
    let out := Compiler.standard.compile overtakenText
    out.1 = .ok () ∧ out.2.reading.tokens.map Token.key = overtaken.leaves.map Leaf.key ∧
      out.2.reading.contexts = overtaken.finalContexts ∧
      out.2.reading.constants.length = overtaken.leaves.countP (·.symbol == .value) := by
  decide +kernel

private theorem represents_overtaken :
    Represents (Compiler.standard.compile overtakenText).2.reading overtaken where
  tokens := compile_overtakenText.2.1
  dialect := { first := by decide +kernel, second := by rintro block ⟨⟩ }
  contexts := compile_overtakenText.2.2.1
  constants := compile_overtakenText.2.2.2

/-- Statements do not always find the registers that they read as the source says. -/
theorem writers_not_always_kept : ¬ ∀ (source : String) (p : Shader),
    (Compiler.standard.compile source).1 = .ok () →
      Represents (Compiler.standard.compile source).2.reading p → p.isLegacy = false →
        ∀ n i, (n, i) ∈ p.numbered → ∀ register ∈ i.instruction.reads,
          Code.isTemp register = true →
            p.runOrder.lastWriter? n register = p.sourceOrder.lastWriter? n register := by
  intro kept
  have move : (2, ⟨.alu1, .alpha Symbol.mov.code ⟨Code.r2, 0⟩ [⟨Code.r1, 0, 0⟩]⟩) ∈
      overtaken.numbered := by decide
  have same := kept overtakenText overtaken compile_overtakenText.1 represents_overtaken rfl _ _
    move Code.r1 (by decide) (by decide)
  have run : overtaken.runOrder.lastWriter? 2 Code.r1 = none := by decide
  have written : overtaken.sourceOrder.lastWriter? 2 Code.r1 = some 1 := by decide
  rw [run, written] at same
  cases same

end Dialect
end PixelAsm
