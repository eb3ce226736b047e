import PixelAsm.Proofs.Evaluation

/-!
# Rules as transactions

Giving up a rule cuts the accepted tokens and constants back to the sizes at its entry. This
restores what was there only if nothing in between has cut deeper or changed what is kept, and
that follows from what every terminal does. No assumption on the grammar is needed; a rule
without an end fails, and a failed rule gives everything back.
-/
namespace PixelAsm

namespace Trail

variable {α : Type}

theorem toList_prefix_iff {s t : Trail α} :
    s.toList <+: t.toList ↔ s.newestFirst <:+ t.newestFirst := List.reverse_prefix

end Trail

namespace Grammar

/-- The reader comes no nearer to the beginning, even if it stood past the end of the source. -/
theorem offset_le_of_follows {p next : Progress} (follows : p.Follows next)
    (reaches : p.reader.Reaches next.reader) : p.reader.offset ≤ next.reader.offset := by
  rcases follows.moved with rfl | closer
  · exact Nat.le_refl _
  · have size := reaches.1
    unfold Reader.remaining at closer
    omega

/-- A terminal that is refused leaves the reader where it was or behind the trivia it has passed,
and everything else as it was. -/
theorem matchTerm_refused {g : Grammar} {enter : Nat → Progress → Attempt} {owner : SymbolId}
    {term : Term} {p next : Progress}
    (terminal : ∀ entry, g.symbol? term.symbol = some entry → entry.ruleIndex? = none)
    (refused : g.matchTerm enter owner term p = some (false, next)) :
    next = p ∨ next = { p with reader := p.reader.skipTrivia.2 } := by
  unfold matchTerm at refused
  split at refused
  · cases refused
    exact .inl rfl
  next entry known =>
    split at refused
    · cases refused
      exact .inl rfl
    · rw [terminal entry known] at refused
      have tries := g.tries_matchTerminal term entry.definition owner p
      rw [Option.some.inj refused] at tries
      -- of the things that trying a terminal can come to, only one is a refusal
      cases tries with
      | refused => exact .inr rfl

/-- Evaluating a rule is a transaction. If the rule fails, the tokens, constants, contexts and the
place in the source are those at its entry. If it holds, the tokens and constants at its entry are
the first ones of those it leaves, and the reader has not gone back. A terminal that fails moves
the reader at most over the trivia in front of it. -/
theorem matchRule_transactional (g : Grammar) (p : Progress) :
    (∀ depth index next, g.matchRule depth index p = some (false, next) → next = p) ∧
    (∀ depth index next, g.matchRule depth index p = some (true, next) →
      p.tokens.toList <+: next.tokens.toList ∧ p.constants.toList <+: next.constants.toList ∧
        p.reader.offset ≤ next.reader.offset) ∧
    ∀ (enter : Nat → Progress → Attempt) (owner : SymbolId) (term : Term) (next : Progress),
      (∀ entry, g.symbol? term.symbol = some entry → entry.ruleIndex? = none) →
      g.matchTerm enter owner term p = some (false, next) →
        next.tokens = p.tokens ∧ next.constants = p.constants ∧ next.contexts = p.contexts ∧
          (next.reader = p.reader ∨ next.reader = p.reader.skipTrivia.2) := by
  refine ⟨fun depth index next failed => ?_, fun depth index next held => ?_,
    fun enter owner term next terminal refused => ?_⟩
  · exact g.matchRule_restores failed
  · have follows := g.matchRule_keeps depth index p true next held
    refine ⟨Trail.toList_prefix_iff.mpr follows.tokens,
      Trail.toList_prefix_iff.mpr follows.constants, ?_⟩
    exact offset_le_of_follows follows (g.matchRule_moves depth index p true next held)
  · rcases matchTerm_refused terminal refused with rfl | rfl
    · exact ⟨rfl, rfl, rfl, .inl rfl⟩
    · exact ⟨rfl, rfl, rfl, .inr rfl⟩

/-- In front of a definition that lacks its last two numerals. -/
def shortDefinition : Progress := Dialect.linked.start (utf8 "; twice\ndef c0, 1, 2\n")

/-- The definition fails behind six tokens, its opcode alone holds, and a comma is
refused behind the comment. -/
private theorem match_shortDefinition :
    Dialect.linked.step? 16 = some (.rule Symbol.defStmt.id) ∧
      (Dialect.linked.matchRule 8 16 shortDefinition).map (·.1) = some false ∧
      Dialect.linked.step? 28 = some (.rule Symbol.defOp.id) ∧
      (Dialect.linked.matchRule 8 28 shortDefinition).map (·.1) = some true ∧
      (Dialect.entry .comma).ruleIndex? = none ∧
      (Dialect.linked.matchTerm (Dialect.linked.matchRule 8) Symbol.separator.id
        (Dialect.spelled .comma ",") shortDefinition).map (·.1) = some false := by
  decide +kernel

theorem matchRule_transactional_shortDefinition :
    (Dialect.linked.step? 16 = some (.rule Symbol.defStmt.id) ∧
      ∃ next, Dialect.linked.matchRule 8 16 shortDefinition = some (false, next) ∧
        next = shortDefinition) ∧
    (Dialect.linked.step? 28 = some (.rule Symbol.defOp.id) ∧
      ∃ next, Dialect.linked.matchRule 8 28 shortDefinition = some (true, next) ∧
        shortDefinition.tokens.toList <+: next.tokens.toList ∧
        shortDefinition.constants.toList <+: next.constants.toList ∧
        shortDefinition.reader.offset ≤ next.reader.offset) ∧
    (∀ entry, Dialect.linked.symbol? Symbol.comma.id = some entry → entry.ruleIndex? = none) ∧
    ∃ next, Dialect.linked.matchTerm (Dialect.linked.matchRule 8) Symbol.separator.id
        (Dialect.spelled .comma ",") shortDefinition = some (false, next) ∧
      next.tokens = shortDefinition.tokens ∧ next.constants = shortDefinition.constants ∧
      next.contexts = shortDefinition.contexts ∧
      (next.reader = shortDefinition.reader ∨
        next.reader = shortDefinition.reader.skipTrivia.2) := by
  obtain ⟨definition, short, opcode, alone, noRule, comma⟩ := match_shortDefinition
  obtain ⟨failure, success, refusal⟩ := matchRule_transactional Dialect.linked shortDefinition
  have terminal : ∀ entry, Dialect.linked.symbol? Symbol.comma.id = some entry →
      entry.ruleIndex? = none := by
    intro entry known
    rw [Dialect.symbol?_id] at known
    cases known
    exact noRule
  refine ⟨⟨definition, ?_⟩, ⟨opcode, ?_⟩, terminal, ?_⟩
  · obtain ⟨⟨-, next⟩, failed, rfl⟩ := Option.map_eq_some_iff.mp short
    exact ⟨next, failed, failure 8 16 next failed⟩
  · obtain ⟨⟨-, next⟩, held, rfl⟩ := Option.map_eq_some_iff.mp alone
    exact ⟨next, held, success 8 28 next held⟩
  · obtain ⟨⟨-, next⟩, refused, rfl⟩ := Option.map_eq_some_iff.mp comma
    exact ⟨next, refused, refusal _ _ _ next terminal refused⟩

end Grammar
end PixelAsm
