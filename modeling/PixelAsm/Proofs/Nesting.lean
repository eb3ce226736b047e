import Mathlib.Data.Finset.Card
import Mathlib.Logic.Relation
import PixelAsm.Proofs.Acceptance
import PixelAsm.Proofs.Evaluation

/-!
# How much matching needs

If no rule comes back to itself through the symbols that rules name, then matching needs no more
nesting than there are rules, from any state and on any source. A repetition tries its term at
most once more than there are bytes left where it starts. We match with limits on both that can be
chosen freely: from these limits on, every choice gives the same result, and it is the one that
evaluation has without any limit.
-/
namespace PixelAsm

/-- The symbol whose rule the step opens. -/
def Step.head? : Step → Option SymbolId
  | .rule symbol => some symbol
  | _ => none

namespace Grammar

/-! ### Rules that name rules -/

/-- The rule of the first symbol has a step with the second one, which has a rule as well. -/
def Names (g : Grammar) (a b : SymbolId) : Prop :=
  .rule b ∈ g.steps ∧
    ∃ index body, g.steps.drop index = .rule a :: body ∧ ∃ term ∈ ruleTerms body, term.symbol = b

def Acyclic (g : Grammar) : Prop := ∀ id, ¬ Relation.TransGen g.Names id id

/-- The symbols that have a rule, one for each rule. -/
def heads (g : Grammar) : List SymbolId := g.steps.filterMap Step.head?

def ruleCount (g : Grammar) : Nat := g.heads.length

variable {g : Grammar}

theorem mem_heads {id : SymbolId} : id ∈ g.heads ↔ .rule id ∈ g.steps := by
  rw [heads, List.mem_filterMap]
  constructor
  · rintro ⟨step, member, own⟩
    cases step <;> cases own
    exact member
  · exact fun member => ⟨_, member, rfl⟩

open Classical in
/-- The symbols with a rule that can be come to from a symbol. -/
noncomputable def below (g : Grammar) (id : SymbolId) : Finset SymbolId :=
  g.heads.toFinset.filter (Relation.TransGen g.Names id)

theorem mem_below {a b : SymbolId} :
    b ∈ g.below a ↔ .rule b ∈ g.steps ∧ Relation.TransGen g.Names a b := by
  simp [below, mem_heads]

/-- Fewer symbols are below a symbol that is named. -/
theorem below_ssubset (acyclic : g.Acyclic) {a b : SymbolId} (names : g.Names a b) :
    g.below b ⊂ g.below a := by
  refine ⟨fun c member => ?_, fun all => ?_⟩
  · obtain ⟨hasRule, path⟩ := mem_below.mp member
    exact mem_below.mpr ⟨hasRule, .head names path⟩
  · -- the named symbol is below the other one, but not below itself
    have own : b ∈ g.below a := mem_below.mpr ⟨names.1, .single names⟩
    exact acyclic b (mem_below.mp (all own)).2

theorem card_below_lt (acyclic : g.Acyclic) {id : SymbolId} (hasRule : .rule id ∈ g.steps) :
    (g.below id).card < g.ruleCount := by
  have own : id ∈ g.heads.toFinset := List.mem_toFinset.mpr (mem_heads.mpr hasRule)
  have others : g.below id ⊆ g.heads.toFinset.erase id := by
    intro other member
    obtain ⟨there, path⟩ := mem_below.mp member
    refine Finset.mem_erase.mpr ⟨?_, List.mem_toFinset.mpr (mem_heads.mpr there)⟩
    rintro rfl
    exact acyclic other path
  calc (g.below id).card
      ≤ (g.heads.toFinset.erase id).card := Finset.card_le_card others
    _ < g.heads.toFinset.card := Finset.card_erase_lt_of_mem own
    _ ≤ g.ruleCount := List.toFinset_card_le g.heads

/-- The nesting that a rule can need below itself. -/
noncomputable def nesting (g : Grammar) (index : Nat) : Nat :=
  (((g.step? index).bind Step.head?).map fun id => (g.below id).card).getD 0

theorem nesting_of_opens {index : Nat} {symbol : SymbolId} {body : List Step}
    (opens : g.steps.drop index = .rule symbol :: body) :
    g.nesting index = (g.below symbol).card := by
  have there : g.step? index = some (.rule symbol) := by
    rw [step?, ← List.head?_drop, opens, List.head?_cons]
  simp [nesting, there, Step.head?]

theorem mem_of_opens {index : Nat} {symbol : SymbolId} {body : List Step}
    (opens : g.steps.drop index = .rule symbol :: body) : .rule symbol ∈ g.steps :=
  (opens ▸ List.drop_sublist index g.steps).subset (List.mem_cons_self ..)

theorem ranked_of_acyclic (wellFormed : g.WellFormed) (acyclic : g.Acyclic) :
    g.Ranked g.nesting := by
  intro index symbol body opens term member entry known other starts
  obtain ⟨rest, there⟩ := wellFormed.opens _ entry other known starts
  have names : g.Names symbol term.symbol :=
    ⟨mem_of_opens there, index, body, opens, term, member, rfl⟩
  rw [nesting_of_opens opens, nesting_of_opens there]
  exact Finset.card_lt_card (below_ssubset acyclic names)

theorem nesting_lt_ruleCount (acyclic : g.Acyclic) (some : 0 < g.ruleCount) (index : Nat) :
    g.nesting index < g.ruleCount := by
  cases opened : (g.step? index).bind Step.head? with
  | none => simpa [nesting, opened] using some
  | some symbol =>
    obtain ⟨step, there, own⟩ := Option.bind_eq_some_iff.mp opened
    have hasRule : .rule symbol ∈ g.steps := by
      cases step <;> cases own
      exact List.mem_of_getElem? there
    simpa [nesting, opened] using card_below_lt acyclic hasRule

/-! ### Limits that can be chosen -/

/-- Walks the steps of a rule like `matchSteps`, with a limit on the rounds of a repetition that
depends on where it starts. -/
def matchStepsWithin (limit : Progress → Nat) (attempt : Term → Progress → Attempt)
    (entry : Mark) : List Step → Bool → Progress → Attempt
  | [], _, p => some (false, p)
  | .rule _ :: _, _, p => some (false, p)
  | .done :: _, passed, p => some (passed, p)
  | .orElse term :: rest, passed, p =>
    if passed then some (true, p)
    else match attempt term (p.rollback entry) with
      | none => none
      | some (verdict, next) => matchStepsWithin limit attempt entry rest verdict next
  | .require term :: rest, passed, p =>
    if !passed then matchStepsWithin limit attempt entry rest false p
    else match attempt term p with
      | none => none
      | some (verdict, next) => matchStepsWithin limit attempt entry rest verdict next
  | .maybe term :: rest, passed, p =>
    if !passed then matchStepsWithin limit attempt entry rest false p
    else match attempt term p with
      | none => none
      | some (_, next) => matchStepsWithin limit attempt entry rest true next
  | .many term :: rest, passed, p =>
    if !passed then matchStepsWithin limit attempt entry rest false p
    else match matchMany (attempt term) (limit p) false p with
      | none => none
      | some (verdict, next) => matchStepsWithin limit attempt entry rest verdict next

/-- Evaluates a rule with at most `depth` nested rules, and with so many rounds at most in each
repetition. -/
def matchRuleWithin (g : Grammar) (limit : Progress → Nat) :
    (depth : Nat) → (index : Nat) → Progress → Attempt
  | 0, _, _ => none
  | depth + 1, index, p =>
    match g.steps.drop index with
    | .rule symbol :: body =>
      match matchStepsWithin limit (g.matchTerm (g.matchRuleWithin limit depth) symbol) p.mark
          body true p with
      | none => none
      | some (true, next) => some (true, next)
      | some (false, next) => some (false, next.rollback p.mark)
    | _ => some (false, p)

/-- The attempt comes to a verdict wherever it is made. -/
def Decides (attempt : Progress → Attempt) : Prop := ∀ p, attempt p ≠ none

/-- One round for each byte that is left, and one more, is enough. -/
theorem matchMany_decides {attempt : Progress → Attempt} (keeps : Keeps attempt)
    (decides : Decides attempt) {rounds : Nat} (matched : Bool) (p : Progress)
    (enough : p.reader.remaining + 1 ≤ rounds) : matchMany attempt rounds matched p ≠ none := by
  induction rounds generalizing matched p with
  | zero => omega
  | succ rounds ih =>
    obtain ⟨⟨verdict, next⟩, tried⟩ := Option.ne_none_iff_exists'.mp (decides p)
    unfold matchMany
    rw [tried]
    cases verdict with
    | false => simp
    | true =>
      dsimp only
      split
      · simp
      next moved =>
        -- a round that goes on has read a byte
        have fewer := (keeps p true next tried).remaining_lt moved
        exact ih true next (by omega)

theorem matchMany_limit {attempt : Progress → Attempt} (keeps : Keeps attempt)
    (decides : Decides attempt) {rounds : Nat} {matched : Bool} {p : Progress}
    (enough : p.reader.remaining + 1 ≤ rounds) :
    matchMany attempt rounds matched p =
      matchMany attempt (p.reader.remaining + 1) matched p := by
  obtain ⟨outcome, found⟩ :=
    Option.ne_none_iff_exists'.mp (matchMany_decides keeps decides matched p (Nat.le_refl _))
  rw [found]
  exact matchMany_rounds found enough

/-- Terms come to the same if the rules that they name do. -/
theorem matchTerm_eq (first second : Nat → Progress → Attempt) (owner : SymbolId) (term : Term)
    (p : Progress)
    (entered : ∀ entry index, g.symbol? term.symbol = some entry →
      entry.ruleIndex? = some index → first index p = second index p ∧ second index p ≠ none) :
    g.matchTerm first owner term p = g.matchTerm second owner term p ∧
      g.matchTerm second owner term p ≠ none := by
  unfold matchTerm
  cases known : g.symbol? term.symbol with
  | none => simp
  | some entry =>
    dsimp only
    by_cases off : entry.definition.contextKey &&& p.contexts = 0
    · rw [if_pos off, if_pos off]
      simp
    · rw [if_neg off, if_neg off]
      cases starts : entry.ruleIndex? with
      | none => simp
      | some index => exact entered entry index known starts

section

variable {limit : Progress → Nat} (generous : ∀ p, p.reader.remaining + 1 ≤ limit p)
include generous

/-- A walk comes to its end, and generous limits do not change it. -/
theorem matchStepsWithin_eq {first second : Term → Progress → Attempt}
    (keeps : ∀ term, Keeps (second term)) (entry : Mark) {steps : List Step}
    (same : ∀ term ∈ ruleTerms steps, first term = second term)
    (decides : ∀ term ∈ ruleTerms steps, Decides (second term)) (passed : Bool) (p : Progress) :
    matchStepsWithin limit first entry steps passed p = matchSteps second entry steps passed p ∧
      matchSteps second entry steps passed p ≠ none := by
  induction steps generalizing passed p with
  | nil => exact ⟨rfl, by simp [matchSteps]⟩
  | cons step rest ih =>
    have own {term : Term} (has : step.term? = some term) :
        first term = second term ∧ Decides (second term) ∧
          ∀ passed p, matchStepsWithin limit first entry rest passed p =
            matchSteps second entry rest passed p ∧
              matchSteps second entry rest passed p ≠ none := by
      rw [ruleTerms_cons has] at same decides
      exact ⟨same term (List.mem_cons_self ..), decides term (List.mem_cons_self ..),
        ih (fun t member => same t (List.mem_cons_of_mem _ member))
          fun t member => decides t (List.mem_cons_of_mem _ member)⟩
    cases step with
    | rule symbol => exact ⟨rfl, by simp [matchSteps]⟩
    | done => exact ⟨rfl, by simp [matchSteps]⟩
    | orElse term =>
      obtain ⟨equal, verdict, behind⟩ := own rfl
      obtain ⟨⟨holds, next⟩, tried⟩ := Option.ne_none_iff_exists'.mp (verdict (p.rollback entry))
      rw [matchStepsWithin, matchSteps, equal, tried]
      cases passed with
      | true => simp
      | false => exact behind holds next
    | require term =>
      obtain ⟨equal, verdict, behind⟩ := own rfl
      obtain ⟨⟨holds, next⟩, tried⟩ := Option.ne_none_iff_exists'.mp (verdict p)
      rw [matchStepsWithin, matchSteps, equal, tried]
      cases passed with
      | true => exact behind holds next
      | false => exact behind false p
    | maybe term =>
      obtain ⟨equal, verdict, behind⟩ := own rfl
      obtain ⟨⟨holds, next⟩, tried⟩ := Option.ne_none_iff_exists'.mp (verdict p)
      rw [matchStepsWithin, matchSteps, equal, tried]
      cases passed with
      | true => exact behind true next
      | false => exact behind false p
    | many term =>
      obtain ⟨equal, verdict, behind⟩ := own rfl
      obtain ⟨⟨holds, next⟩, repeated⟩ := Option.ne_none_iff_exists'.mp
        (matchMany_decides (keeps term) verdict false p (Nat.le_refl _))
      rw [matchStepsWithin, matchSteps, equal, matchMany_limit (keeps term) verdict (generous p),
        repeated]
      cases passed with
      | true => exact behind holds next
      | false => exact behind false p

/-- The rank of a rule falls with each rule that it enters, and the depth with it. -/
theorem matchRuleWithin_eq {rank : Nat → Nat} (ranked : g.Ranked rank) {depth index : Nat}
    (enough : rank index < depth) (p : Progress) :
    g.matchRuleWithin limit depth index p = g.matchRule depth index p ∧
      g.matchRule depth index p ≠ none := by
  induction depth generalizing index p with
  | zero => omega
  | succ depth ih =>
    unfold matchRuleWithin matchRule
    cases opens : g.steps.drop index with
    | nil => simp
    | cons step body =>
      cases step with
      | rule symbol =>
        have agree (term : Term) (member : term ∈ ruleTerms body) (q : Progress) :=
          matchTerm_eq (g.matchRuleWithin limit depth) (g.matchRule depth) symbol term q
            fun entry other known starts => by
              have lower := ranked index symbol body opens term member entry known other starts
              exact ih (by omega) q
        obtain ⟨equal, decided⟩ := matchStepsWithin_eq generous
          (g.matchTerm_keeps (g.matchRule_keeps depth) symbol) p.mark
          (fun term member => funext fun q => (agree term member q).1)
          (fun term member q => (agree term member q).2) true p
        obtain ⟨⟨verdict, next⟩, walked⟩ := Option.ne_none_iff_exists'.mp decided
        dsimp only
        rw [equal, walked]
        cases verdict <;> simp
      | require term | orElse term | maybe term | many term | done => simp

end

end Grammar

namespace Dialect

/-- The rules of the shader dialects name rules of a lower rank only. -/
theorem linked_acyclic : linked.Acyclic := by
  have terminals : rules.all (fun step => step.head?.all (· < Symbol.ps14.id)) = true := by
    decide +kernel
  have falls {a b : SymbolId} (names : linked.Names a b) : rankOf b < rankOf a := by
    obtain ⟨hasRule, index, body, opens, term, member, rfl⟩ := names
    have inside : index < rules.length := Grammar.lt_length_of_drop opens
    have fall := ranksFall_all index (List.mem_range.mpr inside)
    rw [show rules.drop index = .rule a :: body from opens] at fall
    have lower := List.all_eq_true.mp fall term member
    -- a symbol with a rule is no terminal
    have low := List.all_eq_true.mp terminals _ hasRule
    rcases Bool.or_eq_true _ _ |>.mp lower with terminal | falls
    · exact absurd (of_decide_eq_true low) (Nat.not_lt.mpr (of_decide_eq_true terminal))
    · exact of_decide_eq_true falls
  intro id cycle
  have path {a b : SymbolId} (path : Relation.TransGen linked.Names a b) : rankOf b < rankOf a := by
    induction path with
    | single names => exact falls names
    | tail _ names ih => exact Nat.lt_trans (falls names) ih
  exact Nat.lt_irrefl _ (path cycle)

end Dialect

namespace Grammar

/-- Without cycles among the rules, matching comes to an end at every step of the table and from
every state. As much nesting as there are rules, and one round for each byte that is left and one
more in each repetition, are enough; from there on the limits do not matter, and the result is
the only one that evaluation without limits has. The rules of the shader dialects have no cycles. -/
theorem matchRule_terminates :
    Dialect.linked.Acyclic ∧
    ∀ {symbols : List SymbolDef} {steps : List Step} {valueSymbol : SymbolId}
      {initialContexts : UInt32} {g : Grammar},
      link symbols steps valueSymbol initialContexts = .ok g → g.Acyclic →
      ∀ (index : Nat) (p : Progress), ∃ verdict q,
        g.matchRule g.ruleCount index p = some (verdict, q) ∧
        (∀ depth limit, g.ruleCount ≤ depth → (∀ r, r.reader.remaining + 1 ≤ limit r) →
          g.matchRuleWithin limit depth index p = some (verdict, q)) ∧
        (∀ symbol, g.step? index = some (.rule symbol) →
          ∀ other r, Evaluates g (.rule index) p other r ↔ other = verdict ∧ r = q) := by
  refine ⟨Dialect.linked_acyclic, fun {symbols steps valueSymbol initialContexts g} linked acyclic
    index p => ?_⟩
  have wellFormed := wellFormed_of_link linked
  have ranked := ranked_of_acyclic wellFormed acyclic
  obtain ⟨root, body, opens⟩ := opens_of_link linked
  have some : 0 < g.ruleCount :=
    List.length_pos_of_mem (mem_heads.mpr (mem_of_opens opens))
  have enough := nesting_lt_ruleCount acyclic some index
  have own (depth : Nat) (deep : g.ruleCount ≤ depth) {limit : Progress → Nat}
      (generous : ∀ r, r.reader.remaining + 1 ≤ limit r) :=
    matchRuleWithin_eq generous ranked (Nat.lt_of_lt_of_le enough deep) p
  obtain ⟨⟨verdict, q⟩, found⟩ := Option.ne_none_iff_exists'.mp
    (own g.ruleCount (Nat.le_refl _) fun r => Nat.le_refl (r.reader.remaining + 1)).2
  refine ⟨verdict, q, found, fun depth limit deep generous => ?_, fun symbol head other r => ?_⟩
  · rw [(own depth deep generous).1]
    exact matchRule_deepen wellFormed found deep
  · constructor
    · intro evaluates
      obtain ⟨depth, computed⟩ := exists_attemptGoal wellFormed evaluates
      have deep := matchRule_deepen wellFormed computed (Nat.le_max_left depth g.ruleCount)
      have also := matchRule_deepen wellFormed found (Nat.le_max_right depth g.ruleCount)
      have same := Option.some.inj (deep.symm.trans also)
      exact Prod.mk.inj same
    · rintro ⟨rfl, rfl⟩
      obtain ⟨inside, first⟩ := List.getElem?_eq_some_iff.mp head
      have starts : g.steps.drop index = .rule symbol :: g.steps.drop (index + 1) := by
        rw [List.drop_eq_getElem_cons inside, first]
      exact matchRule_sound wellFormed starts found

/-- The shader grammar, at a rule in the middle of the table and a reader in the middle of a
source whose statements are repeated and nested. -/
theorem matchRule_terminates_midway :
    let p : Progress :=
      { reader := .seek (utf8 "ps.1.4\ntexld r0, t0\ntexld r1, r0.xyz\nmov r0, 1-r1.r") 7 2
        contexts := Context.base ||| Context.ps14 }
    link Dialect.symbols Dialect.rules Symbol.value.id Context.base = .ok Dialect.linked ∧
      Dialect.linked.Acyclic ∧ Dialect.linked.ruleCount = 45 ∧
      Dialect.linked.step? 45 = some (.rule Symbol.texBlock.id) ∧
      ∃ q, Dialect.linked.matchRule 45 45 p = some (true, q) ∧
        ∀ depth limit, 45 ≤ depth → (∀ r, r.reader.remaining + 1 ≤ limit r) →
          Dialect.linked.matchRuleWithin limit depth 45 p = some (true, q) := by
  intro p
  have linked := Dialect.grammar_eq_linked
  have evaluated : Dialect.linked.ruleCount = 45 ∧
      Dialect.linked.step? 45 = some (.rule Symbol.texBlock.id) ∧
      (Dialect.linked.matchRule 45 45 p).map (·.1) = some true := by decide +kernel
  obtain ⟨rules, opens, accepted⟩ := evaluated
  obtain ⟨acyclic, terminates⟩ := matchRule_terminates
  obtain ⟨verdict, q, found, more, -⟩ := terminates linked acyclic 45 p
  rw [rules] at found more
  obtain rfl : verdict = true := by simpa [found] using accepted
  exact ⟨linked, acyclic, rules, opens, q, found, more⟩

end Grammar
end PixelAsm
