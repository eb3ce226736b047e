import PixelAsm.Proofs.Parsing
import PixelAsm.Proofs.Trivia

/-!
# What the shader grammar accepts

Matching the shader grammar always comes to a verdict. Only the version is required, so
the verdict is about the first symbol of the source: it is that of a version, or the
source is refused.
-/
namespace PixelAsm

/-! ### Walking to the end of a rule -/

namespace Grammar

/-- Steps behind the end of a rule are not walked. -/
theorem matchSteps_upToDone (attempt : Term → Progress → Attempt) (entry : Mark)
    (steps more : List Step) (passed : Bool) (p : Progress) :
    matchSteps attempt entry (steps ++ .done :: more) passed p =
      matchSteps attempt entry (steps ++ [.done]) passed p := by
  induction steps generalizing passed p with
  | nil => rfl
  | cons step rest ih =>
    cases step <;> simp only [List.cons_append, matchSteps, ih]

/-- Once a term has matched, what is only offered cannot undo it. -/
theorem matchSteps_offers {attempt : Term → Progress → Attempt} {entry : Mark}
    (terms : List Term) {passed : Bool} {p : Progress} {verdict : Bool} {next : Progress}
    (matched : matchSteps attempt entry (terms.map .maybe ++ [.done]) passed p =
      some (verdict, next)) : verdict = passed := by
  induction terms generalizing passed p with
  | nil =>
    cases matched
    rfl
  | cons term rest ih =>
    rw [List.map_cons, List.cons_append, matchSteps] at matched
    split at matched
    next failed =>
      rw [ih matched]
      simpa using failed
    next holds =>
      split at matched
      · cases matched
      · rw [ih matched]
        simpa using holds

theorem matchSteps_alternatives_passed {attempt : Term → Progress → Attempt} {entry : Mark}
    (terms : List Term) (p : Progress) :
    matchSteps attempt entry (terms.map .orElse ++ [.done]) true p = some (true, p) := by
  cases terms <;> rfl

/-- Alternatives are tried in turn, each from the entry of the rule. -/
theorem matchSteps_alternatives {attempt : Term → Progress → Attempt} {p : Progress}
    (tries : Term → Bool) (terms : List Term)
    (each : ∀ term ∈ terms, ∃ next, attempt term p = some (tries term, next) ∧
      (tries term = false → next.rollback p.mark = p))
    (q : Progress) (returned : q.rollback p.mark = p) :
    ∃ next, matchSteps attempt p.mark (terms.map .orElse ++ [.done]) false q =
      some (terms.any tries, next) := by
  induction terms generalizing q with
  | nil => exact ⟨q, rfl⟩
  | cons term rest ih =>
    obtain ⟨next, tried, back⟩ := each term (List.mem_cons_self ..)
    -- going back to the entry gives `p` again, so each alternative starts from `p`
    have walk : matchSteps attempt p.mark ((term :: rest).map .orElse ++ [.done]) false q =
        matchSteps attempt p.mark (rest.map .orElse ++ [.done]) (tries term) next := by
      simp only [List.map_cons, List.cons_append, matchSteps, returned, tried,
        Bool.false_eq_true, if_false]
    rw [walk, List.any_cons]
    cases outcome : tries term with
    | true => exact ⟨next, by rw [matchSteps_alternatives_passed, Bool.true_or]⟩
    | false =>
      rw [Bool.false_or]
      exact ih (fun t member => each t (List.mem_cons_of_mem term member)) next (back outcome)

end Grammar

namespace Trail

variable {α : Type}

theorem truncate_size (t : Trail α) : t.truncate t.size = t := by
  unfold truncate
  rw [dif_neg (Nat.lt_irrefl _)]

end Trail

/-- Returning to one's own mark undoes what the reader has done. -/
theorem Progress.rollback_mark (p : Progress) (reader : Reader) :
    ({ p with reader } : Progress).rollback p.mark = p := by
  simp only [rollback, mark, Trail.truncate_size]

namespace Dialect

/-! ### Every source gets a verdict -/

/-- Roles come lowest, and among the other rules those that start later. -/
def rankOf (id : SymbolId) : Nat := if roles.any (·.id == id) then 0 else Symbol.ps14.id - id

def rank (index : Nat) : Nat :=
  match rules[index]? with
  | some (.rule id) => rankOf id
  | _ => 0

/-- The rule that starts here names terminals and rules of a lower rank. -/
def ranksFall : List Step → Bool
  | .rule id :: body => (Grammar.ruleTerms body).all fun term =>
      Symbol.ps14.id ≤ term.symbol || rankOf term.symbol < rankOf id
  | _ => true

theorem ranksFall_all : ∀ index ∈ List.range rules.length,
    ranksFall (rules.drop index) = true := by
  decide +kernel

theorem linked_ranked : linked.Ranked rank := by
  intro index id body opens term member found known other starts
  have opens : rules.drop index = .rule id :: body := opens
  -- a rule starts here, so the index is one of a step
  have inside : index < rules.length := by
    apply Nat.lt_of_not_le
    intro past
    rw [List.drop_eq_nil_of_le past] at opens
    cases opens
  have fall := ranksFall_all index (List.mem_range.mpr inside)
  rw [opens] at fall
  have lower := List.all_eq_true.mp fall term member
  obtain ⟨s, named, rfl⟩ := symbol_of_found known
  have own : rank index = rankOf id := by
    rw [rank, ← List.head?_drop, opens]
    rfl
  have others : rank other = rankOf s.id := by
    obtain ⟨rest, there, -⟩ := drop_ruleIndex starts
    rw [rank, ← List.head?_drop, there]
    rfl
  have hasRule : s.id < Symbol.ps14.id := by
    have has := ruleIndex?_isSome s
    rw [starts] at has
    simpa [Dialect.hasRule] using has.symm
  rw [own, others]
  -- the symbol has a rule, so it is no terminal and its rank falls
  rcases Bool.or_eq_true _ _ |>.mp lower with terminal | falls
  · have past : Symbol.ps14.id ≤ term.symbol := by simpa using terminal
    rw [← named] at past
    exact absurd hasRule (Nat.not_lt.mpr past)
  · rw [named]
    simpa using falls

/-- Matching the shader grammar always comes to a verdict. -/
theorem matchSource_total (bytes : List UInt8) :
    ∃ verdict next, linked.matchSource bytes = some (verdict, next) := by
  have enough : rank 0 < linked.depthBound bytes := by
    -- ranks are below the number of steps, and the bound on nesting is not
    have few : rank 0 < rules.length := by decide +kernel
    exact Nat.lt_of_lt_of_le few (Nat.le_mul_of_pos_right _ (Nat.succ_pos _))
  exact linked.matchRule_total linked_ranked _ 0 enough _ (Nat.zero_le _)

/-! ### The version decides -/

/-- The spellings of a version. -/
def versionTexts : List String := ["ps.1.4", "ps.1.1", "ps.1.2", "ps.1.3"]

/-- Behind leading trivia, the text starts with a version. -/
def StartsWithVersion (bytes : List UInt8) : Prop :=
  ∃ after, Skips bytes after ∧ ∃ text ∈ versionTexts, utf8 text <+: after

/-- Whether one of these texts stands behind the trivia in front of the reader. -/
theorem startsWithVersion_iff (r : Reader) : StartsWithVersion r.rest ↔
    ∃ text ∈ versionTexts, r.skipTrivia.1 = true ∧ r.skipTrivia.2.isAtLiteral text = true := by
  have letters : ∀ text ∈ versionTexts, text.isEmpty = false ∧ (utf8 text).head? = some 0x70 := by
    decide
  obtain ⟨skips, settled, found⟩ := r.skipTrivia_skips
  constructor
  · rintro ⟨after, passed, text, member, starts⟩
    obtain ⟨notEmpty, letter⟩ := letters text member
    obtain ⟨rest, rfl⟩ := starts
    -- no trivia start with the letter of a version, so this is where the reader stops
    obtain ⟨bytes, spelled⟩ : ∃ bytes, utf8 text ++ rest = 0x70 :: bytes := by
      cases spelling : utf8 text with
      | nil => simp [spelling] at letter
      | cons b bytes =>
        rw [spelling] at letter
        obtain rfl : b = 0x70 := by simpa using letter
        exact ⟨_, rfl⟩
    have stops : r.skipTrivia.2.rest = utf8 text ++ rest := by
      refine skips.unique passed settled ?_
      rw [spelled]
      exact ⟨by decide, rfl⟩
    refine ⟨text, member, found.mpr ?_, ?_⟩
    · rw [stops, spelled]
      exact List.cons_ne_nil _ _
    · simp [Reader.isAtLiteral, stops, notEmpty]
  · rintro ⟨text, member, -, literal⟩
    refine ⟨_, skips, text, member, ?_⟩
    rw [Reader.isAtLiteral, Bool.and_eq_true] at literal
    exact List.isPrefixOf_iff_prefix.mp literal.2

/-- A terminal is tried behind the trivia; a failed attempt can be undone. -/
private theorem matchTerm_spelled {enter : Nat → Progress → Attempt} {rule : SymbolId}
    {s : Symbol} {text : String} {p : Progress} (terminal : hasRule s = false)
    (literal : s ≠ .value) (active : s.contextKey &&& p.contexts ≠ 0) :
    ∃ next, linked.matchTerm enter rule (spelled s text) p =
        some (p.reader.skipTrivia.1 && p.reader.skipTrivia.2.isAtLiteral text, next) ∧
      ((p.reader.skipTrivia.1 && p.reader.skipTrivia.2.isAtLiteral text) = false →
        next.rollback p.mark = p) := by
  have noRule : (entry s).ruleIndex? = none := by
    rw [← Option.not_isSome_iff_eq_none, ruleIndex?_isSome, terminal]
    exact Bool.false_ne_true
  have notValue : ¬ s.id = linked.valueSymbol := fun same => literal (Symbol.id_inj same)
  have definition : (entry s).definition = s.definition := rfl
  -- a terminal is no rule and no numeral, so its text is compared
  have tried : linked.matchTerm enter rule (spelled s text) p =
      some (if !p.reader.skipTrivia.1 then (false, { p with reader := p.reader.skipTrivia.2 })
        else if p.reader.skipTrivia.2.isAtLiteral text then
          (true, Progress.accept { p with reader := p.reader.skipTrivia.2 } s.definition s.id rule
            text.utf8ByteSize)
        else (false, { p with reader := p.reader.skipTrivia.2 })) := by
    unfold Grammar.matchTerm
    simp only [spelled, symbol?_id, noRule, definition]
    rw [if_neg (show ¬ s.definition.contextKey &&& p.contexts = 0 from active)]
    unfold Grammar.matchTerminal
    simp only [notValue, if_false, Option.some_or]
  rw [tried]
  cases p.reader.skipTrivia.1 with
  | false => exact ⟨_, rfl, fun _ => p.rollback_mark _⟩
  | true =>
    cases p.reader.skipTrivia.2.isAtLiteral text with
    | false => exact ⟨_, rfl, fun _ => p.rollback_mark _⟩
    | true => exact ⟨_, rfl, fun failed => by cases failed⟩

/-- A rule's steps are followed by the one that closes it. -/
theorem drop_body {s : Symbol} {index : Nat}
    (starts : (entry s).ruleIndex? = some index) :
    ∃ more, rules.drop index = .rule s.id :: (body s ++ .done :: more) := by
  have closed : rules.getLast? = some .done := by decide
  obtain ⟨rest, opens, steps⟩ := drop_ruleIndex starts
  have last : (Step.rule s.id :: rest).getLast? = some .done := by
    have inside : ¬ rules.length ≤ index := by
      intro past
      rw [List.drop_eq_nil_of_le past] at opens
      cases opens
    rw [← opens, List.getLast?_drop, if_neg inside, closed]
  -- the table ends with the end of a rule, so some end follows this head
  have member : Step.done ∈ rest := by
    rcases List.mem_cons.mp (List.mem_of_getLast? last) with same | member
    · cases same
    · exact member
  have split := List.takeWhile_append_dropWhile (p := (!·.isDone)) (l := rest)
  cases behind : rest.dropWhile (!·.isDone) with
  | nil =>
    rw [behind, List.append_nil] at split
    have unfinished := List.all_eq_true.mp (List.all_takeWhile (p := (!·.isDone)) (l := rest))
    rw [split] at unfinished
    cases unfinished _ member
  | cons step more =>
    have stopped := List.head?_dropWhile_not (!·.isDone) rest
    rw [behind] at stopped
    have isDone : step = .done := by
      cases step <;> simp [Step.isDone] at stopped
      rfl
    rw [behind, steps, isDone] at split
    exact ⟨more, by rw [opens, split]⟩

/-- The rule of a symbol is walked from the step behind its head to its end. -/
private theorem matchRule_body {s : Symbol} {index : Nat}
    (starts : (entry s).ruleIndex? = some index) (depth : Nat) (p : Progress) :
    linked.matchRule (depth + 1) index p =
      match Grammar.matchSteps (linked.matchTerm (linked.matchRule depth) s.id) p.mark
          (body s ++ [.done]) true p with
      | none => none
      | some (true, next) => some (true, next)
      | some (false, next) => some (false, next.rollback p.mark) := by
  obtain ⟨more, opens⟩ := drop_body starts
  rw [← Grammar.matchSteps_upToDone _ _ _ more]
  have steps : linked.steps.drop index = .rule s.id :: (body s ++ .done :: more) := opens
  unfold Grammar.matchRule
  generalize linked.steps.drop index = fromHead at steps
  subst steps
  rfl

private theorem body_programType :
    body .programType = .require (spelled .ps14 "ps.1.4") ::
      [spelled .ps11 "ps.1.1", spelled .ps12 "ps.1.2", spelled .ps13 "ps.1.3"].map .orElse := by
  decide

/-- The rule of versions looks for one behind the trivia. -/
private theorem version_verdict (depth : Nat) {index : Nat}
    (starts : (entry .programType).ruleIndex? = some index) {p : Progress}
    (contexts : p.contexts = Context.base) :
    ∃ verdict next, linked.matchRule (depth + 1) index p = some (verdict, next) ∧
      (verdict = true ↔ StartsWithVersion p.reader.rest) := by
  -- whether a version matches does not depend on the attempts before it
  let tries (term : Term) : Bool :=
    p.reader.skipTrivia.1 && p.reader.skipTrivia.2.isAtLiteral (term.text?.getD "")
  have each (s : Symbol) (text : String) (version : s ∈ Symbol.terminals .programType) :
      ∃ next, linked.matchTerm (linked.matchRule depth) Symbol.programType.id (spelled s text) p =
          some (tries (spelled s text), next) ∧
        (tries (spelled s text) = false → next.rollback p.mark = p) := by
    have known : ∀ s ∈ Symbol.terminals .programType,
        hasRule s = false ∧ s ≠ .value ∧ s.contextKey &&& Context.base ≠ 0 := by decide
    obtain ⟨terminal, literal, active⟩ := known s version
    exact matchTerm_spelled terminal literal (by rw [contexts]; exact active)
  let others := [spelled .ps11 "ps.1.1", spelled .ps12 "ps.1.2", spelled .ps13 "ps.1.3"]
  obtain ⟨first, tried, back⟩ := each .ps14 "ps.1.4" (by decide)
  have walked : ∃ next, Grammar.matchSteps
      (linked.matchTerm (linked.matchRule depth) Symbol.programType.id) p.mark
      (body .programType ++ [.done]) true p =
        some (tries (spelled .ps14 "ps.1.4") || others.any tries, next) := by
    rw [body_programType, List.cons_append, Grammar.matchSteps, tried]
    cases outcome : tries (spelled .ps14 "ps.1.4") with
    | true => exact ⟨first, Grammar.matchSteps_alternatives_passed _ _⟩
    | false =>
      refine Grammar.matchSteps_alternatives tries others (fun term member => ?_) first
        (back outcome)
      simp only [others, List.mem_cons, List.not_mem_nil, or_false] at member
      rcases member with rfl | rfl | rfl <;> exact each _ _ (by decide)
  obtain ⟨next, found⟩ := walked
  have verdict : (tries (spelled .ps14 "ps.1.4") || others.any tries) = true ↔
      StartsWithVersion p.reader.rest := by
    rw [startsWithVersion_iff]
    simp [tries, others, spelled, versionTexts]
  rw [matchRule_body starts, found]
  cases outcome : tries (spelled .ps14 "ps.1.4") || others.any tries with
  | true => exact ⟨true, _, rfl, by rw [← verdict, outcome]⟩
  | false => exact ⟨false, _, rfl, by rw [← verdict, outcome]⟩

private theorem body_program_offers :
    body .program = need .programType ::
      [bare .constants, bare .texBlock, bare .aluBlock, bare .phaseTwo].map .maybe :=
  body_composite .program (by decide)

/-- A source is matched if and only if it starts with a version. -/
theorem matchSource_verdict {bytes : List UInt8} {verdict : Bool} {next : Progress}
    (matched : linked.matchSource bytes = some (verdict, next)) :
    verdict = true ↔ StartsWithVersion bytes := by
  obtain ⟨index, starts⟩ : ∃ index, (entry .programType).ruleIndex? = some index :=
    Option.isSome_iff_exists.mp (by rw [ruleIndex?_isSome]; decide)
  obtain ⟨depth, bound⟩ : ∃ depth, linked.depthBound bytes = depth + 2 := by
    have rulesGiven : 2 ≤ rules.length := by decide +kernel
    have enough : 2 ≤ linked.depthBound bytes :=
      Nat.le_trans rulesGiven (Nat.le_mul_of_pos_right _ (Nat.succ_pos _))
    exact ⟨_, (Nat.sub_add_cancel enough).symm⟩
  obtain ⟨version, later, found, decided⟩ :=
    version_verdict depth starts (p := linked.start bytes) rfl
  rw [Grammar.matchSource, bound, matchRule_body ruleIndex?_program, body_program_offers,
    List.cons_append, need, Grammar.matchSteps] at matched
  -- the version is the one term that is required; the others are offered
  have tried : linked.matchTerm (linked.matchRule (depth + 1)) Symbol.program.id
      (bare .programType) (linked.start bytes) = some (version, later) := by
    have active : ¬ (entry .programType).definition.contextKey &&&
        (linked.start bytes).contexts = 0 := by
      show ¬ Symbol.programType.contextKey &&& Context.base = 0
      decide
    unfold Grammar.matchTerm
    simp only [bare, symbol?_id, starts]
    rw [if_neg active]
    exact found
  simp only [Bool.not_true, Bool.false_eq_true, if_false, tried] at matched
  have whole : verdict = version := by
    split at matched
    · cases matched
    next last walked =>
      cases matched
      exact Grammar.matchSteps_offers _ walked
    next last walked =>
      cases matched
      exact Grammar.matchSteps_offers _ walked
  rw [whole]
  exact decided

end Dialect
end PixelAsm
