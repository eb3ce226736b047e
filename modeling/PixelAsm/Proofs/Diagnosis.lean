import PixelAsm.Proofs.Alternatives

/-!
# Why a rule fails

Matching answers "no" both where the source or the contexts refuse a term and where the
table itself is broken: no rule starts at the step, the walk over a rule leaves the list or
meets another rule, a symbol is not in the table, a terminal has no text. We evaluate rules
once more and keep the two apart. Here a fault of the table stops the evaluation, and a
refusal comes with the term that is refused, where it is, and a proof that contexts or source
text are the reason. On a linked grammar this evaluation meets no fault and has the verdicts
of matching.
-/
namespace PixelAsm
namespace Grammar

/-- What a terminal is compared with. -/
inductive Target where
  | numeral
  | literal (text : String)
  deriving DecidableEq, Repr

def target? (g : Grammar) (term : Term) : Option Target :=
  if term.symbol = g.valueSymbol then some .numeral
  else (term.text?.or (g.defaultText? term.symbol)).map .literal

/-- A table that cannot be evaluated. -/
inductive TableFault where
  | noRule (step : Nat)
  | leftTable (rule : SymbolId)
  | metRule (rule other : SymbolId)
  | unknownSymbol (term : Term)
  | noText (term : Term)
  deriving DecidableEq, Repr

/-- The contexts or the source refuse a term. -/
inductive Refuses (g : Grammar) (term : Term) (p : Progress) : Prop where
  | inactive {entry : SymbolEntry} (known : g.symbol? term.symbol = some entry)
      (noContext : entry.definition.contextKey &&& p.contexts = 0)
  | ended (ends : p.reader.skipTrivia.1 = false)
  | noNumeral (expected : g.target? term = some .numeral)
      (unread : p.reader.skipTrivia.2.number? = none)
  | otherText {text : String} (expected : g.target? term = some (.literal text))
      (differs : p.reader.skipTrivia.2.isAtLiteral text = false)

/-- A term that is refused, with the progress at which it was tried. -/
structure Refusal (g : Grammar) where
  term : Term
  progress : Progress
  refuses : g.Refuses term progress

inductive Verdict (g : Grammar) where
  | matched
  | refused (refusal : g.Refusal)

def Verdict.holds {g : Grammar} : g.Verdict → Bool
  | .matched => true
  | .refused _ => false

/-- A fault of the table, or else a verdict and the progress after it; `none` if the bound on
nesting was hit. -/
abbrev Diagnosis (g : Grammar) := Except TableFault (Option (g.Verdict × Progress))

namespace Diagnosis

variable {g : Grammar}

/-- The diagnosis without the reasons of its verdict. -/
def outcome (d : g.Diagnosis) : Except TableFault Attempt :=
  d.map (Option.map (Prod.map Verdict.holds id))

def andThen (d : g.Diagnosis) (next : g.Verdict → Progress → g.Diagnosis) : g.Diagnosis :=
  match d with
  | .error fault => .error fault
  | .ok none => .ok none
  | .ok (some (verdict, p)) => next verdict p

/-- A failure comes with its reason. -/
theorem exists_refusal {d : g.Diagnosis} {p : Progress}
    (fails : d.outcome = .ok (some (false, p))) :
    ∃ why, d = .ok (some (.refused why, p)) := by
  rcases d with fault | _ | ⟨_ | why, q⟩
  · cases fails
  · cases fails
  · cases fails
  · cases fails
    exact ⟨why, rfl⟩

end Diagnosis

/-! ### Evaluation -/

def diagnoseTerminal (g : Grammar) (term : Term) (definition : SymbolDef) (rule : SymbolId)
    (p : Progress) : g.Diagnosis :=
  let there := { p with reader := p.reader.skipTrivia.2 }
  match expected : g.target? term with
  | none => .error (.noText term)
  | some target =>
    if ends : p.reader.skipTrivia.1 = false then .ok (some (.refused ⟨term, p, .ended ends⟩, there))
    else match target with
      | .numeral =>
        match read : p.reader.skipTrivia.2.number? with
        | some (value, length) =>
          let there := { there with constants := there.constants.push value }
          .ok (some (.matched, there.accept definition term.symbol rule length))
        | none => .ok (some (.refused ⟨term, p, .noNumeral expected read⟩, there))
      | .literal text =>
        if differs : p.reader.skipTrivia.2.isAtLiteral text = false then
          .ok (some (.refused ⟨term, p, .otherText expected differs⟩, there))
        else .ok (some (.matched, there.accept definition term.symbol rule text.utf8ByteSize))

def diagnoseTerm (g : Grammar) (enter : Nat → Progress → g.Diagnosis) (rule : SymbolId)
    (term : Term) (p : Progress) : g.Diagnosis :=
  match known : g.symbol? term.symbol with
  | none => .error (.unknownSymbol term)
  | some entry =>
    if noContext : entry.definition.contextKey &&& p.contexts = 0 then
      .ok (some (.refused ⟨term, p, .inactive known noContext⟩, p))
    else match entry.ruleIndex? with
      | some index => enter index p
      | none => g.diagnoseTerminal term entry.definition rule p

/-- Repeats a term. If it does not match at all, the first refusal is the reason. -/
def diagnoseMany {g : Grammar} (diagnose : Progress → g.Diagnosis) :
    Nat → Bool → Progress → g.Diagnosis
  | 0, _, _ => .ok none
  | rounds + 1, matched, p =>
    (diagnose p).andThen fun verdict next =>
      match verdict with
      | .refused why => .ok (some (if matched then .matched else .refused why, next))
      | .matched =>
        if next.reader.offset = p.reader.offset then .ok (some (.matched, next))
        else diagnoseMany diagnose rounds true next

/-- Walks the steps of a rule, with the verdict on the alternative that is open. -/
def diagnoseSteps {g : Grammar} (diagnose : Term → Progress → g.Diagnosis) (rule : SymbolId)
    (entry : Mark) : List Step → g.Verdict → Progress → g.Diagnosis
  | [], _, _ => .error (.leftTable rule)
  | .rule other :: _, _, _ => .error (.metRule rule other)
  | .done :: _, verdict, p => .ok (some (verdict, p))
  | .orElse _ :: _, .matched, p => .ok (some (.matched, p))
  | .orElse term :: rest, .refused _, p =>
    (diagnose term (p.rollback entry)).andThen (diagnoseSteps diagnose rule entry rest)
  | .require term :: rest, .matched, p =>
    (diagnose term p).andThen (diagnoseSteps diagnose rule entry rest)
  | .maybe term :: rest, .matched, p =>
    (diagnose term p).andThen fun _ => diagnoseSteps diagnose rule entry rest .matched
  | .many term :: rest, .matched, p =>
    (diagnoseMany (diagnose term) (p.reader.remaining + 1) false p).andThen
      (diagnoseSteps diagnose rule entry rest)
  | .require _ :: rest, .refused why, p | .maybe _ :: rest, .refused why, p
  | .many _ :: rest, .refused why, p => diagnoseSteps diagnose rule entry rest (.refused why) p

def diagnoseRule (g : Grammar) : (depth : Nat) → (index : Nat) → Progress → g.Diagnosis
  | 0, _, _ => .ok none
  | depth + 1, index, p =>
    match g.steps.drop index with
    | .rule symbol :: body =>
      (diagnoseSteps (g.diagnoseTerm (g.diagnoseRule depth) symbol) symbol p.mark body
        .matched p).andThen fun verdict next =>
          .ok (some (verdict, if verdict.holds then next else next.rollback p.mark))
    | _ => .error (.noRule index)

/-- The list ends inside the root rule. -/
example (source : List UInt8) :
    let g : Grammar := { symbols := [], steps := [.rule 0], valueSymbol := 0, initialContexts := 1 }
    g.diagnoseRule 1 0 (g.start source) = .error (.leftTable 0) := rfl

/-- The root rule requires a symbol that is not in the table. -/
example (source : List UInt8) :
    let g : Grammar :=
      { symbols := [], steps := [.rule 0, .require { symbol := 1 }, .done]
        valueSymbol := 0, initialContexts := 1 }
    g.diagnoseRule 1 0 (g.start source) = .error (.unknownSymbol { symbol := 1 }) := rfl

/-! ### Verdicts are those of matching -/

section

variable {g : Grammar}

/-- No fault is met, and the verdict is that of matching. -/
def Clears (diagnose : Progress → g.Diagnosis) (attempt : Progress → Attempt) : Prop :=
  ∀ p, (diagnose p).outcome = .ok (attempt p)

theorem outcome_andThen {d : g.Diagnosis} {tried : Attempt} (clear : d.outcome = .ok tried)
    {next : g.Verdict → Progress → g.Diagnosis} {go : Bool × Progress → Attempt}
    (behind : ∀ verdict, Clears (next verdict) (fun p => go (verdict.holds, p))) :
    (d.andThen next).outcome = .ok (tried.bind go) := by
  rcases d with fault | _ | ⟨verdict, p⟩
  · cases clear
  · cases clear
    rfl
  · cases clear
    exact behind verdict p

theorem target?_eq_numeral_iff {term : Term} :
    g.target? term = some .numeral ↔ term.symbol = g.valueSymbol := by
  unfold target?
  split <;> simp [*]

theorem target?_eq_literal_iff {term : Term} {text : String} :
    g.target? term = some (.literal text) ↔
      term.symbol ≠ g.valueSymbol ∧ term.text?.or (g.defaultText? term.symbol) = some text := by
  unfold target?
  split <;> simp [*]

theorem diagnoseTerminal_clears {term : Term} (targeted : (g.target? term).isSome = true)
    (definition : SymbolDef) (rule : SymbolId) :
    Clears (g.diagnoseTerminal term definition rule)
      (fun p => some (g.matchTerminal term definition rule p)) := by
  intro p
  unfold diagnoseTerminal matchTerminal
  dsimp only
  split
  next untargeted =>
    rw [untargeted] at targeted
    cases targeted
  next target expected =>
    split
    next ends =>
      simp only [ends, Bool.not_false, if_true]
      rfl
    next goesOn =>
      simp only [eq_true_of_ne_false goesOn, Bool.not_true, Bool.false_eq_true, if_false]
      split
      next =>
        rw [if_pos (target?_eq_numeral_iff.mp expected)]
        split
        next value length read =>
          rw [read]
          rfl
        next unread =>
          simp only [unread]
          rfl
      next text =>
        obtain ⟨literal, has⟩ := target?_eq_literal_iff.mp expected
        rw [if_neg literal, has]
        dsimp only
        split
        next differs =>
          simp only [differs]
          rfl
        next same =>
          rw [eq_true_of_ne_false same]
          rfl

/-- The symbol of a term is in the table, and it has a rule or something to be compared with. -/
def Supplied (g : Grammar) (term : Term) : Prop :=
  ∃ entry, g.symbol? term.symbol = some entry ∧
    (entry.ruleIndex? = none → (g.target? term).isSome = true)

theorem diagnoseTerm_clears {term : Term} (supplied : g.Supplied term)
    {diagnose : Nat → Progress → g.Diagnosis} {enter : Nat → Progress → Attempt}
    (clears : ∀ entry index, g.symbol? term.symbol = some entry → entry.ruleIndex? = some index →
      Clears (diagnose index) (enter index))
    (rule : SymbolId) :
    Clears (g.diagnoseTerm diagnose rule term) (g.matchTerm enter rule term) := by
  intro p
  obtain ⟨entry, known, targeted⟩ := supplied
  simp only [matchTerm, known]
  unfold diagnoseTerm
  split
  next unknown =>
    rw [unknown] at known
    cases known
  next found known' =>
    cases known.symm.trans known'
    split
    · rfl
    · cases starts : entry.ruleIndex? with
      | some index => exact clears entry index known starts p
      | none => exact diagnoseTerminal_clears (targeted starts) entry.definition rule p

theorem matchMany_succ (attempt : Progress → Attempt) (rounds : Nat) (matched : Bool)
    (p : Progress) :
    matchMany attempt (rounds + 1) matched p = (attempt p).bind fun found =>
      if found.1 then
        if found.2.reader.offset = p.reader.offset then some found
        else matchMany attempt rounds true found.2
      else some (matched, found.2) := by
  rw [matchMany]
  rcases attempt p with _ | ⟨_ | _, next⟩ <;> rfl

theorem diagnoseMany_clears {diagnose : Progress → g.Diagnosis} {attempt : Progress → Attempt}
    (clears : Clears diagnose attempt) (rounds : Nat) (matched : Bool) :
    Clears (diagnoseMany diagnose rounds matched) (matchMany attempt rounds matched) := by
  induction rounds generalizing matched with
  | zero => exact fun p => rfl
  | succ rounds ih =>
    intro p
    rw [matchMany_succ, diagnoseMany]
    apply outcome_andThen (clears p)
    intro verdict next
    cases verdict with
    | refused why => cases matched <;> rfl
    | matched =>
      simp only [Verdict.holds, if_true]
      split
      · rfl
      · exact ih true next

section

variable (attempt : Term → Progress → Attempt) (entry : Mark) (term : Term) (rest : List Step)
  (p : Progress)

theorem matchSteps_orElse :
    matchSteps attempt entry (.orElse term :: rest) false p =
      (attempt term (p.rollback entry)).bind fun found =>
        matchSteps attempt entry rest found.1 found.2 := by
  simp only [matchSteps, Bool.false_eq_true, if_false]
  rcases attempt term (p.rollback entry) with _ | ⟨_, _⟩ <;> rfl

theorem matchSteps_require :
    matchSteps attempt entry (.require term :: rest) true p =
      (attempt term p).bind fun found => matchSteps attempt entry rest found.1 found.2 := by
  simp only [matchSteps, Bool.not_true, Bool.false_eq_true, if_false]
  rcases attempt term p with _ | ⟨_, _⟩ <;> rfl

theorem matchSteps_maybe :
    matchSteps attempt entry (.maybe term :: rest) true p =
      (attempt term p).bind fun found => matchSteps attempt entry rest true found.2 := by
  simp only [matchSteps, Bool.not_true, Bool.false_eq_true, if_false]
  rcases attempt term p with _ | ⟨_, _⟩ <;> rfl

theorem matchSteps_many :
    matchSteps attempt entry (.many term :: rest) true p =
      (matchMany (attempt term) (p.reader.remaining + 1) false p).bind fun found =>
        matchSteps attempt entry rest found.1 found.2 := by
  simp only [matchSteps, Bool.not_true, Bool.false_eq_true, if_false]
  rcases matchMany (attempt term) (p.reader.remaining + 1) false p with _ | ⟨_, _⟩ <;> rfl

end

/-- Steps that close are walked over without a fault if their terms are evaluated without one. -/
theorem diagnoseSteps_clears {diagnose : Term → Progress → g.Diagnosis}
    {attempt : Term → Progress → Attempt} {steps : List Step}
    (clears : ∀ step ∈ steps, ∀ term, step.term? = some term →
      Clears (diagnose term) (attempt term))
    (closes : Closes steps) (rule : SymbolId) (entry : Mark) (verdict : g.Verdict) :
    Clears (diagnoseSteps diagnose rule entry steps verdict)
      (matchSteps attempt entry steps verdict.holds) := by
  induction steps generalizing verdict with
  | nil => exact closes.elim
  | cons step rest ih =>
    intro p
    obtain ⟨first, behind⟩ := List.forall_mem_cons.mp clears
    cases step with
    | rule other => exact closes.elim
    | done => rfl
    | orElse term =>
      cases verdict with
      | matched => rfl
      | refused why =>
        rw [Verdict.holds, matchSteps_orElse]
        exact outcome_andThen (first term rfl _) (ih behind closes)
    | require term =>
      cases verdict with
      | refused why => exact ih behind closes (.refused why) p
      | matched =>
        rw [Verdict.holds, matchSteps_require]
        exact outcome_andThen (first term rfl p) (ih behind closes)
    | maybe term =>
      cases verdict with
      | refused why => exact ih behind closes (.refused why) p
      | matched =>
        rw [Verdict.holds, matchSteps_maybe]
        exact outcome_andThen (first term rfl p) fun _ => ih behind closes .matched
    | many term =>
      cases verdict with
      | refused why => exact ih behind closes (.refused why) p
      | matched =>
        rw [Verdict.holds, matchSteps_many]
        exact outcome_andThen (diagnoseMany_clears (first term rfl) _ false p) (ih behind closes)

theorem diagnoseRule_clears (wellFormed : g.WellFormed)
    (supplied : ∀ step ∈ g.steps, ∀ term, step.term? = some term → g.Supplied term)
    (depth : Nat) {index : Nat} {symbol : SymbolId} {body : List Step}
    (opens : g.steps.drop index = .rule symbol :: body) :
    Clears (g.diagnoseRule depth index) (g.matchRule depth index) := by
  induction depth generalizing index symbol body with
  | zero => exact fun p => rfl
  | succ depth ih =>
    intro p
    have inside {step : Step} (member : step ∈ body) : step ∈ g.steps := by
      apply List.mem_of_mem_drop (i := index)
      rw [opens]
      exact List.mem_cons_of_mem _ member
    -- the terms of the rule are in the table, and the rules of their symbols start there
    have terms : ∀ step ∈ body, ∀ term, step.term? = some term →
        Clears (g.diagnoseTerm (g.diagnoseRule depth) symbol term)
          (g.matchTerm (g.matchRule depth) symbol term) := by
      intro step member term has
      apply diagnoseTerm_clears (supplied step (inside member) term has)
      intro entry start known starts
      obtain ⟨nested, opens⟩ := wellFormed.opens _ _ _ known starts
      exact ih opens
    have walk := diagnoseSteps_clears terms (wellFormed.closes _ _ _ opens) symbol p.mark
      .matched p
    have ends : g.matchRule (depth + 1) index p =
        (matchSteps (g.matchTerm (g.matchRule depth) symbol) p.mark body true p).bind fun found =>
          some (found.1, if found.1 then found.2 else found.2.rollback p.mark) := by
      rw [matchRule, opens]
      dsimp only
      rcases matchSteps (g.matchTerm (g.matchRule depth) symbol) p.mark body true p with
        _ | ⟨_ | _, _⟩ <;> rfl
    rw [ends, diagnoseRule, opens]
    exact outcome_andThen walk fun _ _ => rfl

/-! ### Linked grammars -/

theorem supplied_of_link {symbols : List SymbolDef} {steps : List Step} {valueSymbol : SymbolId}
    {initialContexts : UInt32} (ok : link symbols steps valueSymbol initialContexts = .ok g)
    {step : Step} (member : step ∈ g.steps) {term : Term} (has : step.term? = some term) :
    g.Supplied term := by
  have consistent := (exists_link_iff initialContexts).mp ⟨g, ok⟩
  have linked := crossLinked_of_link ok
  have same : g.steps = steps := by rw [link_eq_ok ok]
  have value : g.valueSymbol = valueSymbol := by rw [link_eq_ok ok]
  rw [same] at member
  have inside := consistent.known step member _ (Step.symbol?_of_term? has)
  have known := symbol?_of_link ok term.symbol
  rw [List.getElem?_eq_getElem inside, Option.map_some] at known
  refine ⟨_, known, fun terminal => ?_⟩
  have noRule : .rule term.symbol ∉ steps :=
    fun opens => (mem_steps_iff_findIdx? term.symbol).mp opens terminal
  unfold target?
  split
  · rfl
  next literal =>
    rw [value] at literal
    cases text : term.text? with
    | some text => rfl
    | none =>
      have given := consistent.texts step member term has noRule literal text
      obtain ⟨n, found⟩ := Option.ne_none_iff_exists'.mp ((textSteps_nonempty_iff _).mp given)
      have least := (findIdx?_givesText_eq_some_iff term.symbol n).mp found
      obtain ⟨source, -, -, hasText, default⟩ := linked.defaultText _ n (same ▸ least)
      rw [Option.none_or, Option.isSome_map, default]
      exact hasText

end

/-- On a linked grammar no evaluation from the root meets a fault of the table: every source
is matched, or refused because of contexts or source text, with the verdict of matching. -/
theorem matchRule_fails_by_refusal {symbols : List SymbolDef} {steps : List Step}
    {valueSymbol : SymbolId} {initialContexts : UInt32} {g : Grammar}
    (ok : link symbols steps valueSymbol initialContexts = .ok g) (source : List UInt8)
    (depth : Nat) :
    (g.diagnoseRule depth 0 (g.start source)).outcome =
      .ok (g.matchRule depth 0 (g.start source)) := by
  obtain ⟨root, body, opens⟩ := opens_of_link ok
  exact diagnoseRule_clears (wellFormed_of_link ok)
    (fun step member term has => supplied_of_link ok member has) depth opens (g.start source)

/-- The shader grammar refuses a version that it does not have. -/
theorem matchRule_fails_by_refusal_version :
    let p := Dialect.linked.start (utf8 "; shader\nps.2.0")
    link Dialect.symbols Dialect.rules Symbol.value.id Context.base = .ok Dialect.linked ∧
      ∃ why, Dialect.linked.diagnoseRule 2 0 p = .ok (some (.refused why, p)) := by
  intro p
  have fails : Dialect.linked.matchRule 2 0 p = some (false, p) := by decide +kernel
  have clear := matchRule_fails_by_refusal Dialect.grammar_eq_linked (utf8 "; shader\nps.2.0") 2
  rw [fails] at clear
  exact ⟨Dialect.grammar_eq_linked, Diagnosis.exists_refusal clear⟩

end Grammar
end PixelAsm
