import Mathlib.Data.Finset.Card
import PixelAsm.Proofs.Alternatives

/-!
# Evaluation of parsing expressions

A grammar with ordered choice means the same as its rules read one by one: the first
alternative that matches wins, every alternative starts where the rule was entered, options
and repetitions take what they can. We say this as a relation, without a bound on anything.
Matching computes the relation, and its bound on nesting loses no result: rules that are
entered inside each other without a byte read in between are different rules, or they would
go on for ever.
-/
namespace PixelAsm

namespace Grammar

/-- What is evaluated: a rule, or a part of the rule of the symbol `owner`. -/
inductive Goal where
  | rule (index : Nat)
  | first (owner : SymbolId) (alternatives : List (List Piece))
  | sequence (owner : SymbolId) (pieces : List Piece)
  | piece (owner : SymbolId) (piece : Piece)
  | rounds (owner : SymbolId) (term : Term) (matched : Bool)
  | term (owner : SymbolId) (term : Term)

/-- The verdict on a goal at some progress, and the progress behind it. -/
inductive Evaluates (g : Grammar) : Goal → Progress → Bool → Progress → Prop
  | rule {index : Nat} {symbol : SymbolId} {body : List Step} {p q : Progress} {verdict : Bool}
      (opens : g.steps.drop index = .rule symbol :: body)
      (chosen : Evaluates g (.first symbol (Alternatives.ofSteps body).all) p verdict q) :
      Evaluates g (.rule index) p verdict q
  /-- A rule without a further alternative fails where it was entered. -/
  | exhausted {owner : SymbolId} {p : Progress} : Evaluates g (.first owner []) p false p
  | chosen {owner : SymbolId} {pieces : List Piece} {others : List (List Piece)}
      {p q : Progress} (holds : Evaluates g (.sequence owner pieces) p true q) :
      Evaluates g (.first owner (pieces :: others)) p true q
  | passedOver {owner : SymbolId} {pieces : List Piece} {others : List (List Piece)}
      {p q r : Progress} {verdict : Bool}
      (fails : Evaluates g (.sequence owner pieces) p false q)
      (other : Evaluates g (.first owner others) p verdict r) :
      Evaluates g (.first owner (pieces :: others)) p verdict r
  | finished {owner : SymbolId} {p : Progress} : Evaluates g (.sequence owner []) p true p
  | andThen {owner : SymbolId} {piece : Piece} {pieces : List Piece} {p q r : Progress}
      {verdict : Bool} (holds : Evaluates g (.piece owner piece) p true q)
      (rest : Evaluates g (.sequence owner pieces) q verdict r) :
      Evaluates g (.sequence owner (piece :: pieces)) p verdict r
  | stopped {owner : SymbolId} {piece : Piece} {pieces : List Piece} {p q : Progress}
      (fails : Evaluates g (.piece owner piece) p false q) :
      Evaluates g (.sequence owner (piece :: pieces)) p false q
  | one {owner : SymbolId} {term : Term} {p q : Progress} {verdict : Bool}
      (tried : Evaluates g (.term owner term) p verdict q) :
      Evaluates g (.piece owner (.one term)) p verdict q
  | optional {owner : SymbolId} {term : Term} {p q : Progress} {verdict : Bool}
      (tried : Evaluates g (.term owner term) p verdict q) :
      Evaluates g (.piece owner (.optional term)) p true q
  | several {owner : SymbolId} {term : Term} {p q : Progress} {verdict : Bool}
      (repeated : Evaluates g (.rounds owner term false) p verdict q) :
      Evaluates g (.piece owner (.several term)) p verdict q
  | lastRound {owner : SymbolId} {term : Term} {matched : Bool} {p q : Progress}
      (fails : Evaluates g (.term owner term) p false q) :
      Evaluates g (.rounds owner term matched) p matched q
  | idleRound {owner : SymbolId} {term : Term} {matched : Bool} {p q : Progress}
      (holds : Evaluates g (.term owner term) p true q)
      (idle : q.reader.offset = p.reader.offset) :
      Evaluates g (.rounds owner term matched) p true q
  | round {owner : SymbolId} {term : Term} {matched : Bool} {p q r : Progress} {verdict : Bool}
      (holds : Evaluates g (.term owner term) p true q)
      (moved : q.reader.offset ≠ p.reader.offset)
      (again : Evaluates g (.rounds owner term true) q verdict r) :
      Evaluates g (.rounds owner term matched) p verdict r
  | unknown {owner : SymbolId} {term : Term} {p : Progress}
      (missing : g.symbol? term.symbol = none) : Evaluates g (.term owner term) p false p
  | inactive {owner : SymbolId} {term : Term} {entry : SymbolEntry} {p : Progress}
      (known : g.symbol? term.symbol = some entry)
      (off : entry.definition.contextKey &&& p.contexts = 0) :
      Evaluates g (.term owner term) p false p
  | nested {owner : SymbolId} {term : Term} {entry : SymbolEntry} {index : Nat}
      {p q : Progress} {verdict : Bool} (known : g.symbol? term.symbol = some entry)
      (active : entry.definition.contextKey &&& p.contexts ≠ 0)
      (starts : entry.ruleIndex? = some index)
      (entered : Evaluates g (.rule index) p verdict q) :
      Evaluates g (.term owner term) p verdict q
  | terminal {owner : SymbolId} {term : Term} {entry : SymbolEntry} {p q : Progress}
      {verdict : Bool} (known : g.symbol? term.symbol = some entry)
      (active : entry.definition.contextKey &&& p.contexts ≠ 0)
      (noRule : entry.ruleIndex? = none)
      (read : g.matchTerminal term entry.definition owner p = (verdict, q)) :
      Evaluates g (.term owner term) p verdict q

/-- What trying a terminal can come to, from some progress. -/
inductive Tries (g : Grammar) (term : Term) (definition : SymbolDef) (owner : SymbolId)
    (p : Progress) : Bool × Progress → Prop
  /-- The trivia that were passed in vain are not given back. -/
  | refused : Tries g term definition owner p (false, { p with reader := p.reader.skipTrivia.2 })
  | numeral {value : Binary32} {length : Nat} (found : p.reader.skipTrivia.1 = true)
      (isValue : term.symbol = g.valueSymbol)
      (number : p.reader.skipTrivia.2.number? = some (value, length)) :
      Tries g term definition owner p
        (true, Progress.accept
          { p with reader := p.reader.skipTrivia.2, constants := p.constants.push value }
          definition term.symbol owner length)
  | literal {text : String} (found : p.reader.skipTrivia.1 = true)
      (other : term.symbol ≠ g.valueSymbol)
      (spelled : term.text?.or (g.defaultText? term.symbol) = some text)
      (there : p.reader.skipTrivia.2.isAtLiteral text = true) :
      Tries g term definition owner p
        (true, Progress.accept { p with reader := p.reader.skipTrivia.2 }
          definition term.symbol owner text.utf8ByteSize)

theorem tries_matchTerminal (g : Grammar) (term : Term) (definition : SymbolDef)
    (owner : SymbolId) (p : Progress) :
    g.Tries term definition owner p (g.matchTerminal term definition owner p) := by
  unfold matchTerminal
  dsimp only
  split
  · exact .refused
  next found =>
    have found : p.reader.skipTrivia.1 = true := by simpa using found
    split
    next isValue =>
      split
      next number => exact .numeral found isValue number
      · exact .refused
    next other =>
      split
      next spelled =>
        split
        next there => exact .literal found other spelled there
        · exact .refused
      · exact .refused

/-- The terms that a goal names itself. -/
def Goal.terms : Goal → List Term
  | .rule _ => []
  | .first _ alternatives => alternatives.flatten.map Piece.term
  | .sequence _ pieces => pieces.map Piece.term
  | .piece _ own => [own.term]
  | .rounds _ tried _ | .term _ tried => [tried]

/-- The rules of the grammar name only such terms. -/
def RulesName (g : Grammar) (among : Term → Prop) : Prop :=
  ∀ index symbol body, g.steps.drop index = .rule symbol :: body →
    ∀ term ∈ (Goal.first symbol (Alternatives.ofSteps body).all).terms, among term

/-- Every rule names terms of the table. -/
theorem rulesName_steps (g : Grammar) : g.RulesName (· ∈ g.steps.filterMap Step.term?) := by
  intro index symbol body opens term member
  simp only [Goal.terms, List.mem_map, List.mem_flatten] at member
  obtain ⟨piece, ⟨pieces, alternative, inside⟩, rfl⟩ := member
  have named := Alternatives.term_mem_of_ofSteps alternative inside
  have steps : body <:+ g.steps :=
    (List.suffix_cons (.rule symbol) body).trans (opens ▸ List.drop_suffix index g.steps)
  exact (steps.sublist.filterMap Step.term?).subset named

/-- What the terminals that can be named preserve, accepted or not, evaluation preserves: goals
are tried only where terminals have led to. -/
theorem Evaluates.preserves_among {g : Grammar} {among : Term → Prop} (closed : g.RulesName among)
    {holds : Progress → Prop}
    (preserved : ∀ (term : Term) (entry : SymbolEntry) (owner : SymbolId) (p : Progress),
      among term → g.symbol? term.symbol = some entry →
      entry.definition.contextKey &&& p.contexts ≠ 0 → entry.ruleIndex? = none → holds p →
      holds (g.matchTerminal term entry.definition owner p).2)
    {goal : Goal} {p q : Progress} {verdict : Bool} (evaluates : Evaluates g goal p verdict q)
    (own : ∀ term ∈ goal.terms, among term) : holds p → holds q := by
  induction evaluates with
  | exhausted | finished | unknown | inactive => exact id
  | rule opens _ ih => exact ih (closed _ _ _ opens)
  | chosen _ ih => exact ih fun term member => own term (by simp_all [Goal.terms])
  | passedOver _ _ _ ih => exact ih fun term member => own term (by simp_all [Goal.terms])
  | stopped _ ih => exact ih fun term member => own term (by simp_all [Goal.terms])
  | one _ ih | optional _ ih | several _ ih | lastRound _ ih | idleRound _ _ ih => exact ih own
  | nested _ _ _ _ ih => exact ih (by simp [Goal.terms])
  | andThen _ _ first second =>
    intro held
    apply second fun term member => own term (by simp_all [Goal.terms])
    exact first (fun term member => own term (by simp_all [Goal.terms])) held
  | round _ _ _ first second => exact second own ∘ first own
  | @terminal owner term entry p _ _ known active noRule read =>
    intro held
    have kept := preserved term entry owner p (own term (by simp [Goal.terms])) known active noRule
      held
    rw [read] at kept
    exact kept

/-- What every terminal preserves, evaluation preserves. -/
theorem Evaluates.preserves {g : Grammar} {holds : Progress → Prop}
    (preserved : ∀ (term : Term) (entry : SymbolEntry) (owner : SymbolId) (p : Progress),
      g.symbol? term.symbol = some entry → entry.definition.contextKey &&& p.contexts ≠ 0 →
      entry.ruleIndex? = none → holds p → holds (g.matchTerminal term entry.definition owner p).2)
    {goal : Goal} {p q : Progress} {verdict : Bool} (evaluates : Evaluates g goal p verdict q) :
    holds p → holds q :=
  evaluates.preserves_among (fun _ _ _ _ _ _ => trivial)
    (fun term entry owner p _ => preserved term entry owner p) (fun _ _ => trivial)

/-! ### What matching finds is evaluation -/

section

variable {g : Grammar} {owner : SymbolId} {attempt : Term → Progress → Attempt}

/-- The attempts at terms evaluate them. -/
def Sound (g : Grammar) (owner : SymbolId) (attempt : Term → Progress → Attempt) : Prop :=
  ∀ term p verdict q, attempt term p = some (verdict, q) →
    Evaluates g (.term owner term) p verdict q

theorem matchMany_sound (sound : Sound g owner attempt) (term : Term) {rounds : Nat}
    {matched : Bool} {p : Progress} {verdict : Bool} {q : Progress}
    (found : matchMany (attempt term) rounds matched p = some (verdict, q)) :
    Evaluates g (.rounds owner term matched) p verdict q := by
  induction rounds generalizing matched p with
  | zero => cases found
  | succ rounds ih =>
    unfold matchMany at found
    split at found
    · cases found
    next tried =>
      cases found
      exact .lastRound (sound _ _ _ _ tried)
    next next tried =>
      split at found
      next idle =>
        cases found
        exact .idleRound (sound _ _ _ _ tried) idle
      next moved => exact .round (sound _ _ _ _ tried) moved (ih found)

theorem attemptPiece_sound (sound : Sound g owner attempt) {piece : Piece} {p : Progress}
    {verdict : Bool} {q : Progress}
    (found : attemptPiece attempt piece p = some (verdict, q)) :
    Evaluates g (.piece owner piece) p verdict q := by
  cases piece with
  | one term => exact .one (sound _ _ _ _ found)
  | optional term =>
    obtain ⟨⟨tried, later⟩, result, same⟩ := Option.map_eq_some_iff.mp found
    cases same
    exact .optional (sound _ _ _ _ result)
  | several term => exact .several (matchMany_sound sound term found)

theorem attemptSequence_sound (sound : Sound g owner attempt) {pieces : List Piece}
    {p : Progress} {verdict : Bool} {q : Progress}
    (found : attemptSequence attempt pieces p = some (verdict, q)) :
    Evaluates g (.sequence owner pieces) p verdict q := by
  induction pieces generalizing p with
  | nil =>
    cases found
    exact .finished
  | cons piece rest ih =>
    unfold attemptSequence at found
    split at found
    · cases found
    next tried =>
      cases found
      exact .stopped (attemptPiece_sound sound tried)
    next next tried => exact .andThen (attemptPiece_sound sound tried) (ih found)

theorem attemptFirst_sound (sound : Sound g owner attempt) {alternatives : List (List Piece)}
    {p : Progress} {verdict : Bool} {q : Progress}
    (found : attemptFirst attempt alternatives p = some (verdict, q)) :
    Evaluates g (.first owner alternatives) p verdict q := by
  induction alternatives with
  | nil =>
    cases found
    exact .exhausted
  | cons pieces rest ih =>
    unfold attemptFirst otherwise at found
    split at found
    · cases found
    next next tried =>
      cases found
      exact .chosen (attemptSequence_sound sound tried)
    next next tried => exact .passedOver (attemptSequence_sound sound tried) (ih found)

/-- Terms are evaluated if the rules that they name are. -/
theorem matchTerm_sound {enter : Nat → Progress → Attempt}
    (entered : ∀ id entry index, g.symbol? id = some entry → entry.ruleIndex? = some index →
      ∀ p verdict q, enter index p = some (verdict, q) → Evaluates g (.rule index) p verdict q) :
    Sound g owner (g.matchTerm enter owner) := by
  intro term p verdict q found
  unfold matchTerm at found
  split at found
  next missing =>
    cases found
    exact .unknown missing
  next entry known =>
    split at found
    next off =>
      cases found
      exact .inactive known off
    next active =>
      split at found
      next index starts =>
        exact .nested known active starts (entered _ entry index known starts p verdict q found)
      next noRule => exact .terminal known active noRule (Option.some.inj found)

theorem matchRule_sound (wellFormed : g.WellFormed) {depth index : Nat} {symbol : SymbolId}
    {body : List Step} (opens : g.steps.drop index = .rule symbol :: body) {p : Progress}
    {verdict : Bool} {q : Progress} (found : g.matchRule depth index p = some (verdict, q)) :
    Evaluates g (.rule index) p verdict q := by
  induction depth generalizing index symbol body p verdict q with
  | zero => cases found
  | succ depth ih =>
    rw [matchRule_eq_attemptFirst wellFormed opens] at found
    refine .rule opens (attemptFirst_sound (matchTerm_sound ?_) found)
    intro id entry other known starts p verdict q found
    obtain ⟨rest, there⟩ := wellFormed.opens id entry other known starts
    exact ih there found

end

/-! ### More nesting changes no result -/

/-- Two attempts come to the same, or the first is cut off and there is a reason for it. -/
def AgreeOr (reason : Prop) (first second : Attempt) : Prop :=
  first = second ∨ first = none ∧ reason

theorem AgreeOr.eq_some {reason : Prop} {first second : Attempt}
    (agree : AgreeOr reason first second)
    {outcome : Bool × Progress} (found : first = some outcome) : second = some outcome := by
  rcases agree with same | ⟨cut, -⟩
  · rw [← same, found]
  · rw [found] at cut
    cases cut

section

variable {e : Progress} {reason : Prop}

theorem matchMany_agree {first second : Progress → Attempt} (keeps : Keeps first)
    (agree : ∀ p, e.Follows p → AgreeOr reason (first p) (second p)) (rounds : Nat)
    (matched : Bool) {p : Progress} (reached : e.Follows p) :
    AgreeOr reason (matchMany first rounds matched p) (matchMany second rounds matched p) := by
  induction rounds generalizing matched p with
  | zero => exact .inl rfl
  | succ rounds ih =>
    unfold matchMany
    rcases agree p reached with same | ⟨cut, why⟩
    · rw [← same]
      cases tried : first p with
      | none => exact .inl rfl
      | some outcome =>
        obtain ⟨verdict, next⟩ := outcome
        cases verdict with
        | false => exact .inl rfl
        | true =>
          dsimp only
          split
          · exact .inl rfl
          · exact ih true (reached.trans (keeps _ _ _ tried))
    · rw [cut]
      exact .inr ⟨rfl, why⟩

variable {first second : Term → Progress → Attempt}

theorem attemptPiece_agree (keeps : ∀ term, Keeps (first term))
    (agree : ∀ term p, e.Follows p → AgreeOr reason (first term p) (second term p))
    (piece : Piece) {p : Progress} (reached : e.Follows p) :
    AgreeOr reason (attemptPiece first piece p) (attemptPiece second piece p) := by
  cases piece with
  | one term => exact agree term p reached
  | optional term =>
    rcases agree term p reached with same | ⟨cut, why⟩
    · exact .inl (by simp only [attemptPiece, same])
    · exact .inr ⟨by simp [attemptPiece, cut], why⟩
  | several term => exact matchMany_agree (keeps term) (agree term) _ _ reached

theorem attemptSequence_agree (keeps : ∀ term, Keeps (first term))
    (agree : ∀ term p, e.Follows p → AgreeOr reason (first term p) (second term p))
    (pieces : List Piece) {p : Progress} (reached : e.Follows p) :
    AgreeOr reason (attemptSequence first pieces p) (attemptSequence second pieces p) := by
  induction pieces generalizing p with
  | nil => exact .inl rfl
  | cons piece rest ih =>
    unfold attemptSequence
    rcases attemptPiece_agree keeps agree piece reached with same | ⟨cut, why⟩
    · rw [← same]
      cases tried : attemptPiece first piece p with
      | none => exact .inl rfl
      | some outcome =>
        obtain ⟨verdict, next⟩ := outcome
        cases verdict with
        | false => exact .inl rfl
        | true => exact ih (reached.trans (attemptPiece_keeps keeps piece _ _ _ tried))
    · rw [cut]
      exact .inr ⟨rfl, why⟩

theorem attemptFirst_agree (keeps : ∀ term, Keeps (first term))
    (agree : ∀ term p, e.Follows p → AgreeOr reason (first term p) (second term p))
    (alternatives : List (List Piece)) {p : Progress} (reached : e.Follows p) :
    AgreeOr reason (attemptFirst first alternatives p) (attemptFirst second alternatives p) := by
  induction alternatives with
  | nil => exact .inl rfl
  | cons pieces rest ih =>
    unfold attemptFirst otherwise
    rcases attemptSequence_agree keeps agree pieces reached with same | ⟨cut, why⟩
    · rw [← same]
      cases tried : attemptSequence first pieces p with
      | none => exact .inl rfl
      | some outcome =>
        obtain ⟨verdict, next⟩ := outcome
        cases verdict with
        | false => exact ih
        | true => exact .inl rfl
    · rw [cut]
      exact .inr ⟨rfl, why⟩

theorem matchTerm_agree {g : Grammar} {enter further : Nat → Progress → Attempt}
    (owner : SymbolId) (term : Term) (p : Progress)
    (agree : ∀ entry index, g.symbol? term.symbol = some entry →
      entry.ruleIndex? = some index → AgreeOr reason (enter index p) (further index p)) :
    AgreeOr reason (g.matchTerm enter owner term p) (g.matchTerm further owner term p) := by
  unfold matchTerm
  split
  · exact .inl rfl
  next entry known =>
    split
    · exact .inl rfl
    · split
      next index starts => exact agree entry index known starts
      · exact .inl rfl

end

section

variable {g : Grammar}

theorem matchRule_agree (wellFormed : g.WellFormed) (depth index : Nat) (p : Progress) :
    AgreeOr True (g.matchRule depth index p) (g.matchRule (depth + 1) index p) := by
  induction depth generalizing index p with
  | zero => exact .inr ⟨rfl, trivial⟩
  | succ depth ih =>
    by_cases starts : ∃ symbol body, g.steps.drop index = .rule symbol :: body
    · obtain ⟨symbol, body, opens⟩ := starts
      rw [matchRule_eq_attemptFirst wellFormed opens, matchRule_eq_attemptFirst wellFormed opens]
      apply attemptFirst_agree (g.matchTerm_keeps (g.matchRule_keeps depth) symbol)
      · intro term q _
        exact matchTerm_agree symbol term q fun _ other _ _ => ih other q
      · exact .refl p
    · unfold matchRule
      split
      next symbol body opens => exact absurd ⟨symbol, body, opens⟩ starts
      · exact .inl rfl

theorem matchRule_deepen (wellFormed : g.WellFormed) {depth further index : Nat} {p : Progress}
    {outcome : Bool × Progress} (found : g.matchRule depth index p = some outcome)
    (more : depth ≤ further) : g.matchRule further index p = some outcome := by
  induction more with
  | refl => exact found
  | step _ ih => exact (matchRule_agree wellFormed _ index p).eq_some ih

/-! ### Every evaluation is found -/

/-- The attempt that computes a goal. -/
def attemptGoal (g : Grammar) (depth : Nat) : Goal → Progress → Attempt
  | .rule index, p => g.matchRule depth index p
  | .first owner alternatives, p =>
    attemptFirst (g.matchTerm (g.matchRule depth) owner) alternatives p
  | .sequence owner pieces, p =>
    attemptSequence (g.matchTerm (g.matchRule depth) owner) pieces p
  | .piece owner piece, p => attemptPiece (g.matchTerm (g.matchRule depth) owner) piece p
  | .rounds owner term matched, p =>
    matchMany (g.matchTerm (g.matchRule depth) owner term) (p.reader.remaining + 1) matched p
  | .term owner term, p => g.matchTerm (g.matchRule depth) owner term p

theorem attemptGoal_deepen (wellFormed : g.WellFormed) {depth further : Nat} {goal : Goal}
    {p : Progress} {outcome : Bool × Progress}
    (found : g.attemptGoal depth goal p = some outcome) (more : depth ≤ further) :
    g.attemptGoal further goal p = some outcome := by
  have keeps (owner : SymbolId) := g.matchTerm_keeps (g.matchRule_keeps depth) owner
  have agree (owner : SymbolId) (term : Term) (q : Progress) (_ : p.Follows q) :
      AgreeOr True (g.matchTerm (g.matchRule depth) owner term q)
        (g.matchTerm (g.matchRule further) owner term q) := by
    refine matchTerm_agree owner term q fun _ index _ _ => ?_
    cases tried : g.matchRule depth index q with
    | none => exact .inr ⟨rfl, trivial⟩
    | some outcome => exact .inl (matchRule_deepen wellFormed tried more).symm
  cases goal with
  | rule index => exact matchRule_deepen wellFormed found more
  | first owner alternatives =>
    exact (attemptFirst_agree (keeps owner) (agree owner) alternatives (.refl p)).eq_some found
  | sequence owner pieces =>
    exact (attemptSequence_agree (keeps owner) (agree owner) pieces (.refl p)).eq_some found
  | piece owner piece =>
    exact (attemptPiece_agree (keeps owner) (agree owner) piece (.refl p)).eq_some found
  | rounds owner term matched =>
    exact (matchMany_agree (keeps owner term) (agree owner term) _ matched (.refl p)).eq_some
      found
  | term owner term => exact (agree owner term p (.refl p)).eq_some found

/-- Two goals that are computed at some depth are both computed at the greater one. -/
private theorem exists_common (wellFormed : g.WellFormed) {goal goal' : Goal} {p p' : Progress}
    {outcome outcome' : Bool × Progress}
    (first : ∃ depth, g.attemptGoal depth goal p = some outcome)
    (second : ∃ depth, g.attemptGoal depth goal' p' = some outcome') :
    ∃ depth, g.attemptGoal depth goal p = some outcome ∧
      g.attemptGoal depth goal' p' = some outcome' := by
  obtain ⟨depth, found⟩ := first
  obtain ⟨depth', found'⟩ := second
  exact ⟨max depth depth', attemptGoal_deepen wellFormed found (Nat.le_max_left _ _),
    attemptGoal_deepen wellFormed found' (Nat.le_max_right _ _)⟩

/-- More rounds than are needed do not matter. -/
theorem matchMany_rounds {attempt : Progress → Attempt} {rounds more : Nat} {matched : Bool}
    {p : Progress} {outcome : Bool × Progress}
    (found : matchMany attempt rounds matched p = some outcome) (enough : rounds ≤ more) :
    matchMany attempt more matched p = some outcome := by
  induction rounds generalizing matched p more with
  | zero => cases found
  | succ rounds ih =>
    obtain ⟨more, rfl⟩ : ∃ less, more = less + 1 := ⟨more - 1, by omega⟩
    unfold matchMany at found ⊢
    split at found
    · cases found
    · exact found
    · split at found
      next idle => rw [if_pos idle]; exact found
      next moved => rw [if_neg moved]; exact ih found (by omega)

theorem exists_attemptGoal (wellFormed : g.WellFormed) {goal : Goal} {p q : Progress}
    {verdict : Bool} (evaluates : Evaluates g goal p verdict q) :
    ∃ depth, g.attemptGoal depth goal p = some (verdict, q) := by
  induction evaluates with
  | rule opens _ ih =>
    obtain ⟨depth, found⟩ := ih
    exact ⟨depth + 1, (matchRule_eq_attemptFirst wellFormed opens depth _).trans found⟩
  | exhausted | finished => exact ⟨0, rfl⟩
  | chosen _ ih =>
    obtain ⟨depth, found⟩ := ih
    refine ⟨depth, ?_⟩
    simp only [attemptGoal] at found ⊢
    simp [attemptFirst, found, otherwise]
  | passedOver _ _ ih ih' =>
    obtain ⟨depth, failed, found⟩ := exists_common wellFormed ih ih'
    refine ⟨depth, ?_⟩
    simp only [attemptGoal] at failed found ⊢
    simp [attemptFirst, failed, found, otherwise]
  | andThen _ _ ih ih' =>
    obtain ⟨depth, held, found⟩ := exists_common wellFormed ih ih'
    refine ⟨depth, ?_⟩
    simp only [attemptGoal] at held found ⊢
    simp [attemptSequence, held, found]
  | stopped _ ih =>
    obtain ⟨depth, failed⟩ := ih
    refine ⟨depth, ?_⟩
    simp only [attemptGoal] at failed ⊢
    simp [attemptSequence, failed]
  | one _ ih | several _ ih => exact ih
  | optional _ ih =>
    obtain ⟨depth, found⟩ := ih
    refine ⟨depth, ?_⟩
    simp only [attemptGoal] at found ⊢
    simp [attemptPiece, found]
  | lastRound _ ih =>
    obtain ⟨depth, failed⟩ := ih
    refine ⟨depth, ?_⟩
    simp only [attemptGoal] at failed ⊢
    simp [matchMany, failed]
  | idleRound _ idle ih =>
    obtain ⟨depth, held⟩ := ih
    refine ⟨depth, ?_⟩
    simp only [attemptGoal] at held ⊢
    simp [matchMany, held, idle]
  | round _ moved _ ih ih' =>
    obtain ⟨depth, held, found⟩ := exists_common wellFormed ih ih'
    refine ⟨depth, ?_⟩
    simp only [attemptGoal] at held found ⊢
    -- a round that has moved leaves fewer bytes than rounds
    have fewer := (g.matchTerm_keeps (g.matchRule_keeps _) _ _ _ _ _ held).remaining_lt
      moved
    unfold matchMany
    simp only [held, if_neg moved]
    exact matchMany_rounds found fewer
  | unknown missing => exact ⟨0, by simp [attemptGoal, matchTerm, missing]⟩
  | inactive known off => exact ⟨0, by simp [attemptGoal, matchTerm, known, off]⟩
  | nested known active starts _ ih =>
    obtain ⟨depth, found⟩ := ih
    refine ⟨depth, ?_⟩
    simp only [attemptGoal] at found ⊢
    simp [matchTerm, known, active, starts, found]
  | terminal known active noRule read =>
    exact ⟨0, by simp [attemptGoal, matchTerm, known, active, noRule, read]⟩

/-! ### The bound on nesting is never in the way -/

theorem lt_length_of_drop {steps : List Step} {index : Nat} {step : Step} {rest : List Step}
    (starts : steps.drop index = step :: rest) : index < steps.length := by
  apply Nat.lt_of_not_le
  intro past
  rw [List.drop_eq_nil_of_le past] at starts
  cases starts

/-- A rule that needs some nesting names, at a progress that follows, one that needs a
nesting less. -/
theorem exists_nested (wellFormed : g.WellFormed) {depth index : Nat} {p : Progress}
    (cut : g.matchRule (depth + 1) index p = none)
    (found : g.matchRule (depth + 2) index p ≠ none) :
    ∃ other q, other < g.steps.length ∧ p.Follows q ∧ g.matchRule depth other q = none ∧
      g.matchRule (depth + 1) other q ≠ none := by
  have starts : ∃ symbol body, g.steps.drop index = .rule symbol :: body := by
    unfold matchRule at cut
    split at cut
    next symbol body opens => exact ⟨symbol, body, opens⟩
    · cases cut
  obtain ⟨symbol, body, opens⟩ := starts
  rw [matchRule_eq_attemptFirst wellFormed opens] at cut found
  have agree : AgreeOr (∃ other q, other < g.steps.length ∧ p.Follows q ∧
      g.matchRule depth other q = none ∧ g.matchRule (depth + 1) other q ≠ none)
      (attemptFirst (g.matchTerm (g.matchRule depth) symbol) (Alternatives.ofSteps body).all p)
      (attemptFirst (g.matchTerm (g.matchRule (depth + 1)) symbol)
        (Alternatives.ofSteps body).all p) := by
    apply attemptFirst_agree (g.matchTerm_keeps (g.matchRule_keeps depth) symbol)
    · intro term q follows
      refine matchTerm_agree symbol term q fun entry other known starts => ?_
      -- a rule that is cut off here and not with one nesting more is the one we look for
      rcases matchRule_agree wellFormed depth other q with same | ⟨cutOff, -⟩
      · exact .inl same
      · by_cases also : g.matchRule (depth + 1) other q = none
        · exact .inl (cutOff.trans also.symm)
        · obtain ⟨rest, there⟩ := wellFormed.opens _ entry other known starts
          have inside := lt_length_of_drop there
          exact .inr ⟨cutOff, other, q, inside, follows, cutOff, also⟩
    · exact .refl p
  rw [cut] at agree
  rcases agree with same | ⟨-, reason⟩
  · exact absurd same.symm found
  · exact reason

/-- The rules that come to a verdict at some progress with a given nesting. -/
def decided (g : Grammar) (depth : Nat) (p : Progress) : Finset Nat :=
  (Finset.range g.steps.length).filter fun index => (g.matchRule depth index p).isSome

theorem mem_decided {depth index : Nat} {p : Progress} : index ∈ g.decided depth p ↔
    index < g.steps.length ∧ g.matchRule depth index p ≠ none := by
  simp [decided, Option.isSome_iff_ne_none]

theorem decided_subset (wellFormed : g.WellFormed) (depth : Nat) (p : Progress) :
    g.decided depth p ⊆ g.decided (depth + 1) p := by
  intro index member
  obtain ⟨inside, verdict⟩ := mem_decided.mp member
  obtain ⟨outcome, found⟩ := Option.ne_none_iff_exists'.mp verdict
  have deeper := matchRule_deepen wellFormed found (Nat.le_succ depth)
  exact mem_decided.mpr ⟨inside, by simp [deeper]⟩

theorem card_decided_le (depth : Nat) (p : Progress) :
    (g.decided depth p).card ≤ g.steps.length := by
  have few := Finset.card_filter_le (Finset.range g.steps.length)
    fun index => (g.matchRule depth index p).isSome
  rwa [Finset.card_range] at few

/-- The nesting that a rule needs: at the same progress each nested rule is decided earlier
than the one around it, and every byte read allows for all rules anew. -/
theorem nesting_le (wellFormed : g.WellFormed) {depth index : Nat} {p : Progress}
    (inside : index < g.steps.length) (cut : g.matchRule depth index p = none)
    (found : g.matchRule (depth + 1) index p ≠ none) :
    depth + 1 ≤ (g.decided (depth + 1) p).card + g.steps.length * p.reader.remaining := by
  induction depth generalizing index p with
  | zero =>
    have some := Finset.card_pos.mpr ⟨index, mem_decided.mpr ⟨inside, found⟩⟩
    omega
  | succ depth ih =>
    obtain ⟨other, q, inside', follows, cut', found'⟩ := exists_nested wellFormed cut found
    have nested := ih inside' cut' found'
    have member := mem_decided.mpr ⟨inside, found⟩
    have some := Finset.card_pos.mpr ⟨index, member⟩
    rcases follows.moved with rfl | closer
    · -- this rule is decided now and was not before
      have notYet : index ∉ g.decided (depth + 1) q := fun early =>
        (mem_decided.mp early).2 cut
      have grown : (g.decided (depth + 1) q).card < (g.decided (depth + 1 + 1) q).card :=
        Finset.card_lt_card ⟨decided_subset wellFormed _ q, fun all => notYet (all member)⟩
      omega
    · have few := card_decided_le (g := g) (depth + 1) q
      have bytes : g.steps.length * (q.reader.remaining + 1) ≤
          g.steps.length * p.reader.remaining := Nat.mul_le_mul_left _ closer
      rw [Nat.mul_add] at bytes
      omega

/-- One nesting per step and remaining byte is enough for every result. -/
theorem matchRule_of_bound (wellFormed : g.WellFormed) {depth index bound : Nat} {p : Progress}
    {outcome : Bool × Progress} (inside : index < g.steps.length)
    (found : g.matchRule depth index p = some outcome)
    (enough : g.steps.length * (p.reader.remaining + 1) ≤ bound) :
    g.matchRule bound index p = some outcome := by
  induction depth with
  | zero => cases found
  | succ depth ih =>
    by_cases cut : g.matchRule depth index p = none
    · have needed := nesting_le wellFormed inside cut (by rw [found]; simp)
      have few := card_decided_le (g := g) (depth + 1) p
      rw [Nat.mul_add] at enough
      exact matchRule_deepen wellFormed found (by omega)
    · obtain ⟨earlier, before⟩ := Option.ne_none_iff_exists'.mp cut
      have same := matchRule_deepen wellFormed before (Nat.le_succ depth)
      rw [found] at same
      exact ih (before.trans same.symm)

/-- Matching a whole source is evaluating the root. -/
theorem matchSource_of_evaluates (wellFormed : g.WellFormed) {source : List UInt8}
    {verdict : Bool} {q : Progress}
    (evaluates : Evaluates g (.rule 0) (g.start source) verdict q) :
    g.matchSource source = some (verdict, q) := by
  obtain ⟨depth, found⟩ := exists_attemptGoal wellFormed evaluates
  cases evaluates with
  | rule opens _ =>
    exact matchRule_of_bound wellFormed (lt_length_of_drop opens) found (Nat.le_refl _)

end

/-- What matching a whole source finds is an evaluation of the root. -/
theorem evaluates_of_matchSource {symbols : List SymbolDef} {steps : List Step}
    {valueSymbol : SymbolId} {initialContexts : UInt32} {g : Grammar}
    (linked : link symbols steps valueSymbol initialContexts = .ok g) {source : List UInt8}
    {verdict : Bool} {q : Progress} (found : g.matchSource source = some (verdict, q)) :
    Evaluates g (.rule 0) (g.start source) verdict q := by
  obtain ⟨symbol, body, opens⟩ := opens_of_link linked
  exact matchRule_sound (wellFormed_of_link linked) opens found

/-- Matching a rule of a linked grammar evaluates it: every result is one of evaluation, and
every evaluation is found within the bound on nesting. -/
theorem matchRule_evaluates {symbols : List SymbolDef} {steps : List Step}
    {valueSymbol : SymbolId} {initialContexts : UInt32} {g : Grammar}
    (linked : link symbols steps valueSymbol initialContexts = .ok g) {index : Nat}
    {symbol : SymbolId} (opens : g.step? index = some (.rule symbol)) (p : Progress)
    (verdict : Bool) (q : Progress) :
    (∀ depth, g.matchRule depth index p = some (verdict, q) →
      Evaluates g (.rule index) p verdict q) ∧
    (Evaluates g (.rule index) p verdict q →
      ∀ depth, g.steps.length * (p.reader.remaining + 1) ≤ depth →
        g.matchRule depth index p = some (verdict, q)) := by
  have wellFormed := wellFormed_of_link linked
  obtain ⟨inside, head⟩ := List.getElem?_eq_some_iff.mp opens
  constructor
  · intro depth found
    have starts : g.steps.drop index = .rule symbol :: g.steps.drop (index + 1) := by
      rw [List.drop_eq_getElem_cons inside, head]
    exact matchRule_sound wellFormed starts found
  · intro evaluates depth enough
    obtain ⟨needed, found⟩ := exists_attemptGoal wellFormed evaluates
    exact matchRule_of_bound wellFormed inside found enough

/-- The root of the shader grammar, at a program with an option in each place. -/
theorem matchRule_evaluates_shader :
    let p := Dialect.linked.start
      (utf8 "ps.1.4\ndef c0, 1, -.5, 2., 0\nmov_x2_sat r0.rgb, 1-c0_bias.r")
    link Dialect.symbols Dialect.rules Symbol.value.id Context.base = .ok Dialect.linked ∧
      Dialect.linked.step? 0 = some (.rule Symbol.program.id) ∧
      ∃ q, Evaluates Dialect.linked (.rule 0) p true q ∧
        ∀ depth, Dialect.linked.steps.length * (p.reader.remaining + 1) ≤ depth →
          Dialect.linked.matchRule depth 0 p = some (true, q) := by
  intro p
  have linked := Dialect.grammar_eq_linked
  have opens : Dialect.linked.step? 0 = some (.rule Symbol.program.id) := rfl
  have accepted : (Dialect.linked.matchRule 8 0 p).map (·.1) = some true := by decide +kernel
  obtain ⟨⟨-, q⟩, found, rfl⟩ := Option.map_eq_some_iff.mp accepted
  have result := matchRule_evaluates linked opens p true q
  have evaluates := result.1 8 found
  exact ⟨linked, opens, q, evaluates, result.2 evaluates⟩

end Grammar
end PixelAsm
