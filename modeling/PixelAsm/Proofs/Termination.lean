import PixelAsm.Proofs.Phrases

/-!
# Matching terminates

A match is made of terminals and of returns to the entry of a rule, so what holds between
the progress in front of a terminal and behind it holds for every rule, if returning keeps
it. In particular, matching never moves the reader back behind the position where a rule was
entered, and a repetition runs out of bytes before it runs out of rounds. If the rules of a
grammar can be ranked such that each names only rules of a lower rank, then the bound on
nesting is never hit either.
-/
namespace PixelAsm

/-! ### Readers move forward -/

namespace Reader

/-- From `r` the reader can come to `s`: in the same source, not further back, and not past
the end unless it already was. -/
def Reaches (r s : Reader) : Prop :=
  s.size = r.size ∧ (r.offset ≤ r.size → r.offset ≤ s.offset ∧ s.offset ≤ r.size)

theorem Reaches.refl (r : Reader) : r.Reaches r := ⟨rfl, fun inside => ⟨Nat.le_refl _, inside⟩⟩

theorem Reaches.trans {r s t : Reader} (first : r.Reaches s) (second : s.Reaches t) :
    r.Reaches t := by
  obtain ⟨size, forward⟩ := first
  obtain ⟨size', forward'⟩ := second
  refine ⟨size'.trans size, fun inside => ?_⟩
  -- offsets stay inside the source, so both moves count
  have here := forward inside
  have there := forward' (by omega)
  omega

theorem reaches_skip (r : Reader) {count : Nat} (enough : count ≤ r.rest.length) :
    r.Reaches (r.skip count) := by
  have bytes := r.length_rest
  refine ⟨rfl, fun inside => ?_⟩
  show r.offset ≤ r.offset + count ∧ r.offset + count ≤ r.size
  omega

theorem reaches_advance (r : Reader) (count : Nat) : r.Reaches (r.advance count) := by
  refine ⟨rfl, fun inside => ?_⟩
  show r.offset ≤ min (r.offset + count) r.size ∧ min (r.offset + count) r.size ≤ r.size
  omega

theorem newlineWidth_le (bytes : List UInt8) : newlineWidth bytes ≤ bytes.length := by
  unfold newlineWidth
  split
  · simp only [List.length_cons]
    split
    · split <;> omega
    · omega
  · simp only [List.length_cons]
    split <;> omega
  · simp

theorem reaches_skipBlanks (r : Reader) : r.Reaches r.skipBlanks :=
  r.reaches_skip (List.takeWhile_sublist _).length_le

theorem reaches_skipNewline (r : Reader) : r.Reaches r.skipNewline := by
  have enough := newlineWidth_le r.rest
  unfold skipNewline
  split
  · exact .refl r
  -- only the line differs from a plain skip
  · exact r.reaches_skip enough

theorem reaches_skipComment (r : Reader) : r.Reaches r.skipComment := by
  unfold skipComment
  split
  · exact r.reaches_skip (List.takeWhile_sublist _).length_le
  · exact .refl r

theorem reaches_skipTriviaRounds (rounds : Nat) (r : Reader) :
    r.Reaches (skipTriviaRounds rounds r).2 := by
  induction rounds generalizing r with
  | zero => exact .refl r
  | succ rounds ih =>
    -- each of the three skips moves forward, and so does passing a control byte
    have moved : r.Reaches r.skipBlanks.skipNewline.skipComment :=
      (r.reaches_skipBlanks.trans (reaches_skipNewline _)).trans (reaches_skipComment _)
    unfold skipTriviaRounds
    dsimp only
    split
    · exact moved
    next b rest bytes =>
      have more : 1 ≤ r.skipBlanks.skipNewline.skipComment.rest.length := by
        rw [bytes, List.length_cons]
        omega
      split
      · exact moved
      · split
        · exact (moved.trans (reaches_skip _ more)).trans (ih _)
        · exact moved.trans (ih _)

theorem reaches_skipTrivia (r : Reader) : r.Reaches r.skipTrivia.2 := reaches_skipTriviaRounds _ r

end Reader

namespace Grammar

/-! ### What a whole match inherits from its terminals -/

/-- Whatever the verdict, the progress after the attempt is related to the one before it. -/
def Respects (related : Progress → Progress → Prop) (attempt : Progress → Attempt) : Prop :=
  ∀ p verdict next, attempt p = some (verdict, next) → related p next

/-- A relation that survives when one attempt comes after another, and when a rule that has
come from its entry `e` to `p` starts over. -/
structure Lasting (related : Progress → Progress → Prop) : Prop where
  refl : ∀ p, related p p
  trans : ∀ {p q r}, related p q → related q r → related p r
  rollback : ∀ {e p}, related e p → related e (p.rollback e.mark)

section

variable {related : Progress → Progress → Prop} (lasting : Lasting related)
include lasting

theorem matchTerm_respects (g : Grammar)
    (terminals : ∀ term definition rule p, related p (g.matchTerminal term definition rule p).2)
    {enter : Nat → Progress → Attempt} (entered : ∀ index, Respects related (enter index))
    (rule : SymbolId) (term : Term) : Respects related (g.matchTerm enter rule term) := by
  intro p verdict next matched
  unfold matchTerm at matched
  split at matched
  · cases matched
    exact lasting.refl _
  next entry known =>
    split at matched
    · cases matched
      exact lasting.refl _
    · split at matched
      · exact entered _ p verdict next matched
      · have tried := terminals term entry.definition rule p
        rw [Option.some.inj matched] at tried
        exact tried

theorem matchMany_respects {attempt : Progress → Attempt} (respects : Respects related attempt)
    (rounds : Nat) (matched : Bool) : Respects related (matchMany attempt rounds matched) := by
  induction rounds generalizing matched with
  | zero =>
    intro p verdict next result
    cases result
  | succ rounds ih =>
    intro p verdict next result
    unfold matchMany at result
    split at result
    · cases result
    next last tried =>
      cases result
      exact respects p false next tried
    next later tried =>
      split at result
      · cases result
        exact respects p true next tried
      · exact lasting.trans (respects p true later tried) (ih true later verdict next result)

/-- Whatever step a walk has come to, it is related to the entry of the rule, to which each
alternative returns. -/
theorem matchSteps_respects {attempt : Term → Progress → Attempt}
    (respects : ∀ term, Respects related (attempt term)) {e : Progress} (steps : List Step)
    (passed : Bool) {p : Progress} (reached : related e p) {verdict : Bool} {next : Progress}
    (matched : matchSteps attempt e.mark steps passed p = some (verdict, next)) :
    related e next := by
  induction steps generalizing passed p with
  | nil =>
    cases matched
    exact reached
  | cons step rest ih =>
    cases step with
    | rule symbol =>
      cases matched
      exact reached
    | done =>
      cases matched
      exact reached
    | orElse term =>
      unfold matchSteps at matched
      split at matched
      · cases matched
        exact reached
      · split at matched
        · cases matched
        -- an alternative starts at the entry again, not at `p`
        next verdict later tried =>
          have again := lasting.trans (lasting.rollback reached) (respects term _ _ _ tried)
          exact ih verdict again matched
    | require term =>
      unfold matchSteps at matched
      split at matched
      · exact ih false reached matched
      · split at matched
        · cases matched
        next verdict later tried =>
          exact ih verdict (lasting.trans reached (respects term _ _ _ tried)) matched
    | maybe term =>
      unfold matchSteps at matched
      split at matched
      · exact ih false reached matched
      · split at matched
        · cases matched
        next verdict later tried =>
          exact ih true (lasting.trans reached (respects term _ _ _ tried)) matched
    | many term =>
      unfold matchSteps at matched
      split at matched
      · exact ih false reached matched
      · split at matched
        · cases matched
        next verdict later tried =>
          have repeated := matchMany_respects lasting (respects term) _ _ _ _ _ tried
          exact ih verdict (lasting.trans reached repeated) matched

/-- What every terminal respects, every rule respects, however deep the rules are nested. -/
theorem matchRule_respects (g : Grammar)
    (terminals : ∀ term definition rule p, related p (g.matchTerminal term definition rule p).2)
    (depth index : Nat) : Respects related (g.matchRule depth index) := by
  induction depth generalizing index with
  | zero =>
    intro p verdict next matched
    cases matched
  | succ depth ih =>
    intro p verdict next matched
    unfold matchRule at matched
    split at matched
    next symbol body opens =>
      have respects := matchTerm_respects lasting g terminals ih symbol
      split at matched
      · cases matched
      next last found =>
        cases matched
        exact matchSteps_respects lasting respects body true (lasting.refl p) found
      -- a failed rule goes back to its entry
      next last found =>
        cases matched
        exact lasting.rollback
          (matchSteps_respects lasting respects body true (lasting.refl p) found)
    · cases matched
      exact lasting.refl _

end

/-! ### Matching moves forward -/

/-- Whatever the verdict, the reader does not move back. -/
def Moves (attempt : Progress → Attempt) : Prop :=
  Respects (fun p next => p.reader.Reaches next.reader) attempt

theorem lasting_reaches : Lasting fun p next => p.reader.Reaches next.reader where
  refl p := .refl p.reader
  trans := .trans
  -- the mark holds the reader itself
  rollback _ := .refl _

theorem reaches_matchTerminal (g : Grammar) (term : Term) (definition : SymbolDef)
    (rule : SymbolId) (p : Progress) :
    p.reader.Reaches (g.matchTerminal term definition rule p).2.reader := by
  have skipped := p.reader.reaches_skipTrivia
  -- a terminal is read behind its trivia
  have accepted (length : Nat) : p.reader.Reaches (p.reader.skipTrivia.2.advance length) :=
    skipped.trans (Reader.reaches_advance _ length)
  unfold matchTerminal
  dsimp only
  split
  · exact skipped
  · split
    · split
      · exact accepted _
      · exact skipped
    · split
      · split
        · exact accepted _
        · exact skipped
      · exact skipped

theorem matchTerm_moves (g : Grammar) {enter : Nat → Progress → Attempt}
    (entered : ∀ index, Moves (enter index)) (rule : SymbolId) (term : Term) :
    Moves (g.matchTerm enter rule term) :=
  matchTerm_respects lasting_reaches g g.reaches_matchTerminal entered rule term

theorem matchMany_moves {attempt : Progress → Attempt} (moves : Moves attempt) (rounds : Nat)
    (matched : Bool) : Moves (matchMany attempt rounds matched) :=
  matchMany_respects lasting_reaches moves rounds matched

theorem matchRule_moves (g : Grammar) (depth index : Nat) : Moves (g.matchRule depth index) :=
  matchRule_respects lasting_reaches g g.reaches_matchTerminal depth index

/-! ### Every attempt ends -/

/-- Within the source the attempt comes to a verdict. -/
def Total (attempt : Progress → Attempt) : Prop :=
  ∀ p, p.reader.offset ≤ p.reader.size → ∃ verdict next, attempt p = some (verdict, next)

/-- Each repetition that goes on has read a byte. -/
theorem matchMany_total {attempt : Progress → Attempt} (moves : Moves attempt)
    (total : Total attempt) (rounds : Nat) (matched : Bool) (p : Progress)
    (inside : p.reader.offset ≤ p.reader.size) (enough : p.reader.remaining < rounds) :
    ∃ verdict next, matchMany attempt rounds matched p = some (verdict, next) := by
  induction rounds generalizing matched p with
  | zero => omega
  | succ rounds ih =>
    -- a round that goes on has moved the reader, so fewer bytes remain than rounds
    obtain ⟨verdict, next, tried⟩ := total p inside
    obtain ⟨size, forward⟩ := moves p verdict next tried
    have here := forward inside
    unfold matchMany
    rw [tried]
    cases verdict with
    | false => exact ⟨matched, next, rfl⟩
    | true =>
      dsimp only
      split
      · exact ⟨true, next, rfl⟩
      next moved =>
        refine ih true next (by omega) ?_
        unfold Reader.remaining at enough ⊢
        omega

/-- The terms of the rule that starts in front of these steps. -/
def ruleTerms (steps : List Step) : List Term :=
  (steps.takeWhile (!·.isDone)).filterMap Step.term?

theorem ruleTerms_cons {step : Step} {term : Term} (own : step.term? = some term)
    (rest : List Step) : ruleTerms (step :: rest) = term :: ruleTerms rest := by
  cases step with
  | rule symbol | done => cases own
  | require term | orElse term | maybe term | many term =>
    cases own
    rfl

theorem matchSteps_total {attempt : Term → Progress → Attempt}
    (moves : ∀ term, Moves (attempt term)) (entry : Mark)
    (entered : entry.reader.offset ≤ entry.reader.size) (steps : List Step)
    (total : ∀ term ∈ ruleTerms steps, Total (attempt term)) (passed : Bool) (p : Progress)
    (inside : p.reader.offset ≤ p.reader.size) :
    ∃ verdict next, matchSteps attempt entry steps passed p = some (verdict, next) := by
  induction steps generalizing passed p with
  | nil => exact ⟨false, p, rfl⟩
  | cons step rest ih =>
    -- the terms of the remaining steps are among those of all steps
    have others {t : Term} (own : step.term? = some t) :
        Total (attempt t) ∧ ∀ term ∈ ruleTerms rest, Total (attempt term) := by
      rw [ruleTerms_cons own] at total
      exact ⟨total t (List.mem_cons_self ..),
        fun term member => total term (List.mem_cons_of_mem t member)⟩
    -- the reader stays inside the source, whichever term was tried
    have arrived {q next : Progress} (within : q.reader.offset ≤ q.reader.size)
        (reached : q.reader.Reaches next.reader) : next.reader.offset ≤ next.reader.size := by
      obtain ⟨size, forward⟩ := reached
      have here := forward within
      omega
    cases step with
    | rule symbol => exact ⟨false, p, rfl⟩
    | done => exact ⟨passed, p, rfl⟩
    | orElse term =>
      obtain ⟨own, behind⟩ := others rfl
      unfold matchSteps
      split
      · exact ⟨true, p, rfl⟩
      · obtain ⟨verdict, next, tried⟩ := own (p.rollback entry) entered
        rw [tried]
        exact ih behind verdict next (arrived entered (moves term _ _ _ tried))
    | require term =>
      obtain ⟨own, behind⟩ := others rfl
      unfold matchSteps
      split
      · exact ih behind false p inside
      · obtain ⟨verdict, next, tried⟩ := own p inside
        rw [tried]
        exact ih behind verdict next (arrived inside (moves term _ _ _ tried))
    | maybe term =>
      obtain ⟨own, behind⟩ := others rfl
      unfold matchSteps
      split
      · exact ih behind false p inside
      · obtain ⟨verdict, next, tried⟩ := own p inside
        rw [tried]
        exact ih behind true next (arrived inside (moves term _ _ _ tried))
    | many term =>
      obtain ⟨own, behind⟩ := others rfl
      unfold matchSteps
      split
      · exact ih behind false p inside
      · obtain ⟨verdict, next, tried⟩ := matchMany_total (moves term) own
          (p.reader.remaining + 1) false p inside (Nat.lt_succ_self _)
        rw [tried]
        exact ih behind verdict next
          (arrived inside (matchMany_moves (moves term) _ _ _ _ _ tried))

/-- Each rule names only rules of a lower rank. -/
def Ranked (g : Grammar) (rank : Nat → Nat) : Prop :=
  ∀ index symbol body, g.steps.drop index = .rule symbol :: body →
    ∀ term ∈ ruleTerms body, ∀ entry, g.symbol? term.symbol = some entry →
      ∀ other, entry.ruleIndex? = some other → rank other < rank index

theorem matchRule_total (g : Grammar) {rank : Nat → Nat} (ranked : g.Ranked rank)
    (depth index : Nat) (enough : rank index < depth) : Total (g.matchRule depth index) := by
  induction depth generalizing index with
  | zero => omega
  | succ depth ih =>
    intro p inside
    unfold matchRule
    split
    next symbol body opens =>
      have terms : ∀ term ∈ ruleTerms body,
          Total (g.matchTerm (g.matchRule depth) symbol term) := by
        intro term member q insideQ
        unfold matchTerm
        split
        · exact ⟨false, q, rfl⟩
        next entry known =>
          split
          · exact ⟨false, q, rfl⟩
          · split
            next other starts =>
              -- the rank falls with each rule that is entered, and the depth with it
              have lower := ranked index symbol body opens term member entry known other starts
              exact ih other (by omega) q insideQ
            · exact ⟨_, _, rfl⟩
      obtain ⟨verdict, next, found⟩ :=
        matchSteps_total (g.matchTerm_moves (g.matchRule_moves depth) symbol) p.mark inside body
          terms true p inside
      rw [found]
      cases verdict with
      | false => exact ⟨false, _, rfl⟩
      | true => exact ⟨true, next, rfl⟩
    · exact ⟨false, p, rfl⟩

end Grammar
end PixelAsm
