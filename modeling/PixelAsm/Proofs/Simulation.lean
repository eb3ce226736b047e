import PixelAsm.Proofs.Evaluation
import PixelAsm.Proofs.Phrases

/-!
# Two readings side by side

Two readings that have started with different tokens, and so have different contexts, go on alike
as long as they try symbols that the contexts of both allow or that the contexts of neither do.
Such symbols are collected in a set that is closed under the rules that can be entered.

To switch on more symbols is not harmless in general: an alternative that comes earlier may now be
taken, and a repetition may run further. It is harmless where the symbols that are switched on
cannot be read.
-/
namespace PixelAsm

/-- The token that a reading starts with, and the contexts that are active behind it. -/
structure Opening where
  token : Token
  contexts : UInt32

/-- Two states of reading that differ in what they started with and in nothing else. -/
structure Twins (a b : Opening) (p q : Progress) : Prop where
  left : p.contexts = a.contexts
  right : q.contexts = b.contexts
  reader : q.reader = p.reader
  constants : q.constants = p.constants
  tokens : ∃ ts, p.tokens.toList = a.token :: ts ∧ q.tokens.toList = b.token :: ts

namespace Twins

variable {a b : Opening} {p q : Progress}

theorem withReader (twins : Twins a b p q) (reader : Reader) :
    Twins a b { p with reader } { q with reader } :=
  ⟨twins.left, twins.right, rfl, twins.constants, twins.tokens⟩

theorem push (twins : Twins a b p q) (value : Binary32) :
    Twins a b { p with constants := p.constants.push value }
      { q with constants := q.constants.push value } :=
  ⟨twins.left, twins.right, twins.reader, by simp only [twins.constants], twins.tokens⟩

/-- Both accept a terminal that leaves their contexts as they are. -/
theorem accept (twins : Twins a b p q) {definition : SymbolDef}
    (left : definition.contextsAfter a.contexts = a.contexts)
    (right : definition.contextsAfter b.contexts = b.contexts) (id rule : SymbolId)
    (length : Nat) :
    Twins a b (p.accept definition id rule length) (q.accept definition id rule length) := by
  obtain ⟨ts, first, second⟩ := twins.tokens
  have place : q.place = p.place := by simp only [Progress.place, twins.reader]
  constructor
  · show definition.contextsAfter p.contexts = a.contexts
    rw [twins.left, left]
  · show definition.contextsAfter q.contexts = b.contexts
    rw [twins.right, right]
  · simp only [Progress.accept, twins.reader]
  · exact twins.constants
  · exact ⟨ts ++ [{ id, rule, place := p.place }], by simp [Progress.accept, first],
      by simp [Progress.accept, second, place]⟩

end Twins

namespace Grammar

variable {g : Grammar} {a b : Opening}

/-- A terminal is accepted by both or by none, with the same token. -/
theorem twins_matchTerminal (term : Term) {definition : SymbolDef}
    (left : definition.contextsAfter a.contexts = a.contexts)
    (right : definition.contextsAfter b.contexts = b.contexts) (owner : SymbolId)
    {p q : Progress} (twins : Twins a b p q) :
    (g.matchTerminal term definition owner q).1 = (g.matchTerminal term definition owner p).1 ∧
      Twins a b (g.matchTerminal term definition owner p).2
        (g.matchTerminal term definition owner q).2 := by
  have skipped := twins.withReader p.reader.skipTrivia.2
  unfold matchTerminal
  rw [twins.reader]
  dsimp only
  split
  · exact ⟨rfl, skipped⟩
  · split
    · split
      · exact ⟨rfl, (skipped.push _).accept left right _ _ _⟩
      · exact ⟨rfl, skipped⟩
    · split
      · split
        · exact ⟨rfl, skipped.accept left right _ _ _⟩
        · exact ⟨rfl, skipped⟩
      · exact ⟨rfl, skipped⟩

/-! ### Symbols that make no difference -/

/-- The contexts of both readings allow the same of these symbols, their terminals do not change
the contexts, and the rules that can be entered name no other symbols. -/
structure Even (g : Grammar) (a b : Opening) (among : SymbolId → Prop) : Prop where
  active : ∀ id entry, among id → g.symbol? id = some entry →
    (entry.definition.contextKey &&& a.contexts = 0 ↔
      entry.definition.contextKey &&& b.contexts = 0)
  neutral : ∀ id entry, among id → g.symbol? id = some entry →
    entry.definition.contextKey &&& a.contexts ≠ 0 → entry.ruleIndex? = none →
    entry.definition.contextsAfter a.contexts = a.contexts ∧
      entry.definition.contextsAfter b.contexts = b.contexts
  closed : ∀ id entry index symbol body, among id → g.symbol? id = some entry →
    entry.definition.contextKey &&& a.contexts ≠ 0 → entry.ruleIndex? = some index →
    g.steps.drop index = .rule symbol :: body →
    ∀ term ∈ (Goal.first symbol (Alternatives.ofSteps body).all).terms, among term.symbol

/-- The goal names symbols of the set only. -/
def Goal.Within (g : Grammar) (among : SymbolId → Prop) : Goal → Prop
  | .rule index => ∀ symbol body, g.steps.drop index = .rule symbol :: body →
      ∀ term ∈ (Goal.first symbol (Alternatives.ofSteps body).all).terms, among term.symbol
  | goal => ∀ term ∈ goal.terms, among term.symbol

theorem within_first {among : SymbolId → Prop} {owner : SymbolId} {pieces : List Piece}
    {others : List (List Piece)} : Goal.Within g among (.first owner (pieces :: others)) ↔
      Goal.Within g among (.sequence owner pieces) ∧ Goal.Within g among (.first owner others) := by
  simp [Goal.Within, Goal.terms, or_imp, forall_and]

theorem within_sequence {among : SymbolId → Prop} {owner : SymbolId} {piece : Piece}
    {pieces : List Piece} : Goal.Within g among (.sequence owner (piece :: pieces)) ↔
      Goal.Within g among (.piece owner piece) ∧ Goal.Within g among (.sequence owner pieces) := by
  simp [Goal.Within, Goal.terms]

theorem within_term {among : SymbolId → Prop} {owner : SymbolId} {term : Term} :
    Goal.Within g among (.term owner term) ↔ among term.symbol := by
  simp [Goal.Within, Goal.terms]

/-- On symbols that make no difference, both readings come to the same verdict in twin states. -/
theorem Evaluates.twin {among : SymbolId → Prop} (even : g.Even a b among) {goal : Goal}
    {p q : Progress} {verdict : Bool} (evaluates : Evaluates g goal p verdict q)
    (own : goal.Within g among) {p' : Progress} (twins : Twins a b p p') :
    ∃ q', Evaluates g goal p' verdict q' ∧ Twins a b q q' := by
  induction evaluates generalizing p' with
  | rule opens _ ih =>
    obtain ⟨q', chosen, twins⟩ := ih (own _ _ opens) twins
    exact ⟨q', .rule opens chosen, twins⟩
  | exhausted => exact ⟨p', .exhausted, twins⟩
  | finished => exact ⟨p', .finished, twins⟩
  | chosen _ ih =>
    obtain ⟨q', holds, twins⟩ := ih (within_first.mp own).1 twins
    exact ⟨q', .chosen holds, twins⟩
  -- the next alternative starts where the one that failed did, so its twin state is not needed
  | passedOver _ _ ih ih' =>
    obtain ⟨_, fails, -⟩ := ih (within_first.mp own).1 twins
    obtain ⟨q', other, twins⟩ := ih' (within_first.mp own).2 twins
    exact ⟨q', .passedOver fails other, twins⟩
  | andThen _ _ ih ih' =>
    obtain ⟨_, holds, between⟩ := ih (within_sequence.mp own).1 twins
    obtain ⟨q', rest, after⟩ := ih' (within_sequence.mp own).2 between
    exact ⟨q', .andThen holds rest, after⟩
  | stopped _ ih =>
    obtain ⟨q', fails, twins⟩ := ih (within_sequence.mp own).1 twins
    exact ⟨q', .stopped fails, twins⟩
  | one _ ih =>
    obtain ⟨q', tried, twins⟩ := ih own twins
    exact ⟨q', .one tried, twins⟩
  | optional _ ih =>
    obtain ⟨q', tried, twins⟩ := ih own twins
    exact ⟨q', .optional tried, twins⟩
  | several _ ih =>
    obtain ⟨q', repeated, twins⟩ := ih own twins
    exact ⟨q', .several repeated, twins⟩
  | lastRound _ ih =>
    obtain ⟨q', fails, twins⟩ := ih own twins
    exact ⟨q', .lastRound fails, twins⟩
  -- a round is idle in both readings or in none, since their readers are the same
  | idleRound _ idle ih =>
    obtain ⟨q', holds, after⟩ := ih own twins
    exact ⟨q', .idleRound holds (by rw [after.reader, twins.reader, idle]), after⟩
  | round _ moved _ ih ih' =>
    obtain ⟨r', holds, between⟩ := ih own twins
    obtain ⟨q', again, after⟩ := ih' own between
    exact ⟨q', .round holds (by rw [between.reader, twins.reader]; exact moved) again, after⟩
  | unknown missing => exact ⟨p', .unknown missing, twins⟩
  | inactive known off =>
    rw [twins.left, even.active _ _ (within_term.mp own) known, ← twins.right] at off
    exact ⟨p', .inactive known off, twins⟩
  | nested known active starts _ ih =>
    have member := within_term.mp own
    rw [twins.left] at active
    obtain ⟨q', entered, after⟩ := ih (even.closed _ _ _ · · member known active starts) twins
    rw [Ne, even.active _ _ member known, ← twins.right] at active
    exact ⟨q', .nested known active starts entered, after⟩
  | @terminal owner term entry p q verdict known active noRule read =>
    have member := within_term.mp own
    rw [twins.left] at active
    obtain ⟨left, right⟩ := even.neutral _ _ member known active noRule
    obtain ⟨same, after⟩ := g.twins_matchTerminal term left right owner twins
    rw [Ne, even.active _ _ member known, ← twins.right] at active
    rw [read] at same after
    refine ⟨_, .terminal known active noRule ?_, after⟩
    exact Prod.ext same rfl

/-! ### Evaluation is a function -/

theorem Evaluates.unique (wellFormed : g.WellFormed) {goal : Goal} {p q q' : Progress}
    {verdict verdict' : Bool} (first : Evaluates g goal p verdict q)
    (second : Evaluates g goal p verdict' q') : verdict = verdict' ∧ q = q' := by
  -- both evaluations are runs of the matcher, which agree once they have depth enough for both
  obtain ⟨depth, found⟩ := exists_attemptGoal wellFormed first
  obtain ⟨depth', found'⟩ := exists_attemptGoal wellFormed second
  have deep := attemptGoal_deepen wellFormed found (Nat.le_max_left depth depth')
  have deep' := attemptGoal_deepen wellFormed found' (Nat.le_max_right depth depth')
  exact Prod.mk.inj (Option.some.inj (deep.symm.trans deep'))

/-- A choice that fails stays where it was. -/
theorem Evaluates.eq_of_first {owner : SymbolId} {alternatives : List (List Piece)}
    {p q : Progress} (fails : Evaluates g (.first owner alternatives) p false q) : q = p := by
  induction alternatives with
  | nil =>
    cases fails
    rfl
  | cons pieces others ih =>
    cases fails with
    | passedOver _ other => exact ih other

/-- A choice with one alternative. -/
theorem Evaluates.of_only {owner : SymbolId} {pieces : List Piece} {p q : Progress}
    (holds : Evaluates g (.first owner [pieces]) p true q) :
    Evaluates g (.sequence owner pieces) p true q := by
  cases holds with
  | chosen holds => exact holds
  | passedOver _ other => cases other

theorem Evaluates.split_one {owner : SymbolId} {term : Term} {pieces : List Piece}
    {p q : Progress} (holds : Evaluates g (.sequence owner (.one term :: pieces)) p true q) :
    ∃ r, Evaluates g (.term owner term) p true r ∧
      Evaluates g (.sequence owner pieces) r true q := by
  cases holds with
  | andThen holds rest =>
    cases holds with
    | one tried => exact ⟨_, tried, rest⟩

/-- An option never stops a sequence. -/
theorem Evaluates.split_option {owner : SymbolId} {term : Term} {pieces : List Piece}
    {p q : Progress} {verdict : Bool}
    (evaluates : Evaluates g (.sequence owner (.optional term :: pieces)) p verdict q) :
    ∃ found r, Evaluates g (.term owner term) p found r ∧
      Evaluates g (.sequence owner pieces) r verdict q := by
  cases evaluates with
  | stopped fails => cases fails
  | andThen holds rest =>
    cases holds with
    | optional tried => exact ⟨_, _, tried, rest⟩

/-- A repetition that has matched is never taken back. -/
theorem Evaluates.eq_true_of_rounds {owner : SymbolId} {term : Term} {p q : Progress}
    {verdict : Bool} (evaluates : Evaluates g (.rounds owner term true) p verdict q) :
    verdict = true := by
  generalize rounds : Goal.rounds owner term true = goal at evaluates
  induction evaluates with
  | lastRound _ => cases rounds; rfl
  | idleRound _ _ => rfl
  | round _ _ _ _ ih => cases rounds; exact ih rfl
  | _ => cases rounds

/-! ### Choices that the first reading settles -/

/-- The second reading comes to the verdict of the first, and to a twin state if it is good. -/
def Echoes (g : Grammar) (a b : Opening) (goal : Goal) (p : Progress) : Prop :=
  ∀ verdict q, Evaluates g goal p verdict q → ∀ p', Twins a b p p' →
    ∃ q', Evaluates g goal p' verdict q' ∧ (verdict = true → Twins a b q q')

theorem Even.echoes {among : SymbolId → Prop} (even : g.Even a b among) {goal : Goal}
    (own : goal.Within g among) (p : Progress) : g.Echoes a b goal p := by
  intro verdict q evaluates p' twins
  obtain ⟨q', evaluates', after⟩ := evaluates.twin even own twins
  exact ⟨q', evaluates', fun _ => after⟩

section

variable {owner : SymbolId} {p : Progress}

/-- Only the first part of a sequence makes a difference. -/
theorem Echoes.opening {among : SymbolId → Prop} (even : g.Even a b among) {term : Term}
    (first : g.Echoes a b (.term owner term) p) {pieces : List Piece}
    (rest : Goal.Within g among (.sequence owner pieces)) :
    g.Echoes a b (.sequence owner (.one term :: pieces)) p := by
  intro verdict q evaluates p' twins
  cases evaluates with
  | stopped fails =>
    cases fails with
    | one tried =>
      obtain ⟨q', tried', -⟩ := first _ _ tried p' twins
      exact ⟨q', .stopped (.one tried'), nofun⟩
  | andThen holds others =>
    cases holds with
    | one tried =>
      obtain ⟨r', tried', between⟩ := first _ _ tried p' twins
      obtain ⟨q', others', after⟩ := others.twin even rest (between rfl)
      exact ⟨q', .andThen (.one tried') others', fun _ => after⟩

theorem Echoes.first {alternatives : List (List Piece)}
    (each : ∀ pieces ∈ alternatives, g.Echoes a b (.sequence owner pieces) p) :
    g.Echoes a b (.first owner alternatives) p := by
  induction alternatives with
  | nil =>
    intro verdict q evaluates p' twins
    cases evaluates
    exact ⟨p', .exhausted, nofun⟩
  | cons pieces others ih =>
    intro verdict q evaluates p' twins
    have own := each pieces (List.mem_cons_self ..)
    cases evaluates with
    | chosen holds =>
      obtain ⟨q', holds', after⟩ := own _ _ holds p' twins
      exact ⟨q', .chosen holds', after⟩
    | passedOver fails other =>
      obtain ⟨_, fails', -⟩ := own _ _ fails p' twins
      obtain ⟨q', other', after⟩ :=
        ih (fun pieces member => each pieces (List.mem_cons_of_mem _ member)) _ _ other p' twins
      exact ⟨q', .passedOver fails' other', after⟩

/-- A repetition goes on in the second reading as often as in the first, if the term that ends it
in the first ends it in the second too. -/
theorem Evaluates.twin_rounds {term : Term} {matched : Bool}
    (holds : ∀ p q p', Evaluates g (.term owner term) p true q → Twins a b p p' →
      ∃ q', Evaluates g (.term owner term) p' true q' ∧ Twins a b q q')
    (stays : ∀ p q, Evaluates g (.term owner term) p false q → q = p) {q : Progress}
    {verdict : Bool} (evaluates : Evaluates g (.rounds owner term matched) p verdict q)
    (last : Evaluates g (.term owner term) q false q →
      ∀ q', Twins a b q q' → Evaluates g (.term owner term) q' false q') {p' : Progress}
    (twins : Twins a b p p') :
    ∃ q', Evaluates g (.rounds owner term matched) p' verdict q' ∧ Twins a b q q' := by
  generalize rounds : Goal.rounds owner term matched = goal at evaluates
  induction evaluates generalizing matched p' with
  | lastRound fails =>
    cases rounds
    obtain rfl := stays _ _ fails
    exact ⟨p', .lastRound (last fails p' twins), twins⟩
  | idleRound held idle =>
    cases rounds
    obtain ⟨q', held', after⟩ := holds _ _ p' held twins
    exact ⟨q', .idleRound held' (by rw [after.reader, twins.reader, idle]), after⟩
  | round held moved _ _ ih =>
    cases rounds
    obtain ⟨r', held', between⟩ := holds _ _ p' held twins
    obtain ⟨q', again', after⟩ := ih last between rfl
    exact ⟨q', .round held' (by rw [between.reader, twins.reader]; exact moved) again', after⟩
  | _ => cases rounds

end

end Grammar
end PixelAsm
