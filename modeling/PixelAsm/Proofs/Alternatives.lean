import PixelAsm.Proofs.Backtracking
import PixelAsm.Proofs.Validation

/-!
# The alternatives of a rule

The steps of a rule are a flat list, and one walk over them with one flag evaluates all of
it. Read as a structure, they are alternatives: each is a sequence of pieces, and a piece is
a term that has to match, may match, or matches as often as it can. We split the steps into
alternatives, evaluate these one after the other, each from the entry of the rule, and show
that the flat walk does the same.
-/
namespace PixelAsm

/-- A part of an alternative. -/
inductive Piece where
  | one (term : Term)
  | optional (term : Term)
  | several (term : Term)
  deriving DecidableEq, Repr

def Piece.term : Piece → Term
  | one term | optional term | several term => term

/-- Steps up to the end of their rule, as the alternative that is open in front of them and
the ones that they start. -/
structure Alternatives where
  first : List Piece
  others : List (List Piece)
  deriving DecidableEq, Repr

namespace Alternatives

def all (a : Alternatives) : List (List Piece) := a.first :: a.others

def continued (piece : Piece) (a : Alternatives) : Alternatives :=
  { a with first := piece :: a.first }

/-- The split at the steps that start an alternative, which begins with their term. -/
def ofSteps : List Step → Alternatives
  | .require term :: rest => (ofSteps rest).continued (.one term)
  | .maybe term :: rest => (ofSteps rest).continued (.optional term)
  | .many term :: rest => (ofSteps rest).continued (.several term)
  | .orElse term :: rest => { first := [], others := ((ofSteps rest).continued (.one term)).all }
  | .rule _ :: _ | .done :: _ | [] => { first := [], others := [] }

/-- The pieces of the alternatives have their terms from the steps. -/
theorem term_mem_of_ofSteps {steps : List Step} {pieces : List Piece}
    (alternative : pieces ∈ (ofSteps steps).all) {piece : Piece} (member : piece ∈ pieces) :
    piece.term ∈ steps.filterMap Step.term? := by
  -- a step adds one piece to the open alternative or starts one
  have added {steps : List Step} {new : Piece}
      (ih : ∀ pieces ∈ (ofSteps steps).all, ∀ piece ∈ pieces,
        piece.term ∈ steps.filterMap Step.term?) :
      ∀ pieces ∈ ((ofSteps steps).continued new).all, ∀ piece ∈ pieces,
        piece.term ∈ new.term :: steps.filterMap Step.term? := by
    intro pieces alternative piece member
    rcases List.mem_cons.mp alternative with rfl | other
    · rcases List.mem_cons.mp member with rfl | behind
      · simp
      · exact List.mem_cons_of_mem _ (ih _ (by simp [all]) piece behind)
    · exact List.mem_cons_of_mem _ (ih pieces (List.mem_cons_of_mem _ other) piece member)
  induction steps generalizing pieces piece with
  | nil => simp_all [ofSteps, all]
  | cons step rest ih =>
    have behind : ∀ pieces ∈ (ofSteps rest).all, ∀ piece ∈ pieces,
        piece.term ∈ rest.filterMap Step.term? := fun _ inside _ member => ih inside member
    cases step with
    | rule symbol | done => simp_all [ofSteps, all]
    | require term | maybe term | many term => exact added behind pieces alternative piece member
    | orElse term =>
      rcases List.mem_cons.mp alternative with rfl | other
      · cases member
      · exact added behind pieces other piece member

end Alternatives

namespace Grammar

/-! ### Evaluating alternatives -/

def attemptPiece (attempt : Term → Progress → Attempt) : Piece → Progress → Attempt
  | .one term, p => attempt term p
  | .optional term, p => (attempt term p).map fun (_, next) => (true, next)
  | .several term, p => matchMany (attempt term) (p.reader.remaining + 1) false p

/-- The pieces of an alternative in their order, up to the first that fails. -/
def attemptSequence (attempt : Term → Progress → Attempt) : List Piece → Progress → Attempt
  | [], p => some (true, p)
  | piece :: rest, p =>
    match attemptPiece attempt piece p with
    | none => none
    | some (false, next) => some (false, next)
    | some (true, next) => attemptSequence attempt rest next

/-- The first attempt, or the second if the first has failed. -/
def otherwise (first second : Attempt) : Attempt :=
  match first with
  | none => none
  | some (true, next) => some (true, next)
  | some (false, _) => second

/-- The first alternative that matches, each tried from the same progress. -/
def attemptFirst (attempt : Term → Progress → Attempt) : List (List Piece) → Progress → Attempt
  | [], p => some (false, p)
  | pieces :: rest, p =>
    otherwise (attemptSequence attempt pieces p) (attemptFirst attempt rest p)

/-! ### The flat walk -/

/-- What a rule makes of the walk over its steps. -/
def giveBack (entry : Mark) (walked : Attempt) : Attempt :=
  match walked with
  | none => none
  | some (true, next) => some (true, next)
  | some (false, next) => some (false, next.rollback entry)

/-- A walk that holds is in the open alternative, from where it has come; one that has failed
only looks for the next alternative. -/
theorem giveBack_matchSteps {attempt : Term → Progress → Attempt}
    (keeps : ∀ term, Keeps (attempt term)) {e : Progress} {steps : List Step}
    (closes : Closes steps) {p : Progress} (reached : e.Follows p) :
    giveBack e.mark (matchSteps attempt e.mark steps true p) =
        otherwise (attemptSequence attempt (Alternatives.ofSteps steps).first p)
          (attemptFirst attempt (Alternatives.ofSteps steps).others e) ∧
      giveBack e.mark (matchSteps attempt e.mark steps false p) =
        attemptFirst attempt (Alternatives.ofSteps steps).others e := by
  induction steps generalizing p with
  | nil => exact closes.elim
  | cons step rest ih =>
    cases step with
    | rule symbol => exact closes.elim
    | done =>
      constructor
      · rfl
      · simp [matchSteps, giveBack, Alternatives.ofSteps, attemptFirst, reached.rollback]
    | orElse term =>
      constructor
      · rfl
      · -- the alternative starts at the entry, whatever the failed one has left
        simp only [matchSteps, reached.rollback, Bool.false_eq_true, if_false,
          Alternatives.ofSteps, Alternatives.all, Alternatives.continued, attemptFirst,
          attemptSequence, attemptPiece]
        cases tried : attempt term e with
        | none => rfl
        | some outcome =>
          obtain ⟨verdict, next⟩ := outcome
          have follows := keeps term _ _ _ tried
          cases verdict with
          | true => exact (ih closes follows).1
          | false => exact (ih closes follows).2
    | require term =>
      refine ⟨?_, (ih closes reached).2⟩
      simp only [matchSteps, Bool.not_true, Bool.false_eq_true, if_false, Alternatives.ofSteps,
        Alternatives.continued, attemptSequence, attemptPiece]
      cases tried : attempt term p with
      | none => rfl
      | some outcome =>
        obtain ⟨verdict, next⟩ := outcome
        have follows := reached.trans (keeps term _ _ _ tried)
        cases verdict with
        | true => exact (ih closes follows).1
        | false => exact (ih closes follows).2
    | maybe term =>
      refine ⟨?_, (ih closes reached).2⟩
      simp only [matchSteps, Bool.not_true, Bool.false_eq_true, if_false, Alternatives.ofSteps,
        Alternatives.continued, attemptSequence, attemptPiece]
      cases tried : attempt term p with
      | none => rfl
      | some outcome =>
        obtain ⟨verdict, next⟩ := outcome
        exact (ih closes (reached.trans (keeps term _ _ _ tried))).1
    | many term =>
      refine ⟨?_, (ih closes reached).2⟩
      simp only [matchSteps, Bool.not_true, Bool.false_eq_true, if_false, Alternatives.ofSteps,
        Alternatives.continued, attemptSequence, attemptPiece]
      cases tried : matchMany (attempt term) (p.reader.remaining + 1) false p with
      | none => rfl
      | some outcome =>
        obtain ⟨verdict, next⟩ := outcome
        have follows := reached.trans (matchMany_keeps (keeps term) _ _ _ _ _ tried)
        cases verdict with
        | true => exact (ih closes follows).1
        | false => exact (ih closes follows).2

theorem attemptPiece_keeps {attempt : Term → Progress → Attempt}
    (keeps : ∀ term, Keeps (attempt term)) (piece : Piece) :
    Keeps (attemptPiece attempt piece) := by
  intro p verdict next matched
  cases piece with
  | one term => exact keeps term p verdict next matched
  | optional term =>
    obtain ⟨⟨found, later⟩, tried, same⟩ := Option.map_eq_some_iff.mp matched
    cases same
    exact keeps term p found next tried
  | several term => exact matchMany_keeps (keeps term) _ _ p verdict next matched

/-! ### Rules of linked grammars -/

/-- Every rule of the grammar comes to an end, and a symbol's rule is where its entry says. -/
structure WellFormed (g : Grammar) : Prop where
  closes : ∀ index symbol body, g.steps.drop index = .rule symbol :: body → Closes body
  opens : ∀ id entry index, g.symbol? id = some entry → entry.ruleIndex? = some index →
    ∃ body, g.steps.drop index = .rule id :: body

theorem wellFormed_of_link {symbols : List SymbolDef} {steps : List Step}
    {valueSymbol : SymbolId} {initialContexts : UInt32} {g : Grammar}
    (ok : link symbols steps valueSymbol initialContexts = .ok g) : g.WellFormed := by
  constructor
  · intro index symbol body opens
    have consistent := (exists_link_iff initialContexts).mp ⟨g, ok⟩
    have same : g.steps = steps := by rw [link_eq_ok ok]
    rw [same] at opens
    have there : steps[index]? = some (.rule symbol) := by
      rw [← List.head?_drop, opens, List.head?_cons]
    have behind : steps.drop (index + 1) = body := by
      rw [← List.tail_drop, opens, List.tail_cons]
    rw [← behind]
    exact (closes_drop_iff steps index).mpr (consistent.closed index symbol there)
  · intro id entry index known starts
    have there := ((crossLinked_of_link ok).rules id entry known index).mp starts
    obtain ⟨inside, found⟩ := List.getElem?_eq_some_iff.mp there
    exact ⟨g.steps.drop (index + 1), by rw [List.drop_eq_getElem_cons inside, found]⟩

/-- The first step of a linked grammar opens the root. -/
theorem opens_of_link {symbols : List SymbolDef} {steps : List Step}
    {valueSymbol : SymbolId} {initialContexts : UInt32} {g : Grammar}
    (ok : link symbols steps valueSymbol initialContexts = .ok g) :
    ∃ symbol body, g.steps.drop 0 = .rule symbol :: body := by
  have same : g.steps = steps := by rw [link_eq_ok ok]
  obtain ⟨symbol, root⟩ := ((exists_link_iff initialContexts).mp ⟨g, ok⟩).root
  obtain ⟨inside, found⟩ := List.getElem?_eq_some_iff.mp root
  rw [same]
  exact ⟨symbol, steps.drop 1, by rw [List.drop_eq_getElem_cons inside, found]⟩

/-- A rule is evaluated by its alternatives. -/
theorem matchRule_eq_attemptFirst {g : Grammar} (wellFormed : g.WellFormed) {index : Nat}
    {symbol : SymbolId} {body : List Step} (opens : g.steps.drop index = .rule symbol :: body) (depth : Nat)
    (p : Progress) :
    g.matchRule (depth + 1) index p =
      attemptFirst (g.matchTerm (g.matchRule depth) symbol) (Alternatives.ofSteps body).all p := by
  have walked := (giveBack_matchSteps (g.matchTerm_keeps (g.matchRule_keeps depth) symbol)
    (wellFormed.closes _ _ _ opens) (.refl p)).1
  rw [Alternatives.all, attemptFirst, ← walked]
  unfold matchRule
  rw [opens]
  rfl

end Grammar
end PixelAsm
