import PixelAsm.Grammar.Match

/-!
# Phrases of a grammar

The token sequences that a rule can accept, told from the steps of the rule alone:
neither the source nor the order of the attempts appears. Terminals change the
active contexts, so phrases relate the contexts in front of them to those behind.

A match that succeeds accepts a phrase of its rule and keeps everything that was
accepted before; a match that fails leaves tokens, constants and contexts alone.
-/
namespace PixelAsm

/-- Token sequences between two sets of active contexts. -/
abbrev Phrases := UInt32 → List Token → UInt32 → Prop

namespace Phrases

def nothing : Phrases := fun before ts after => ts = [] ∧ after = before

def either (l m : Phrases) : Phrases := fun before ts after => l before ts after ∨ m before ts after

def andThen (l m : Phrases) : Phrases := fun before ts after =>
  ∃ us vs between, ts = us ++ vs ∧ l before us between ∧ m between vs after

def optional (l : Phrases) : Phrases := either l nothing

/-- Any number of phrases in a row. -/
inductive Repeated (l : Phrases) : Phrases
  | none {contexts : UInt32} : Repeated l contexts [] contexts
  | more {before between after : UInt32} {us vs : List Token} :
      l before us between → Repeated l between vs after → Repeated l before (us ++ vs) after

end Phrases

def Step.isDone : Step → Bool
  | .done => true
  | _ => false

/-- The contexts that are active once a terminal has been accepted. -/
def SymbolDef.contextsAfter (d : SymbolDef) (contexts : UInt32) : UInt32 :=
  contexts &&& ~~~d.contextClear ||| d.contextSet

namespace Grammar

/-- The one token of a terminal, at any place. -/
def terminalPhrases (definition : SymbolDef) (id rule : SymbolId) : Phrases :=
  fun before ts after =>
    (∃ place, ts = [{ id, rule, place }]) ∧ after = definition.contextsAfter before

/-- The phrases of a term; `enter` gives those of the rule that starts at a step. -/
def termPhrases (g : Grammar) (enter : Nat → Phrases) (rule : SymbolId) (term : Term) : Phrases :=
  fun before ts after =>
    ∃ entry, g.symbol? term.symbol = some entry ∧ entry.definition.contextKey &&& before ≠ 0 ∧
      match entry.ruleIndex? with
      | some index => enter index before ts after
      | none => terminalPhrases entry.definition term.symbol rule before ts after

/-- The phrases of the steps behind the start of a rule. `soFar` holds the phrases of
the alternative that the steps passed already belong to. -/
def stepsPhrases (ofTerm : Term → Phrases) : List Step → Phrases → Phrases
  | [], _ => fun _ _ _ => False
  | .rule _ :: _, _ => fun _ _ _ => False
  | .done :: _, soFar => soFar
  | .orElse term :: rest, soFar => soFar.either (stepsPhrases ofTerm rest (ofTerm term))
  | .require term :: rest, soFar => stepsPhrases ofTerm rest (soFar.andThen (ofTerm term))
  | .maybe term :: rest, soFar =>
    stepsPhrases ofTerm rest (soFar.andThen (ofTerm term).optional)
  | .many term :: rest, soFar =>
    stepsPhrases ofTerm rest (soFar.andThen ((ofTerm term).andThen (.Repeated (ofTerm term))))

/-- The phrases of the rule that starts at a step, with at most `depth` nested rules. -/
def rulePhrases (g : Grammar) : (depth : Nat) → (index : Nat) → Phrases
  | 0, _ => fun _ _ _ => False
  | depth + 1, index =>
    match g.steps.drop index with
    | .rule symbol :: body =>
      stepsPhrases (g.termPhrases (g.rulePhrases depth) symbol) body .nothing
    | _ => fun _ _ _ => False

end Grammar

/-- One progress continues another by some tokens, with one constant for each numeral
among them. -/
structure Progress.Grows (valueSymbol : SymbolId) (p : Progress) (ts : List Token)
    (next : Progress) : Prop where
  tokens : next.tokens.toList = p.tokens.toList ++ ts
  constants : next.constants.size = p.constants.size + ts.countP (·.id == valueSymbol)

namespace Progress

variable {valueSymbol : SymbolId}

theorem Grows.refl (p : Progress) : Grows valueSymbol p [] p := ⟨by simp, by simp⟩

theorem Grows.trans {p q r : Progress} {us vs : List Token} (first : Grows valueSymbol p us q)
    (second : Grows valueSymbol q vs r) : Grows valueSymbol p (us ++ vs) r := by
  constructor
  · rw [second.tokens, first.tokens, List.append_assoc]
  · rw [second.constants, first.constants, List.countP_append]
    omega

/-- Giving up a rule undoes whatever it had accepted. -/
theorem Grows.rollback {e p : Progress} {ts : List Token} (grown : Grows valueSymbol e ts p) :
    Grows valueSymbol e [] (p.rollback e.mark) := by
  constructor
  · simp only [Progress.rollback, mark, Trail.toList_truncate, grown.tokens, List.append_nil]
    rw [← Trail.length_toList, List.take_left]
  · have enough := grown.constants
    simp only [Progress.rollback, mark, List.countP_nil, Nat.add_zero]
    rw [← Trail.length_toList, Trail.toList_truncate, List.length_take, Trail.length_toList]
    omega

@[simp]
theorem contexts_rollback (p e : Progress) : (p.rollback e.mark).contexts = e.contexts := rfl

theorem grows_of_reader (p : Progress) (reader : Reader) :
    Grows valueSymbol p [] { p with reader } := ⟨by simp, by simp⟩

end Progress

namespace Grammar

/-- An attempt accepts only the given phrases, and nothing at all if it fails. -/
def Accepts (g : Grammar) (attempt : Progress → Attempt) (phrases : Phrases) : Prop :=
  ∀ p verdict next, attempt p = some (verdict, next) →
    ∃ ts, p.Grows g.valueSymbol ts next ∧
      if verdict then phrases p.contexts ts next.contexts
      else ts = [] ∧ next.contexts = p.contexts

theorem matchTerminal_accepts (g : Grammar) (term : Term) (definition : SymbolDef)
    (rule : SymbolId) :
    g.Accepts (fun p => some (g.matchTerminal term definition rule p))
      (terminalPhrases definition term.symbol rule) := by
  intro p verdict next matched
  -- every failing branch only moves the reader
  have failed (reader : Reader) (same : (false, { p with reader }) = (verdict, next)) :
      ∃ ts, p.Grows g.valueSymbol ts next ∧
        if verdict then terminalPhrases definition term.symbol rule p.contexts ts next.contexts
        else ts = [] ∧ next.contexts = p.contexts := by
    cases same
    exact ⟨[], Progress.grows_of_reader p reader, by simp⟩
  have same := Option.some.inj matched
  clear matched
  unfold matchTerminal at same
  simp only at same
  split at same
  · exact failed _ same
  · split at same
    next isValue =>
      split at same
      · cases same
        refine ⟨[⟨term.symbol, rule, _⟩], ⟨Trail.toList_push _ _, ?_⟩, ⟨_, rfl⟩, rfl⟩
        simp [Progress.accept, Trail.push, isValue]
      · exact failed _ same
    next isLiteral =>
      split at same
      · split at same
        · cases same
          refine ⟨[⟨term.symbol, rule, _⟩], ⟨Trail.toList_push _ _, ?_⟩, ⟨_, rfl⟩, rfl⟩
          simp [Progress.accept, isLiteral]
        · exact failed _ same
      · exact failed _ same

theorem matchTerm_accepts (g : Grammar) (enter : Nat → Progress → Attempt)
    (phrases : Nat → Phrases) (entered : ∀ index, g.Accepts (enter index) (phrases index))
    (rule : SymbolId) (term : Term) :
    g.Accepts (g.matchTerm enter rule term) (g.termPhrases phrases rule term) := by
  intro p verdict next matched
  unfold matchTerm at matched
  split at matched
  · cases matched
    exact ⟨[], .refl p, rfl, rfl⟩
  next entry known =>
    split at matched
    · cases matched
      exact ⟨[], .refl p, rfl, rfl⟩
    next active =>
      split at matched
      next index starts =>
        obtain ⟨ts, grown, outcome⟩ := entered index p verdict next matched
        refine ⟨ts, grown, ?_⟩
        cases verdict with
        | false => exact outcome
        | true => exact ⟨entry, known, active, by simpa only [starts, if_true] using outcome⟩
      next terminal =>
        obtain ⟨ts, grown, outcome⟩ :=
          g.matchTerminal_accepts term entry.definition rule p verdict next matched
        refine ⟨ts, grown, ?_⟩
        cases verdict with
        | false => exact outcome
        | true => exact ⟨entry, known, active, by simpa only [terminal, if_true] using outcome⟩

/-- Rounds behind the first successful one: the verdict is settled, and any number of
phrases follows. -/
private theorem matchMany_matched (g : Grammar) (attempt : Progress → Attempt) (phrases : Phrases)
    (accepted : g.Accepts attempt phrases) (rounds : Nat) (p next : Progress) (verdict : Bool)
    (matched : matchMany attempt rounds true p = some (verdict, next)) :
    verdict = true ∧ ∃ ts, p.Grows g.valueSymbol ts next ∧
      phrases.Repeated p.contexts ts next.contexts := by
  induction rounds generalizing p with
  | zero => cases matched
  | succ rounds ih =>
    unfold matchMany at matched
    split at matched
    · cases matched
    next last tried =>
      cases matched
      -- the last round fails and adds nothing
      obtain ⟨ts, grown, rfl, same⟩ := accepted p false next tried
      exact ⟨rfl, [], grown, same ▸ .none⟩
    next later tried =>
      obtain ⟨us, grown, phrase⟩ := accepted p true later tried
      split at matched
      · cases matched
        -- a round that consumed nothing ends the repetition, but its tokens count
        refine ⟨rfl, us, grown, ?_⟩
        have once := Phrases.Repeated.more phrase .none
        rwa [List.append_nil] at once
      · obtain ⟨holds, vs, further, rest⟩ := ih later matched
        exact ⟨holds, us ++ vs, grown.trans further, .more phrase rest⟩

theorem matchMany_accepts (g : Grammar) (attempt : Progress → Attempt) (phrases : Phrases)
    (accepted : g.Accepts attempt phrases) (rounds : Nat) :
    g.Accepts (matchMany attempt rounds false) (phrases.andThen phrases.Repeated) := by
  intro p verdict next matched
  cases rounds with
  | zero => cases matched
  | succ rounds =>
    unfold matchMany at matched
    split at matched
    · cases matched
    next last tried =>
      cases matched
      exact accepted p false next tried
    next later tried =>
      obtain ⟨us, grown, phrase⟩ := accepted p true later tried
      split at matched
      · cases matched
        exact ⟨us, grown, us, [], _, by simp, phrase, .none⟩
      · obtain ⟨rfl, vs, further, rest⟩ :=
          matchMany_matched g attempt phrases accepted rounds later next verdict matched
        exact ⟨us ++ vs, grown.trans further, us, vs, _, rfl, phrase, rest⟩

/-- The walk over the steps of a rule. A failed walk has accepted something since the
rule was entered at `e`, but has no phrase to show for it. -/
theorem matchSteps_accepts (g : Grammar) (attempt : Term → Progress → Attempt)
    (ofTerm : Term → Phrases) (accepted : ∀ term, g.Accepts (attempt term) (ofTerm term))
    (e : Progress) (steps : List Step) (soFar : Phrases) (passed : Bool) (p : Progress)
    (reached : ∃ ts, e.Grows g.valueSymbol ts p ∧
      (passed = true → soFar e.contexts ts p.contexts))
    (verdict : Bool) (next : Progress)
    (matched : matchSteps attempt e.mark steps passed p = some (verdict, next)) :
    ∃ ts, e.Grows g.valueSymbol ts next ∧
      (verdict = true → stepsPhrases ofTerm steps soFar e.contexts ts next.contexts) := by
  induction steps generalizing soFar passed p with
  | nil =>
    cases matched
    obtain ⟨ts, grown, -⟩ := reached
    exact ⟨ts, grown, by simp⟩
  | cons step rest ih =>
    obtain ⟨ts, grown, phrase⟩ := reached
    -- a required, offered or repeated term continues the phrase accepted so far
    have continued (l : Phrases) (extended : Bool) (later : Progress)
        (added : ∃ us, p.Grows g.valueSymbol us later ∧
          (extended = true → passed = true ∧ l p.contexts us later.contexts)) :
        ∃ us, e.Grows g.valueSymbol us later ∧
          (extended = true → soFar.andThen l e.contexts us later.contexts) := by
      obtain ⟨us, further, more⟩ := added
      refine ⟨ts ++ us, grown.trans further, fun yes => ?_⟩
      exact ⟨ts, us, _, rfl, phrase (more yes).1, (more yes).2⟩
    cases step with
    | rule symbol =>
      cases matched
      exact ⟨ts, grown, by simp⟩
    | done =>
      cases matched
      exact ⟨ts, grown, phrase⟩
    | orElse term =>
      unfold matchSteps at matched
      split at matched
      next holds =>
        cases matched
        exact ⟨ts, grown, fun _ => .inl (phrase holds)⟩
      next failed =>
        split at matched
        · cases matched
        next extended later tried =>
          obtain ⟨us, further, outcome⟩ := accepted term _ _ _ tried
          -- the alternative starts over from where the rule was entered
          have restarted := grown.rollback.trans further
          obtain ⟨vs, all, more⟩ := ih (ofTerm term) extended later
            ⟨us, restarted, fun yes => by
              simpa only [yes, if_true, Progress.contexts_rollback] using outcome⟩ matched
          exact ⟨vs, all, fun yes => .inr (more yes)⟩
    | require term =>
      unfold matchSteps at matched
      split at matched
      next failed =>
        exact ih _ false p (continued _ false p ⟨[], .refl p, by simp⟩) matched
      next holds =>
        split at matched
        · cases matched
        next extended later tried =>
          obtain ⟨us, further, outcome⟩ := accepted term _ _ _ tried
          refine ih _ extended later (continued _ extended later ⟨us, further, fun yes => ?_⟩)
            matched
          exact ⟨by simpa using holds, by simpa only [yes, if_true] using outcome⟩
    | maybe term =>
      unfold matchSteps at matched
      split at matched
      next failed =>
        exact ih _ false p (continued _ false p ⟨[], .refl p, by simp⟩) matched
      next holds =>
        split at matched
        · cases matched
        next extended later tried =>
          obtain ⟨us, further, outcome⟩ := accepted term _ _ _ tried
          refine ih _ true later (continued _ true later ⟨us, further, fun _ => ?_⟩) matched
          refine ⟨by simpa using holds, ?_⟩
          -- the walk goes on whether the term was there or not
          cases extended with
          | false => exact .inr outcome
          | true => exact .inl outcome
    | many term =>
      unfold matchSteps at matched
      split at matched
      next failed =>
        exact ih _ false p (continued _ false p ⟨[], .refl p, by simp⟩) matched
      next holds =>
        split at matched
        · cases matched
        next extended later tried =>
          obtain ⟨us, further, outcome⟩ :=
            g.matchMany_accepts (attempt term) (ofTerm term) (accepted term) _ _ _ _ tried
          refine ih _ extended later (continued _ extended later ⟨us, further, fun yes => ?_⟩)
            matched
          exact ⟨by simpa using holds, by simpa only [yes, if_true] using outcome⟩

/-- A rule accepts only its phrases, however the source looks. -/
theorem matchRule_accepts (g : Grammar) (depth index : Nat) :
    g.Accepts (g.matchRule depth index) (g.rulePhrases depth index) := by
  induction depth generalizing index with
  | zero => intro p verdict next matched; cases matched
  | succ depth ih =>
    intro p verdict next matched
    unfold matchRule at matched
    unfold rulePhrases
    split at matched
    next symbol body opens =>
      simp only [opens]
      have walked (verdict : Bool) (last : Progress) :=
        g.matchSteps_accepts _ _ (g.matchTerm_accepts _ _ ih symbol) p body .nothing true p
          ⟨[], .refl p, fun _ => ⟨rfl, rfl⟩⟩ verdict last
      split at matched
      · cases matched
      next last found =>
        cases matched
        obtain ⟨ts, grown, phrase⟩ := walked true next found
        exact ⟨ts, grown, phrase rfl⟩
      next last found =>
        cases matched
        -- a failed walk is rolled back as a whole
        obtain ⟨ts, grown, -⟩ := walked false last found
        exact ⟨[], grown.rollback, rfl, rfl⟩
    · cases matched
      exact ⟨[], .refl p, rfl, rfl⟩

/-- Steps behind the end of a rule do not matter. -/
theorem stepsPhrases_upToDone {ofTerm : Term → Phrases} {steps : List Step} {soFar : Phrases}
    {before after : UInt32} {ts : List Token}
    (phrase : stepsPhrases ofTerm steps soFar before ts after) :
    stepsPhrases ofTerm (steps.takeWhile (!·.isDone) ++ [.done]) soFar before ts after := by
  induction steps generalizing soFar with
  | nil => exact phrase.elim
  | cons step rest ih =>
    cases step with
    | rule symbol => exact phrase.elim
    | done => exact phrase
    | orElse term =>
      rcases phrase with here | later
      · exact .inl here
      · exact .inr (ih later)
    | require term | maybe term | many term => exact ih phrase

end Grammar
end PixelAsm
