import PixelAsm.Proofs.Acceptance
import PixelAsm.Proofs.Evaluation
import PixelAsm.Proofs.Numerals

/-!
# Which terminal is taken

A role tries its spellings in a fixed order, and spellings are not separated from what follows
them. A spelling is taken for another one only if the other is a prefix of the text: it is a
prefix of the spelling itself, or it extends the spelling and the text goes on with the rest
of it. We compute both for the roles of the shader grammar. Few spellings are extended by
another one, and then what follows in a program is never the rest of the longer one.
-/
namespace PixelAsm

open Syntax Grammar

/-! ### Where reading stands -/

namespace Progress

/-- The contexts, and the text that is left behind the trivia in front of the reader. -/
structure At (p : Progress) (contexts : UInt32) (text : List UInt8) : Prop where
  contexts : p.contexts = contexts
  skips : Skips p.reader.rest text
  settled : Settled text

/-- What has been accepted between two states. -/
structure Gains (p q : Progress) (leaves : List Leaf) (values : List Binary32) : Prop where
  tokens : q.tokens.toList.map Token.key = p.tokens.toList.map Token.key ++ leaves.map Leaf.key
  constants : q.constants.toList = p.constants.toList ++ values

theorem Gains.refl (p : Progress) : p.Gains p [] [] := ⟨by simp, by simp⟩

theorem Gains.trans {p q r : Progress} {ls ks : List Leaf} {us ws : List Binary32}
    (first : p.Gains q ls us) (second : q.Gains r ks ws) : p.Gains r (ls ++ ks) (us ++ ws) :=
  ⟨by simp [second.tokens, first.tokens], by simp [second.constants, first.constants]⟩

/-- The reader goes to the text that is left. -/
theorem At.skipTrivia {p : Progress} {contexts : UInt32} {text : List UInt8}
    (here : p.At contexts text) :
    p.reader.skipTrivia.2.rest = text ∧ (p.reader.skipTrivia.1 = true ↔ text ≠ []) := by
  obtain ⟨skips, settled, found⟩ := p.reader.skipTrivia_skips
  have same := skips.unique here.skips settled here.settled
  exact ⟨same, by rw [found, same]⟩

/-- The state behind a terminal with the given role and text. -/
def taking (p : Progress) (s rule : Symbol) (text : String) : Progress :=
  Progress.accept { p with reader := p.reader.skipTrivia.2 } s.definition s.id rule.id
    text.utf8ByteSize

theorem At.taking {p : Progress} {contexts : UInt32} {text : String} {more after : List UInt8}
    (here : p.At contexts (utf8 text ++ more)) (skips : Skips more after)
    (settled : Settled after) (s rule : Symbol) :
    (p.taking s rule text).At (s.definition.contextsAfter contexts) after ∧
      p.Gains (p.taking s rule text) [⟨s, rule⟩] [] := by
  obtain ⟨position, -⟩ := here.skipTrivia
  have length : (utf8 text).length = text.utf8ByteSize := by simp [utf8]
  refine ⟨⟨?_, ?_, settled⟩, ?_⟩
  · show p.contexts &&& _ ||| _ = _
    rw [here.contexts]
    rfl
  · show Skips (p.reader.skipTrivia.2.rest.drop _) after
    rw [position, ← length, List.drop_left]
    exact skips
  · constructor
    · simp [Progress.taking, Progress.accept, Token.key, Leaf.key]
    · simp [Progress.taking, Progress.accept]

end Progress

namespace Dialect

/-! ### Terminals -/

/-- The terminal that a term names and the text that it matches. -/
def resolve? (term : Term) : Option (Symbol × String) := do
  let s ← Symbol.ofId? term.symbol
  let text ← term.text?.or (linked.defaultText? term.symbol)
  return (s, text)

/-- A terminal with a text that is compared with the source. -/
def IsLiteral (c : Symbol × String) : Prop :=
  hasRule c.1 = false ∧ c.1 ≠ .value ∧ c.2.isEmpty = false

instance (c : Symbol × String) : Decidable (IsLiteral c) := inferInstanceAs (Decidable (_ ∧ _))

theorem utf8_ne_nil {text : String} (notEmpty : text.isEmpty = false) : utf8 text ≠ [] := by
  intro none
  have zero : text.utf8ByteSize = 0 := by
    have length : (utf8 text).length = text.utf8ByteSize := by simp [utf8]
    rw [← length, none, List.length_nil]
  simp [String.isEmpty, zero] at notEmpty

theorem resolve?_eq_some {term : Term} {s : Symbol} {text : String}
    (resolved : resolve? term = some (s, text)) :
    term.symbol = s.id ∧ term.text?.or (linked.defaultText? term.symbol) = some text := by
  simp only [resolve?, Option.bind_eq_bind, Option.bind_eq_some_iff] at resolved
  obtain ⟨found, known, spelling, given, same⟩ := resolved
  cases same
  exact ⟨(eq_id_of_getElem?_all known).symm, given⟩

theorem evaluates_terminal {s : Symbol} {owner : SymbolId} {term : Term} {p q : Progress}
    {verdict : Bool} (names : term.symbol = s.id) (terminal : hasRule s = false)
    (active : s.contextKey &&& p.contexts ≠ 0)
    (read : linked.matchTerminal term s.definition owner p = (verdict, q)) :
    Evaluates linked (.term owner term) p verdict q := by
  have noRule : (entry s).ruleIndex? = none := by
    rw [← Option.not_isSome_iff_eq_none, ruleIndex?_isSome, terminal]
    exact Bool.false_ne_true
  exact .terminal (by rw [names, symbol?_id]) active noRule read

/-- A terminal is accepted where its text stands. -/
theorem evaluates_taking (rule : Symbol) {s : Symbol} {term : Term} {text : String}
    (resolved : resolve? term = some (s, text)) (literal : IsLiteral (s, text)) {p : Progress}
    {contexts : UInt32} {left : List UInt8} (here : p.At contexts left)
    (active : s.contextKey &&& contexts ≠ 0) (stands : utf8 text <+: left) :
    Evaluates linked (.term rule.id term) p true (p.taking s rule text) := by
  obtain ⟨names, given⟩ := resolve?_eq_some resolved
  obtain ⟨terminal, notValue, notEmpty⟩ := literal
  obtain ⟨position, found⟩ := here.skipTrivia
  have some : left ≠ [] := by
    rintro rfl
    exact utf8_ne_nil notEmpty (List.prefix_nil.mp stands)
  have literal : p.reader.skipTrivia.2.isAtLiteral text = true := by
    simp [Reader.isAtLiteral, position, notEmpty, stands]
  have isNot : ¬ term.symbol = linked.valueSymbol := by
    rw [names]
    exact fun same => notValue (Symbol.id_inj same)
  have read : linked.matchTerminal term s.definition rule.id p =
      (true, p.taking s rule text) := by
    rw [Progress.taking, ← names]
    unfold matchTerminal
    simp [found.mpr some, isNot, given, literal]
  exact evaluates_terminal names terminal (by rw [here.contexts]; exact active) read

/-- A terminal is refused where its text does not stand. -/
theorem evaluates_refused (rule : Symbol) {s : Symbol} {term : Term} {text : String}
    (resolved : resolve? term = some (s, text)) (literal : IsLiteral (s, text)) {p : Progress}
    {contexts : UInt32} {left : List UInt8} (here : p.At contexts left)
    (other : s.contextKey &&& contexts = 0 ∨ ¬ utf8 text <+: left) :
    ∃ q, Evaluates linked (.term rule.id term) p false q := by
  obtain ⟨names, given⟩ := resolve?_eq_some resolved
  obtain ⟨terminal, notValue, -⟩ := literal
  by_cases active : s.contextKey &&& contexts = 0
  · have known : linked.symbol? term.symbol = some (entry s) := by rw [names, symbol?_id]
    exact ⟨p, .inactive known (by rw [here.contexts]; exact active)⟩
  · obtain ⟨position, -⟩ := here.skipTrivia
    have isNot : ¬ term.symbol = linked.valueSymbol := by
      rw [names]
      exact fun same => notValue (Symbol.id_inj same)
    have refused : p.reader.skipTrivia.2.isAtLiteral text = false := by
      have absent := other.resolve_left active
      rw [← List.isPrefixOf_iff_prefix] at absent
      simp [Reader.isAtLiteral, position, absent]
    have read : linked.matchTerminal term s.definition rule.id p =
        (false, { p with reader := p.reader.skipTrivia.2 }) := by
      unfold matchTerminal
      simp [isNot, given, refused]
    exact ⟨_, evaluates_terminal names terminal (by rw [here.contexts]; exact active) read⟩

/-! ### Choices between spellings -/

/-- The first spelling that may stand here and does. -/
def firstMatch (cs : List (Symbol × String)) (contexts : UInt32) (text : List UInt8) :
    Option (Symbol × String) :=
  cs.find? fun c => c.1.contextKey &&& contexts != 0 && (utf8 c.2).isPrefixOf text

/-- How the spellings that may stand here go on behind a text with which they start. -/
def extensions (cs : List (Symbol × String)) (contexts : UInt32) (text : List UInt8) :
    List (List UInt8) :=
  (cs.filter fun c => c.1.contextKey &&& contexts != 0 && text.isPrefixOf (utf8 c.2) &&
    text != utf8 c.2).map fun c => (utf8 c.2).drop text.length

theorem evaluates_first (rule : Symbol) {terms : List Term} {cs : List (Symbol × String)}
    (resolved : terms.map resolve? = cs.map some) (literal : ∀ c ∈ cs, IsLiteral c)
    {p : Progress} {contexts : UInt32} {text : List UInt8} (here : p.At contexts text) :
    (firstMatch cs contexts text = none →
      Evaluates linked (.first rule.id (terms.map fun term => [.one term])) p false p) ∧
    ∀ s spelling, firstMatch cs contexts text = some (s, spelling) →
      Evaluates linked (.first rule.id (terms.map fun term => [.one term])) p true
        (p.taking s rule spelling) := by
  induction terms generalizing cs with
  | nil =>
    cases cs with
    | nil => exact ⟨fun _ => .exhausted, fun _ _ found => by cases found⟩
    | cons c cs => cases resolved
  | cons term terms ih =>
    cases cs with
    | nil => cases resolved
    | cons c cs =>
      obtain ⟨own, others⟩ := List.cons.inj resolved
      obtain ⟨missed, matched⟩ := ih others fun c member =>
        literal c (List.mem_cons_of_mem _ member)
      have isLiteral := literal c (List.mem_cons_self ..)
      by_cases taken : (c.1.contextKey &&& contexts != 0 && (utf8 c.2).isPrefixOf text) = true
      · -- the first alternative is taken
        have found : firstMatch (c :: cs) contexts text = some c := by
          rw [firstMatch, List.find?_cons, taken]
        refine ⟨fun none => absurd (found.symm.trans none) nofun, ?_⟩
        intro s spelling same
        rw [found] at same
        cases same
        simp only [Bool.and_eq_true, bne_iff_ne, List.isPrefixOf_iff_prefix] at taken
        have evaluates := evaluates_taking rule own isLiteral here taken.1 taken.2
        exact .chosen (.andThen (.one evaluates) .finished)
      · have other : firstMatch (c :: cs) contexts text = firstMatch cs contexts text := by
          rw [firstMatch, List.find?_cons, Bool.eq_false_iff.mpr taken]
          rfl
        have refused : c.1.contextKey &&& contexts = 0 ∨ ¬ utf8 c.2 <+: text := by
          rw [← List.isPrefixOf_iff_prefix]
          simpa [Classical.or_iff_not_imp_left] using taken
        obtain ⟨q, refused⟩ := evaluates_refused rule own isLiteral here refused
        rw [other]
        refine ⟨fun none => .passedOver (.stopped (.one refused)) (missed none), ?_⟩
        intro s spelling found
        exact .passedOver (.stopped (.one refused)) (matched s spelling found)

/-- A text that starts a longer one starts its first part, or is that part with a beginning of
the second. -/
theorem prefix_append_iff {bytes text more : List UInt8} : bytes <+: text ++ more ↔
    bytes <+: text ∨ text <+: bytes ∧ text ≠ bytes ∧ bytes.drop text.length <+: more := by
  constructor
  · intro starts
    rcases List.prefix_or_prefix_of_prefix starts (List.prefix_append text more) with
      short | ⟨tail, rfl⟩
    · exact .inl short
    · rw [List.prefix_append_right_inj] at starts
      by_cases empty : tail = []
      · exact .inl (by simp [empty])
      · exact .inr ⟨List.prefix_append _ _, by simpa using empty, by simpa using starts⟩
  · rintro (short | ⟨⟨tail, rfl⟩, -, rest⟩)
    · exact short.trans (List.prefix_append _ _)
    · rw [List.prefix_append_right_inj]
      simpa using rest

/-- What follows a text does not matter to a choice unless it extends a spelling. -/
theorem firstMatch_append {cs : List (Symbol × String)} {contexts : UInt32}
    {text more : List UInt8} (free : ∀ c ∈ extensions cs contexts text, ¬ c <+: more) :
    firstMatch cs contexts (text ++ more) = firstMatch cs contexts text := by
  induction cs with
  | nil => rfl
  | cons c cs ih =>
    have rest : ∀ c ∈ extensions cs contexts text, ¬ c <+: more := by
      intro d member
      refine free d ?_
      simp only [extensions, List.filter_cons]
      split
      · exact List.mem_cons_of_mem _ member
      · exact member
    have same : (c.1.contextKey &&& contexts != 0 && (utf8 c.2).isPrefixOf (text ++ more)) =
        (c.1.contextKey &&& contexts != 0 && (utf8 c.2).isPrefixOf text) := by
      by_cases active : (c.1.contextKey &&& contexts != 0) = true
      · rw [active, Bool.true_and, Bool.true_and, Bool.eq_iff_iff, List.isPrefixOf_iff_prefix,
          List.isPrefixOf_iff_prefix, prefix_append_iff]
        refine ⟨fun starts => ?_, .inl⟩
        rcases starts with short | ⟨begins, longer, goesOn⟩
        · exact short
        · refine absurd goesOn (free _ ?_)
          simp only [extensions, List.filter_cons, active, Bool.true_and]
          rw [if_pos (by simpa using ⟨begins, longer⟩)]
          exact List.mem_cons_self ..
      · rw [Bool.eq_false_iff.mpr active, Bool.false_and, Bool.false_and]
    rw [firstMatch, firstMatch, List.find?_cons, List.find?_cons, same]
    split
    · rfl
    · exact ih rest

/-! ### Rules of the shader grammar -/

/-- The alternatives of a symbol's rule. -/
def alternativesOf (s : Symbol) : List (List Piece) :=
  (Alternatives.ofSteps (body s ++ [.done])).all

theorem ofSteps_upToDone (steps more : List Step) :
    Alternatives.ofSteps (steps ++ .done :: more) = Alternatives.ofSteps (steps ++ [.done]) := by
  induction steps with
  | nil => rfl
  | cons step rest ih => cases step <;> simp [Alternatives.ofSteps, ih]

/-- A symbol with a rule is evaluated by its alternatives. -/
theorem evaluates_bare {s : Symbol} (has : hasRule s = true) {owner : SymbolId}
    {p q : Progress} {verdict : Bool} (active : s.contextKey &&& p.contexts ≠ 0)
    (chosen : Evaluates linked (.first s.id (alternativesOf s)) p verdict q) :
    Evaluates linked (.term owner (bare s)) p verdict q := by
  obtain ⟨index, starts⟩ : ∃ index, (entry s).ruleIndex? = some index :=
    Option.isSome_iff_exists.mp (by rw [ruleIndex?_isSome, has])
  obtain ⟨more, opens⟩ := drop_body starts
  rw [alternativesOf, ← ofSteps_upToDone _ more] at chosen
  exact .nested (symbol?_id s) active starts (.rule opens chosen)

/-- Wherever the text is left, evaluation takes the leaves from its beginning. -/
def Accepts (goal : Goal) (before : UInt32) (text : List UInt8) (leaves : List Leaf)
    (values : List Binary32) (after : UInt32) (rest : List UInt8) : Prop :=
  ∀ p, p.At before text →
    ∃ q, Evaluates linked goal p true q ∧ q.At after rest ∧ p.Gains q leaves values

/-- Wherever the text is left, evaluation fails and stays there. -/
def Refuses (goal : Goal) (contexts : UInt32) (text : List UInt8) : Prop :=
  ∀ p, p.At contexts text → Evaluates linked goal p false p

section

variable {owner : SymbolId} {s : Symbol} {contexts : UInt32} {text : List UInt8}

theorem Accepts.rule (has : hasRule s = true) (active : s.contextKey &&& contexts ≠ 0)
    {leaves : List Leaf} {values : List Binary32} {after : UInt32} {rest : List UInt8}
    (chosen : Accepts (.first s.id (alternativesOf s)) contexts text leaves values after rest) :
    Accepts (.term owner (bare s)) contexts text leaves values after rest := by
  intro p here
  obtain ⟨q, evaluates, arrived⟩ := chosen p here
  exact ⟨q, evaluates_bare has (by rw [here.contexts]; exact active) evaluates, arrived⟩

theorem Refuses.rule (has : hasRule s = true) (active : s.contextKey &&& contexts ≠ 0)
    (failed : Refuses (.first s.id (alternativesOf s)) contexts text) :
    Refuses (.term owner (bare s)) contexts text := by
  intro p here
  exact evaluates_bare has (by rw [here.contexts]; exact active) (failed p here)

theorem Refuses.inactive (off : s.contextKey &&& contexts = 0) :
    Refuses (.term owner (bare s)) contexts text := by
  intro p here
  exact .inactive (symbol?_id s) (by rw [here.contexts]; exact off)

end

/-! ### Roles -/

/-- The roles whose terminals are compared with the source. -/
def literalRoles : List Symbol := roles.filter (· != .numVal)

/-- The roles among them that leave the contexts as they are. -/
def plainRoles : List Symbol := neutralRoles.filter (· != .numVal)

theorem plainRoles_subset : ∀ s ∈ plainRoles, s ∈ literalRoles ∧ s ∈ neutralRoles := by
  decide

/-- The spellings that a role tries, in their order. -/
def candidates (s : Symbol) : List (Symbol × String) :=
  ((body s).filterMap Step.term?).filterMap resolve?

/-- The contexts that can be active behind the version: those of ps.1.4 with and without its
first phase, and those of the dialects before. -/
def dialects : List UInt32 :=
  [Context.base ||| Symbol.ps14.contextSet,
   (Context.base ||| Symbol.ps14.contextSet) &&& ~~~Context.phase1,
   Context.base ||| Symbol.ps11.contextSet, Context.base ||| Symbol.ps12.contextSet,
   Context.base ||| Symbol.ps13.contextSet]

/-- The roles with which a statement can start. -/
def startRoles : List Symbol :=
  [.defOp, .texOpPs14, .texOpPs11, .texCiscOp, .texSpecOp, .coIssueMark, .unaryOp, .binaryOp,
   .ternaryOp, .phaseMarker]

/-- The roles that can stand where a role is tried in vain. -/
def passedOver : Symbol → List Symbol
  | .dstMod => [.dstSat, .tempReg]
  | .dstSat => [.tempReg]
  | .dstMask => [.separator]
  | .preSrcMod => [.tempReg, .constReg, .colorReg]
  | .tempReg => [.constReg, .colorReg]
  | .constReg => [.colorReg]
  | .postSrcMod => .srcRep :: .separator :: startRoles
  | .srcRep => .separator :: startRoles
  | .texCoordReg => [.tempReg]
  | .texSwizzle => startRoles
  | .coIssueMark => [.unaryOp, .binaryOp, .ternaryOp, .phaseMarker]
  | .unaryOp => [.binaryOp, .ternaryOp, .phaseMarker]
  | .binaryOp => [.ternaryOp, .phaseMarker]
  | .ternaryOp => [.phaseMarker]
  | .texCiscOp => [.texSpecOp, .coIssueMark, .unaryOp, .binaryOp, .ternaryOp, .phaseMarker]
  | .texOpPs14 | .texSpecOp | .texOpPs11 =>
    [.coIssueMark, .unaryOp, .binaryOp, .ternaryOp, .phaseMarker]
  | .defOp => startRoles.filter (· != .defOp)
  | _ => []

/-- The roles with a spelling that another one extends. -/
def extendable : List Symbol := [.dstMask, .texSwizzle, .texOpPs11, .texCiscOp]

/-- The plain roles that are none of these. -/
def fixedRoles : List Symbol := plainRoles.filter (· ∉ extendable)

theorem fixedRoles_subset : ∀ s ∈ fixedRoles, s ∈ plainRoles ∧ s ∉ extendable := by
  decide

/-- What stands behind a role with spellings of different length, if the statement goes on. -/
def followers : Symbol → List Symbol
  | .dstMask => [.separator]
  | .texOpPs11 | .texCiscOp => [.texRegPs11]
  | _ => []

/-- A continuation of a spelling that a terminal of these roles cannot be taken for. -/
def isApartFrom (roles : List Symbol) (more : List UInt8) : Bool :=
  more.head?.any startsSymbol && roles.all fun s => s.terminals.all fun t =>
    t.spellings.all fun text => !more.isPrefixOf (utf8 text) && !(utf8 text).isPrefixOf more

/-- A role is a choice between terms that match single terminals. -/
theorem roles_shape :
    (∀ s ∈ roles, hasRule s = true ∧ s.contextKey = Context.base ∧
      alternativesOf s = ((body s).filterMap Step.term?).map fun term => [.one term]) ∧
    (∀ s ∈ literalRoles,
      ((body s).filterMap Step.term?).map resolve? = (candidates s).map some ∧
        ∀ c ∈ candidates s, IsLiteral c) ∧
    (body .numVal).filterMap Step.term? = [bare .value] := by
  decide +kernel

/-- A property of the members of a list that is decided for one after the other. -/
theorem forall_mem_of_all {α : Type} {p : α → Prop} [DecidablePred p] {xs : List α}
    (all : xs.all (fun x => decide (p x)) = true) : ∀ x ∈ xs, p x := by
  simpa using all

theorem base_active : ∀ contexts ∈ Context.base :: dialects, Context.base &&& contexts ≠ 0 :=
  forall_mem_of_all (by decide)

/-- A spelling is found by its own role, whatever can stand behind it, and not by a role that
is tried in its place. The opcodes of composite statements extend the others, but not with a
register. -/
private theorem candidates_found : ∀ contexts ∈ Context.base :: dialects,
    (∀ s ∈ literalRoles, ∀ t ∈ s.terminals, t.contextKey &&& contexts ≠ 0 →
      ∀ text ∈ t.spellings,
        firstMatch (candidates s) contexts (utf8 text) = some (t, text) ∧
        (s ∈ extendable ∨ extensions (candidates s) contexts (utf8 text) = []) ∧
        ∀ more ∈ extensions (candidates s) contexts (utf8 text),
          isApartFrom (followers s) more = true) ∧
    (∀ s ∈ literalRoles, ∀ r ∈ passedOver s, ∀ t ∈ r.terminals,
      t.contextKey &&& contexts ≠ 0 → ∀ text ∈ t.spellings,
        firstMatch (candidates s) contexts (utf8 text) = none ∧
          extensions (candidates s) contexts (utf8 text) = []) ∧
    ∀ s ∈ [Symbol.texCiscOp, .texSpecOp], ∀ t ∈ Symbol.terminals .texOpPs11,
      t.contextKey &&& contexts ≠ 0 → ∀ text ∈ t.spellings,
        firstMatch (candidates s) contexts (utf8 text) = none ∧
          ∀ more ∈ extensions (candidates s) contexts (utf8 text),
            isApartFrom (followers .texOpPs11) more = true :=
  forall_mem_of_all (by decide +kernel)

/-! ### Leaves at the beginning of a text -/

/-- The leaves come first in a text and may stand there. -/
structure Stands (contexts : UInt32) (closing : List UInt8 → Prop) (leaves : List Leaf)
    (text rest : List UInt8) (values : List Binary32) : Prop where
  reads : Reads closing leaves text rest values
  active : Active contexts leaves

/-- The text is at its end, or a terminal with one of the roles comes first. -/
def StartsWith (rules : List Symbol) (contexts : UInt32) (text : List UInt8) : Prop :=
  text = [] ∨ ∃ s ∈ rules, ∃ t ∈ s.terminals, t.contextKey &&& contexts ≠ 0 ∧
    ∃ spelling ∈ t.spellings, utf8 spelling <+: text

theorem StartsWith.mono {rules others : List Symbol} {contexts : UInt32} {text : List UInt8}
    (starts : StartsWith rules contexts text) (all : rules ⊆ others) :
    StartsWith others contexts text := by
  rcases starts with empty | ⟨s, member, found⟩
  · exact .inl empty
  · exact .inr ⟨s, all member, found⟩

section

variable {contexts : UInt32} {closing : List UInt8 → Prop} {text rest : List UInt8}
  {values : List Binary32}

theorem Stands.split {ls ks : List Leaf}
    (stands : Stands contexts closing (ls ++ ks) text rest values) :
    ∃ middle us ws, Stands contexts (fun more => ks = [] → closing more) ls text middle us ∧
      Stands contexts closing ks middle rest ws ∧ values = us ++ ws := by
  obtain ⟨middle, us, ws, first, second, same⟩ := stands.reads.split
  exact ⟨middle, us, ws,
    ⟨first, fun l member => stands.active l (List.mem_append_left _ member)⟩,
    ⟨second, fun l member => stands.active l (List.mem_append_right _ member)⟩, same⟩

theorem Stands.nothing (stands : Stands contexts closing [] text rest values) :
    rest = text ∧ values = [] := by
  cases stands.reads
  exact ⟨rfl, rfl⟩

/-- The numeral is the only terminal without a spelling. -/
private theorem value_of_literalRoles : ∀ s ∈ literalRoles, Symbol.value ∉ s.terminals := by
  decide

variable {s : Symbol}

/-- A single terminal is spelled in one of its ways. -/
theorem Stands.spelled (role : s ∈ literalRoles) {t : Terminal s} {ls : List Leaf}
    (stands : Stands contexts closing (t.leaf :: ls) text rest values) :
    ∃ spelling ∈ t.symbol.spellings, ∃ more after, text = utf8 spelling ++ more ∧
      Skips more after ∧ Settled after ∧ (ls = [] → closing more) ∧
      Reads closing ls after rest values := by
  cases stands.reads with
  | next spelled skips settled closes behind =>
    cases spelled with
    | text member => exact ⟨_, member, _, _, rfl, skips, settled, closes, behind⟩
    | numeral isValue n =>
      have member := t.member
      rw [show t.symbol = .value from isValue] at member
      exact absurd member (value_of_literalRoles s role)

theorem Stands.startsWith (role : s ∈ literalRoles) {t : Terminal s} {ls : List Leaf}
    (stands : Stands contexts closing (t.leaf :: ls) text rest values) :
    StartsWith [s] contexts text := by
  obtain ⟨spelling, member, more, -, rfl, -⟩ := stands.spelled role
  exact .inr ⟨s, List.mem_singleton_self s, t.symbol, t.member,
    stands.active t.leaf (List.mem_cons_self ..), spelling, member, List.prefix_append _ _⟩

/-- With a terminal that may be left out, the text starts like it or like the rest. -/
theorem Stands.startsWith_option (role : s ∈ literalRoles) {t? : Option (Terminal s)}
    (stands : Stands contexts closing (Terminal.leaves t?) text rest values)
    {rules : List Symbol} (next : StartsWith rules contexts rest) :
    StartsWith (s :: rules) contexts text := by
  cases t? with
  | none =>
    obtain ⟨rfl, -⟩ := Stands.nothing stands
    exact next.mono (List.subset_cons_self s rules)
  | some t => exact (Stands.startsWith role stands).mono (List.cons_subset_cons s rules.nil_subset)

end

/-! ### What roles accept -/

/-- A symbol that starts here does not start in front of trivia. -/
private theorem not_prefix_of_not_settled {bytes more : List UInt8}
    (starts : bytes.head?.any startsSymbol = true) (trivia : ¬ Settled more) :
    ¬ bytes <+: more := by
  rintro ⟨tail, rfl⟩
  exact trivia (settled_of_head? starts tail)

private theorem not_prefix_nil {bytes : List UInt8}
    (starts : bytes.head?.any startsSymbol = true) : ¬ bytes <+: [] := by
  intro begins
  rw [List.prefix_nil.mp begins] at starts
  cases starts

private theorem not_prefix_of_startsWith {rules : List Symbol} {contexts : UInt32}
    {bytes more after : List UInt8} (apart : isApartFrom rules bytes = true)
    (skips : Skips more after) (next : StartsWith rules contexts after) : ¬ bytes <+: more := by
  obtain ⟨starts, others⟩ := (Bool.and_eq_true _ _).mp apart
  by_cases settled : Settled more
  · obtain rfl := skips.eq_of_settled settled
    rcases next with rfl | ⟨s, member, t, terminal, -, spelling, spelled, begins⟩
    · exact not_prefix_nil starts
    · intro other
      have different := List.all_eq_true.mp (List.all_eq_true.mp
        (List.all_eq_true.mp others s member) t terminal) spelling spelled
      simp only [Bool.and_eq_true, Bool.not_eq_true', ← Bool.not_eq_true,
        List.isPrefixOf_iff_prefix] at different
      rcases List.prefix_or_prefix_of_prefix other begins with short | long
      · exact different.1 short
      · exact different.2 long
  · exact not_prefix_of_not_settled starts settled

private theorem not_prefix_of_apart {bytes more : List UInt8}
    (starts : bytes.head?.any startsSymbol = true) (apart : Apart more) : ¬ bytes <+: more := by
  rcases apart with rfl | trivia
  · exact not_prefix_nil starts
  · exact not_prefix_of_not_settled starts trivia

/-- Nothing behind a terminal of the role can be taken for a part of it. -/
def Ends (s : Symbol) (contexts : UInt32) (closing : List UInt8 → Prop) (rest : List UInt8) :
    Prop :=
  s ∉ extendable ∨ (∀ more, closing more → Apart more) ∨ StartsWith (followers s) contexts rest

section

variable {owner : SymbolId} {s : Symbol} {contexts : UInt32} {closing : List UInt8 → Prop}
  {text rest : List UInt8} {values : List Binary32}

/-- A role takes the first of its spellings that stands there. -/
theorem evaluates_role (role : s ∈ literalRoles) (known : contexts ∈ Context.base :: dialects)
    {p : Progress} (here : p.At contexts text) {t : Symbol} {spelling : String}
    (found : firstMatch (candidates s) contexts text = some (t, spelling)) :
    Evaluates linked (.term owner (bare s)) p true (p.taking t s spelling) := by
  obtain ⟨has, on, shape⟩ := roles_shape.1 s (List.mem_filter.mp role).1
  obtain ⟨resolved, literal⟩ := roles_shape.2.1 s role
  apply evaluates_bare has
  · rw [on, here.contexts]
    exact base_active contexts known
  · rw [shape]
    exact (evaluates_first s resolved literal here).2 t spelling found

/-- A role takes the terminal that stands there. -/
theorem accepts_terminal (role : s ∈ literalRoles) (known : contexts ∈ Context.base :: dialects)
    {t : Terminal s} (stands : Stands contexts closing [t.leaf] text rest values) {after : UInt32}
    (changes : t.symbol.definition.contextsAfter contexts = after)
    (ends : Ends s contexts closing rest) :
    Accepts (.term owner (bare s)) contexts text [t.leaf] values after rest := by
  subst changes
  obtain ⟨spelling, member, more, after, rfl, skips, settled, closes, behind⟩ :=
    stands.spelled role
  cases behind
  have active := stands.active t.leaf (List.mem_cons_self ..)
  obtain ⟨found, single, apart⟩ :=
    (candidates_found contexts known).1 s role t.symbol t.member active spelling member
  have free : ∀ c ∈ extensions (candidates s) contexts (utf8 spelling), ¬ c <+: more := by
    intro c longer
    have starts := ((Bool.and_eq_true _ _).mp (apart c longer)).1
    rcases ends with notExtendable | closed | next
    · rw [single.resolve_left notExtendable] at longer
      cases longer
    · exact not_prefix_of_apart starts (closed more (closes rfl))
    · exact not_prefix_of_startsWith (apart c longer) skips next
  rw [← firstMatch_append free] at found
  intro p here
  exact ⟨_, evaluates_role role known here found, here.taking skips settled t.symbol s⟩

/-- Most roles do not change the contexts. -/
theorem accepts_role (role : s ∈ plainRoles) (known : contexts ∈ dialects) {t : Terminal s}
    (stands : Stands contexts closing [t.leaf] text rest values)
    (ends : Ends s contexts closing rest) :
    Accepts (.term owner (bare s)) contexts text [t.leaf] values contexts rest := by
  obtain ⟨literal, neutral⟩ := plainRoles_subset s role
  obtain ⟨noSet, noClear⟩ := neutralRoles_neutral s neutral t.symbol t.member
  have same : t.symbol.definition.contextsAfter contexts = contexts := by
    simp [SymbolDef.contextsAfter, Symbol.definition, noSet, noClear]
  exact accepts_terminal literal (List.mem_cons_of_mem _ known) stands same ends

/-- Nothing has to be known of what follows a role with spellings that do not extend others. -/
theorem accepts_fixed (role : s ∈ fixedRoles) (known : contexts ∈ dialects) {t : Terminal s}
    (stands : Stands contexts closing [t.leaf] text rest values) :
    Accepts (.term owner (bare s)) contexts text [t.leaf] values contexts rest := by
  obtain ⟨plain, single⟩ := fixedRoles_subset s role
  exact accepts_role plain known stands (.inl single)

theorem refuses_of_firstMatch (role : s ∈ literalRoles) (known : contexts ∈ dialects)
    (none : firstMatch (candidates s) contexts text = none) :
    Refuses (.term owner (bare s)) contexts text := by
  obtain ⟨has, on, shape⟩ := roles_shape.1 s (List.mem_filter.mp role).1
  obtain ⟨resolved, literal⟩ := roles_shape.2.1 s role
  have active := base_active contexts (List.mem_cons_of_mem _ known)
  refine Refuses.rule has (by rw [on]; exact active) fun p here => ?_
  rw [shape]
  exact (evaluates_first s resolved literal here).1 none

/-- A role is passed over where one of the others stands that it has to be told from. -/
theorem refuses_role {rules : List Symbol} (role : s ∈ literalRoles ∧ rules ⊆ passedOver s)
    (known : contexts ∈ dialects) (starts : StartsWith rules contexts text) :
    Refuses (.term owner (bare s)) contexts text := by
  obtain ⟨role, others⟩ := role
  refine refuses_of_firstMatch role known ?_
  rcases starts with rfl | ⟨r, among, t, member, active, spelling, spelled, more, rfl⟩
  · rw [firstMatch, List.find?_eq_none]
    intro c candidate
    obtain ⟨-, -, notEmpty⟩ := (roles_shape.2.1 s role).2 c candidate
    simp [utf8_ne_nil notEmpty]
  · obtain ⟨none, single⟩ := (candidates_found contexts (List.mem_cons_of_mem _ known)).2.1 s role r
      (others among) t member active spelling spelled
    rw [firstMatch_append (by simp [single]), none]

/-- The opcode of a composite statement is not found at another one. -/
theorem refuses_compositeOpcode (composite : s ∈ [Symbol.texCiscOp, .texSpecOp])
    (known : contexts ∈ dialects) {t : Terminal .texOpPs11}
    (stands : Stands contexts closing [t.leaf] text rest values)
    (next : StartsWith [.texRegPs11] contexts rest) :
    Refuses (.term owner (bare s)) contexts text := by
  have role : s ∈ literalRoles := by
    have all : ∀ s ∈ [Symbol.texCiscOp, .texSpecOp], s ∈ literalRoles := by decide
    exact all s composite
  obtain ⟨spelling, member, more, after, rfl, skips, settled, closes, behind⟩ :=
    stands.spelled (by decide)
  cases behind
  obtain ⟨none, apart⟩ := (candidates_found contexts (List.mem_cons_of_mem _ known)).2.2 s composite
    t.symbol t.member
    (stands.active t.leaf (List.mem_cons_self ..)) spelling member
  refine refuses_of_firstMatch role known ?_
  rw [firstMatch_append, none]
  intro c longer
  exact not_prefix_of_startsWith (apart c longer) skips next

end

/-! ### Numerals -/

theorem stops_of_startsWith {contexts : UInt32} {more after : List UInt8}
    (skips : Skips more after) (next : StartsWith [.separator] contexts after) :
    Literal.Stops more := by
  by_cases settled : Settled more
  · obtain rfl := skips.eq_of_settled settled
    rcases next with rfl | ⟨s, among, t, terminal, -, spelling, spelled, rest, rfl⟩
    · nofun
    · cases List.mem_singleton.mp among
      cases List.mem_singleton.mp terminal
      cases List.mem_singleton.mp spelled
      intro b member
      cases member
      decide
  · exact Literal.stops_of_not_settled settled

/-- The numeral is accepted where a literal stands. -/
theorem evaluates_numeral (rule : Symbol) (l : Literal) {p : Progress} {contexts : UInt32}
    {more after : List UInt8} (here : p.At contexts (l.bytes ++ more))
    (active : Symbol.value.contextKey &&& contexts ≠ 0) (stops : Literal.Stops more)
    (skips : Skips more after) (settled : Settled after) :
    ∃ q, Evaluates linked (.term rule.id (bare .value)) p true q ∧ q.At contexts after ∧
      p.Gains q [⟨.value, rule⟩] [l.value] := by
  obtain ⟨position, found⟩ := here.skipTrivia
  have some : l.bytes ++ more ≠ [] := by
    intro none
    have starts := l.head?_bytes
    rw [(List.append_eq_nil_iff.mp none).1] at starts
    cases starts
  have number := l.number?_bytes position here.settled stops
  have read : linked.matchTerminal (bare .value) Symbol.value.definition rule.id p =
      (true, Progress.accept { p with
          reader := p.reader.skipTrivia.2, constants := p.constants.push l.value }
        Symbol.value.definition Symbol.value.id rule.id l.bytes.length) := by
    unfold matchTerminal
    have isValue : linked.valueSymbol = Symbol.value.id := rfl
    simp [found.mpr some, bare, isValue, number]
  refine ⟨_, evaluates_terminal rfl rfl (by rw [here.contexts]; exact active) read,
    ⟨?_, ?_, settled⟩, ?_⟩
  · show p.contexts &&& _ ||| _ = _
    rw [here.contexts]
    simp [Symbol.definition, Symbol.contextClear, Symbol.contextSet]
  · show Skips (p.reader.skipTrivia.2.rest.drop _) after
    rw [position, List.drop_left]
    exact skips
  · constructor
    · simp [Progress.accept, Token.key, Leaf.key]
    · simp [Progress.accept]

/-- The role of numerals takes a literal for its value. -/
theorem accepts_numVal {owner : SymbolId} {contexts : UInt32} {closing : List UInt8 → Prop}
    {text rest : List UInt8} {values : List Binary32} (known : contexts ∈ dialects)
    (stands : Stands contexts closing [numeral] text rest values)
    (ends : (∀ more, closing more → Apart more) ∨ StartsWith [.separator] contexts rest) :
    Accepts (.term owner (bare .numVal)) contexts text [numeral] values contexts rest := by
  cases stands.reads with
  | @next _ _ _ more _ _ _ _ spelled skips settled closes behind =>
    cases behind
    have stops : Literal.Stops more := by
      rcases ends with closed | next
      · rcases closed more (closes rfl) with rfl | trivia
        · nofun
        · exact Literal.stops_of_not_settled trivia
      · exact stops_of_startsWith skips next
    obtain ⟨has, on, shape⟩ := roles_shape.1 .numVal (by decide)
    rw [roles_shape.2.2] at shape
    have active := base_active contexts (List.mem_cons_of_mem _ known)
    refine Accepts.rule has (by rw [on]; exact active) fun p here => ?_
    cases spelled with
    | text member => cases member
    | numeral _ l =>
      obtain ⟨q, evaluates, arrived, gains⟩ :=
        evaluates_numeral .numVal l here active stops skips settled
      rw [shape]
      exact ⟨q, .chosen (.andThen (.one evaluates) .finished), arrived, gains⟩

end Dialect
end PixelAsm
