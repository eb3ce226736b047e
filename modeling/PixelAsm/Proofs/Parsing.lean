import PixelAsm.Compiler
import PixelAsm.Proofs.Linking
import PixelAsm.Proofs.Phrases
import PixelAsm.Proofs.Syntax

/-!
# Accepted sources are programs

The phrases of the shader grammar, rule by rule. A rule that changes no contexts is
read as a kind of tree: each of its phrases consists of the leaves of such a tree, and
the leaves may stand where the phrase stands. Sequences, options, choices and
repetitions of rules are read as pairs, options, the same kind of tree and lists, so
the reading of a rule follows its steps. The root rule gives a whole program.
-/
namespace PixelAsm

open Syntax

/-! ### Reading phrases as trees -/

namespace Phrases

variable {α β : Type} {l m : Phrases}

/-- Every phrase consists of the leaves of a tree, which are active where it starts, and
leaves the contexts as they are. -/
def ReadAs (l : Phrases) (leaves : α → List Leaf) : Prop :=
  ∀ before ts after, l before ts after →
    ∃ tree, ts.map Token.key = (leaves tree).map Leaf.key ∧ Active before (leaves tree) ∧
      after = before

theorem active_append {contexts : UInt32} {ls ks : List Leaf} (left : Active contexts ls)
    (right : Active contexts ks) : Active contexts (ls ++ ks) := by
  intro leaf member
  rcases List.mem_append.mp member with inLeft | inRight
  · exact left leaf inLeft
  · exact right leaf inRight

theorem ReadAs.nothing : ReadAs nothing (fun _ : Unit => []) := by
  rintro before ts after ⟨rfl, rfl⟩
  exact ⟨(), rfl, by simp [Active], rfl⟩

theorem ReadAs.andThen {f : α → List Leaf} {g : β → List Leaf} (first : l.ReadAs f)
    (second : m.ReadAs g) : (l.andThen m).ReadAs (fun (x : α × β) => f x.1 ++ g x.2) := by
  rintro before ts after ⟨us, vs, between, rfl, left, right⟩
  obtain ⟨x, readLeft, activeLeft, rfl⟩ := first _ _ _ left
  obtain ⟨y, readRight, activeRight, rfl⟩ := second _ _ _ right
  exact ⟨(x, y), by simp [readLeft, readRight], active_append activeLeft activeRight, rfl⟩

theorem ReadAs.either {f : α → List Leaf} (first : l.ReadAs f) (second : m.ReadAs f) :
    (l.either m).ReadAs f := by
  rintro before ts after (left | right)
  · exact first _ _ _ left
  · exact second _ _ _ right

theorem ReadAs.map {f : α → List Leaf} {g : β → List Leaf} (read : l.ReadAs f) (shape : α → β)
    (same : ∀ x, g (shape x) = f x) : l.ReadAs g := by
  intro before ts after phrase
  obtain ⟨x, keys, active, rfl⟩ := read _ _ _ phrase
  exact ⟨shape x, by rw [same, keys], by rwa [same], rfl⟩

theorem ReadAs.optional {f : α → List Leaf} (read : l.ReadAs f) :
    l.optional.ReadAs (fun x? : Option α => x?.elim [] f) :=
  .either (read.map some fun _ => rfl) (ReadAs.nothing.map (fun _ => none) fun _ => rfl)

theorem ReadAs.repeated {f : α → List Leaf} (read : l.ReadAs f) :
    l.Repeated.ReadAs (fun xs : List α => xs.flatMap f) := by
  intro before ts after phrase
  induction phrase with
  | none => exact ⟨[], rfl, by simp [Active], rfl⟩
  | more first _ ih =>
    -- contexts stay as they are, so each round starts from the same ones
    obtain ⟨x, keys, active, rfl⟩ := read _ _ _ first
    obtain ⟨xs, restKeys, restActive, rfl⟩ := ih
    exact ⟨x :: xs, by simp [keys, restKeys], active_append active restActive, rfl⟩

/-- One or more phrases in a row, as a step that repeats a term has them. -/
theorem ReadAs.several {f : α → List Leaf} (read : l.ReadAs f) :
    (l.andThen l.Repeated).ReadAs (fun xs : List α => xs.flatMap f) :=
  (read.andThen read.repeated).map (fun (x, xs) => x :: xs) fun _ => rfl

end Phrases

/-! ### The rules of the shader grammar -/

namespace Dialect

/-- The steps of a symbol's rule, without the one that opens it and the one that closes it. -/
def body (s : Symbol) : List Step :=
  match rules.findIdx? (·.opens s.id) with
  | some index => (rules.drop (index + 1)).takeWhile (!·.isDone)
  | none => []

/-- The symbols that have rules are the ones in front of the terminals. -/
def hasRule (s : Symbol) : Bool := s.id < Symbol.ps14.id

def ruleHead? : Step → Option SymbolId
  | .rule id => some id
  | _ => none

private theorem ruleHeads_eq : rules.filterMap ruleHead? = List.range Symbol.ps14.id := by
  decide

private theorem any_opens_iff (s : Symbol) : rules.any (·.opens s.id) = hasRule s := by
  -- a rule is opened by its head, and the heads are known by computation
  have inHeads : rules.any (·.opens s.id) = true ↔ s.id ∈ rules.filterMap ruleHead? := by
    rw [List.any_eq_true, List.mem_filterMap]
    constructor
    · rintro ⟨step, member, opens⟩
      cases step <;> simp only [Step.opens, Bool.false_eq_true] at opens
      case rule symbol => exact ⟨_, member, by simpa [ruleHead?] using opens⟩
    · rintro ⟨step, member, head⟩
      cases step <;> simp only [ruleHead?, reduceCtorEq] at head
      case rule symbol => exact ⟨_, member, by simpa [Step.opens] using head⟩
  rw [ruleHeads_eq, List.mem_range] at inHeads
  rw [Bool.eq_iff_iff, inHeads, hasRule, decide_eq_true_eq]

theorem ruleIndex?_entry (s : Symbol) : (entry s).ruleIndex? = rules.findIdx? (·.opens s.id) := by
  simp [entry, Grammar.recorded]

theorem ruleIndex?_isSome (s : Symbol) : (entry s).ruleIndex?.isSome = hasRule s := by
  rw [ruleIndex?_entry, List.findIdx?_isSome, any_opens_iff]

theorem drop_ruleIndex {s : Symbol} {index : Nat}
    (starts : (entry s).ruleIndex? = some index) :
    ∃ rest, rules.drop index = .rule s.id :: rest ∧ rest.takeWhile (!·.isDone) = body s := by
  rw [ruleIndex?_entry] at starts
  obtain ⟨inside, opens, -⟩ := List.findIdx?_eq_some_iff_getElem.mp starts
  -- a step that opens the rule of a symbol can only be its head
  have first : rules[index] = .rule s.id := by
    cases step : rules[index] <;> rw [step] at opens <;>
      simp only [Step.opens, Bool.false_eq_true, beq_iff_eq] at opens
    rw [opens]
  refine ⟨rules.drop (index + 1), ?_, ?_⟩
  · rw [List.drop_eq_getElem_cons inside, first]
  · simp only [body, starts]

/-- The terms of a rule, with a bound on the rules nested in them. -/
abbrev parts (depth : Nat) (rule : Symbol) : Term → Phrases :=
  linked.termPhrases (linked.rulePhrases depth) rule.id

/-- The phrases of a symbol's rule, whatever the bound on nesting. -/
def phrasesOf (s : Symbol) : Phrases := fun before ts after =>
  ∃ depth index, (entry s).ruleIndex? = some index ∧
    linked.rulePhrases depth index before ts after

theorem phrasesOf_body {s : Symbol} {before after : UInt32} {ts : List Token}
    (phrase : phrasesOf s before ts after) :
    ∃ depth, Grammar.stepsPhrases (parts depth s) (body s ++ [.done]) .nothing before ts after := by
  obtain ⟨depth, index, starts, phrase⟩ := phrase
  obtain ⟨rest, opens, steps⟩ := drop_ruleIndex starts
  cases depth with
  | zero => exact phrase.elim
  | succ depth =>
    -- the head is passed over; what is behind the end of the rule does not matter
    have unfolded : Grammar.stepsPhrases (parts depth s) rest .nothing before ts after := by
      have shown := phrase
      unfold Grammar.rulePhrases at shown
      rw [show linked.steps = rules from rfl, opens] at shown
      exact shown
    exact ⟨depth, steps ▸ Grammar.stepsPhrases_upToDone unfolded⟩

/-- A term is a rule of its own or a single token. -/
theorem parts_cases {depth : Nat} {rule t : Symbol} {term : Term} (names : term.symbol = t.id)
    {before after : UInt32} {ts : List Token} (phrase : parts depth rule term before ts after) :
    t.contextKey &&& before ≠ 0 ∧
      if hasRule t then phrasesOf t before ts after
      else Grammar.terminalPhrases t.definition t.id rule.id before ts after := by
  obtain ⟨found, known, active, phrase⟩ := phrase
  rw [names, symbol?_id] at known
  cases known
  refine ⟨active, ?_⟩
  -- a term is entered if its symbol has a rule, and read as a token if not
  cases starts : (entry t).ruleIndex? with
  | some index =>
    have has : hasRule t = true := by rw [← ruleIndex?_isSome, starts]; rfl
    rw [if_pos has]
    simp only [starts] at phrase
    exact ⟨depth, index, starts, phrase⟩
  | none =>
    have lacks : hasRule t = false := by rw [← ruleIndex?_isSome, starts]; rfl
    rw [lacks, if_neg Bool.false_ne_true, ← names]
    simp only [starts] at phrase
    exact phrase

/-! ### Roles -/

/-- The rule is a choice between terminals. -/
def isChoice (s : Symbol) : Bool :=
  (match body s with
    | .require _ :: rest => rest.all fun step => match step with
      | .orElse _ => true
      | _ => false
    | _ => false) &&
  ((body s).filterMap Step.term?).all fun term =>
    s.terminals.any fun t => t.id == term.symbol && !hasRule t

/-- The rules that accept single terminals. -/
def roles : List Symbol :=
  [.programType, .defOp, .numVal, .separator, .phaseMarker, .texOpPs14, .texCoordReg,
   .texSwizzle, .texOpPs11, .texRegPs11, .texCiscOp, .texSpecOp, .coIssueMark, .unaryOp,
   .binaryOp, .ternaryOp, .dstMod, .dstSat, .dstMask, .preSrcMod, .postSrcMod, .srcRep,
   .tempReg, .constReg, .colorReg]

private theorem roles_are_choices : ∀ s ∈ roles, isChoice s = true := by decide +kernel

private theorem stepsPhrases_choice {ofTerm : Term → Phrases} {steps : List Step}
    (choice : (steps.all fun step => match step with
      | .orElse _ => true
      | _ => false) = true)
    {soFar : Phrases} {before after : UInt32} {ts : List Token}
    (phrase : Grammar.stepsPhrases ofTerm (steps ++ [.done]) soFar before ts after) :
    soFar before ts after ∨ ∃ term ∈ steps.filterMap Step.term?, ofTerm term before ts after := by
  induction steps generalizing soFar with
  | nil => exact .inl phrase
  -- the phrases so far are those of the alternative in front
  | cons step rest ih =>
    obtain ⟨isOrElse, others⟩ : _ ∧ _ := by
      simpa only [List.all_cons, Bool.and_eq_true] using choice
    cases step with
    | orElse term =>
      rcases phrase with here | later
      · exact .inl here
      · rcases ih others later with first | ⟨other, member, found⟩
        · exact .inr ⟨term, by simp [Step.term?], first⟩
        · exact .inr ⟨other, by simp [Step.term?, member], found⟩
    | rule symbol | require term | maybe term | many term | done => cases isOrElse

/-- A role accepts one token: a terminal that can play the role and is active. -/
theorem phrasesOf_role {s : Symbol} (role : s ∈ roles) {before after : UInt32} {ts : List Token}
    (phrase : phrasesOf s before ts after) :
    ∃ t : Terminal s, ts.map Token.key = [t.leaf.key] ∧ t.symbol.contextKey &&& before ≠ 0 ∧
      after = t.symbol.definition.contextsAfter before := by
  have choice := roles_are_choices s role
  rw [isChoice, Bool.and_eq_true] at choice
  obtain ⟨depth, phrase⟩ := phrasesOf_body phrase
  obtain ⟨shape, terminals⟩ := choice
  -- whichever alternative was taken, its term is a terminal of the role
  have single (term : Term) (member : term ∈ (body s).filterMap Step.term?)
      (found : parts depth s term before ts after) :
      ∃ t : Terminal s, ts.map Token.key = [t.leaf.key] ∧ t.symbol.contextKey &&& before ≠ 0 ∧
        after = t.symbol.definition.contextsAfter before := by
    obtain ⟨t, among, isTerminal⟩ := List.any_eq_true.mp (List.all_eq_true.mp terminals term member)
    simp only [Bool.and_eq_true, beq_iff_eq, Bool.not_eq_true'] at isTerminal
    obtain ⟨active, token⟩ := parts_cases isTerminal.1.symm found
    rw [isTerminal.2, if_neg Bool.false_ne_true] at token
    obtain ⟨⟨place, rfl⟩, contexts⟩ := token
    exact ⟨⟨t, among⟩, rfl, active, contexts⟩
  cases steps : body s with
  | nil => simp [steps] at shape
  | cons step rest =>
    rw [steps] at shape phrase single
    cases step with
    | require term =>
      rcases stepsPhrases_choice shape phrase with first | ⟨other, member, found⟩
      · obtain ⟨us, vs, between, rfl, ⟨rfl, rfl⟩, found⟩ := first
        exact single term (by simp [Step.term?]) found
      · exact single other (by simp [Step.term?, member]) found
    | rule symbol | orElse term | maybe term | many term | done => cases shape

/-- The version and the phase marker change the contexts, the other roles do not. -/
def neutralRoles : List Symbol := roles.filter fun s => s != .programType && s != .phaseMarker

theorem neutralRoles_neutral :
    ∀ s ∈ neutralRoles, ∀ t ∈ s.terminals, t.contextSet = 0 ∧ t.contextClear = 0 := by
  decide

theorem readAs_role {s : Symbol} (role : s ∈ neutralRoles) :
    (phrasesOf s).ReadAs (fun t : Terminal s => [t.leaf]) := by
  intro before ts after phrase
  obtain ⟨t, keys, active, contexts⟩ := phrasesOf_role (List.mem_filter.mp role).1 phrase
  obtain ⟨noSet, noClear⟩ := neutralRoles_neutral s role t.symbol t.member
  refine ⟨t, keys, by simpa [Active, Terminal.leaf] using active, ?_⟩
  rw [contexts, SymbolDef.contextsAfter]
  simp [Symbol.definition, noSet, noClear]

/-! ### Composite rules -/

private def sourceSteps : Nat → List Step
  | 0 => []
  | n + 1 => need .separator :: need .srcArg :: sourceSteps n

/-- What the rules with several parts are made of. -/
def production : Symbol → List Step
  | .program =>
    [need .programType, offer .constants, offer .texBlock, offer .aluBlock, offer .phaseTwo]
  | .phaseTwo => [need .phaseMarker, offer .texBlock, offer .aluBlock]
  | .constants => [several .defStmt]
  | .defStmt =>
    [need .defOp, need .constReg, need .separator, need .numVal, need .separator, need .numVal,
      need .separator, need .numVal, need .separator, need .numVal]
  | .texBlock => [several .texStatement]
  | .texStatement =>
    [need .texStmtPs14, .orElse (bare .texCiscStmt), .orElse (bare .texSpecStmt),
      .orElse (bare .texStmtPs11)]
  | .texStmtPs14 =>
    [need .texOpPs14, need .tempReg, offer .dstMask, need .separator, need .texSource,
      offer .texSwizzle]
  | .texSource => [need .texCoordReg, .orElse (bare .tempReg)]
  | .texStmtPs11 => [need .texOpPs11, need .texRegPs11]
  | .texCiscStmt => [need .texCiscOp, need .texRegPs11, need .separator, need .texRegPs11]
  | .texSpecStmt =>
    [need .texSpecOp, need .texRegPs11, need .separator, need .texRegPs11, need .separator,
      need .constReg]
  | .aluBlock => [several .aluStatement]
  | .aluStatement => [offer .coIssueMark, need .aluOp]
  | .aluOp => [need .unaryStmt, .orElse (bare .binaryStmt), .orElse (bare .ternaryStmt)]
  | .unaryStmt => need .unaryOp :: need .destInfo :: sourceSteps 1
  | .binaryStmt => need .binaryOp :: need .destInfo :: sourceSteps 2
  | .ternaryStmt => need .ternaryOp :: need .destInfo :: sourceSteps 3
  | .destInfo => [offer .dstMod, offer .dstSat, need .tempReg, offer .dstMask]
  | .srcArg => [offer .preSrcMod, need .srcReg, offer .postSrcMod, offer .srcRep]
  | .srcReg => [need .tempReg, .orElse (bare .constReg), .orElse (bare .colorReg)]
  | _ => []

def composites : List Symbol :=
  [.program, .phaseTwo, .constants, .defStmt, .texBlock, .texStatement, .texStmtPs14, .texSource,
   .texStmtPs11, .texCiscStmt, .texSpecStmt, .aluBlock, .aluStatement, .aluOp, .unaryStmt,
   .binaryStmt, .ternaryStmt, .destInfo, .srcArg, .srcReg]

-- the table of rules is searched by the kernel, once for all of them
theorem body_composite : ∀ s ∈ composites, body s = production s := by decide +kernel

section Composite

variable {α : Type}

theorem readAs_body {s : Symbol} {leaves : α → List Leaf}
    (read : ∀ depth,
      (Grammar.stepsPhrases (parts depth s) (body s ++ [.done]) .nothing).ReadAs leaves) :
    (phrasesOf s).ReadAs leaves := by
  intro before ts after phrase
  obtain ⟨depth, phrase⟩ := phrasesOf_body phrase
  exact read depth _ _ _ phrase

theorem readAs_part {t : Symbol} {leaves : α → List Leaf} (read : (phrasesOf t).ReadAs leaves)
    (has : hasRule t = true) (depth : Nat) (rule : Symbol) :
    (parts depth rule (bare t)).ReadAs leaves := by
  intro before ts after phrase
  obtain ⟨-, phrase⟩ := parts_cases rfl phrase
  rw [if_pos has] at phrase
  exact read _ _ _ phrase

/-- A role as a part of another rule. -/
theorem readAs_rolePart {t : Symbol} (role : t ∈ neutralRoles) (has : hasRule t = true)
    (depth : Nat) (rule : Symbol) :
    (parts depth rule (bare t)).ReadAs (fun x : Terminal t => [x.leaf]) :=
  readAs_part (readAs_role role) has depth rule

end Composite

private theorem leaf_separator (t : Terminal .separator) : t.leaf = comma := by
  obtain ⟨symbol, member⟩ := t
  cases List.mem_singleton.mp member
  rfl

private theorem leaf_numVal (t : Terminal .numVal) : t.leaf = numeral := by
  obtain ⟨symbol, member⟩ := t
  cases List.mem_singleton.mp member
  rfl

private theorem leaf_defOp (t : Terminal .defOp) : t.leaf = ⟨.define, .defOp⟩ := by
  obtain ⟨symbol, member⟩ := t
  cases List.mem_singleton.mp member
  rfl

theorem readAs_destInfo : (phrasesOf .destInfo).ReadAs Destination.leaves := by
  refine readAs_body fun depth => ?_
  have scale := readAs_rolePart (t := .dstMod) (by decide) rfl depth .destInfo
  have saturate := readAs_rolePart (t := .dstSat) (by decide) rfl depth .destInfo
  have register := readAs_rolePart (t := .tempReg) (by decide) rfl depth .destInfo
  have mask := readAs_rolePart (t := .dstMask) (by decide) rfl depth .destInfo
  rw [body_composite .destInfo (by decide)]
  exact ((((Phrases.ReadAs.nothing.andThen scale.optional).andThen saturate.optional).andThen
    register).andThen mask.optional).map
      (fun ((((_, scale), saturate), register), mask) => ⟨scale, saturate, register, mask⟩)
      fun _ => rfl

theorem readAs_srcReg : (phrasesOf .srcReg).ReadAs (fun r : SourceRegister => [r.leaf]) := by
  refine readAs_body fun depth => ?_
  have temp := readAs_rolePart (t := .tempReg) (by decide) rfl depth .srcReg
  have constant := readAs_rolePart (t := .constReg) (by decide) rfl depth .srcReg
  have color := readAs_rolePart (t := .colorReg) (by decide) rfl depth .srcReg
  rw [body_composite .srcReg (by decide)]
  exact ((Phrases.ReadAs.nothing.andThen temp).map (fun (_, t) => .temp t) fun _ => rfl).either
    ((constant.map .constant fun _ => rfl).either (color.map .color fun _ => rfl))

theorem readAs_srcArg : (phrasesOf .srcArg).ReadAs Source.leaves := by
  refine readAs_body fun depth => ?_
  have before := readAs_rolePart (t := .preSrcMod) (by decide) rfl depth .srcArg
  have register := readAs_part readAs_srcReg rfl depth .srcArg
  have behind := readAs_rolePart (t := .postSrcMod) (by decide) rfl depth .srcArg
  have replicate := readAs_rolePart (t := .srcRep) (by decide) rfl depth .srcArg
  rw [body_composite .srcArg (by decide)]
  exact ((((Phrases.ReadAs.nothing.andThen before.optional).andThen register).andThen
    behind.optional).andThen replicate.optional).map
      (fun ((((_, before), register), behind), replicate) =>
        ⟨before, register, behind, replicate⟩)
      fun _ => rfl

/-- The rule of the statements with a number of sources. -/
def statementRule : Arity → Symbol
  | .one => .unaryStmt
  | .two => .binaryStmt
  | .three => .ternaryStmt

private theorem body_statementRule (arity : Arity) :
    body (statementRule arity) =
      need (opcodeRule arity) :: need .destInfo :: sourceSteps arity.count := by
  rw [body_composite (statementRule arity) (by cases arity <;> decide)]
  cases arity <;> rfl

/-- Sources, each behind a separator, follow what was read so far. -/
private theorem readAs_sourceSteps {α : Type} (depth : Nat) (rule : Symbol) (n : Nat)
    {soFar : Phrases} {f : α → List Leaf} (read : soFar.ReadAs f) :
    (Grammar.stepsPhrases (parts depth rule) (sourceSteps n ++ [.done]) soFar).ReadAs
      (fun x : α × { sources : List Source // sources.length = n } =>
        f x.1 ++ x.2.1.flatMap (comma :: ·.leaves)) := by
  induction n generalizing α soFar with
  -- the steps are read from left to right, so the sources are consed behind what is read so far
  | zero => exact read.map (fun x => (x, ⟨[], rfl⟩)) fun x => by simp
  | succ n ih =>
    have separator := readAs_rolePart (t := .separator) (by decide) rfl depth rule
    have source := readAs_part readAs_srcArg rfl depth rule
    refine (ih ((read.andThen separator).andThen source)).map
      (fun (((x, _), a), rest) => (x, ⟨a :: rest.1, congrArg (· + 1) rest.2⟩)) ?_
    rintro ⟨⟨⟨x, mark⟩, a⟩, rest⟩
    simp [leaf_separator]

/-- The leaves of an arithmetic statement behind its co-issue mark. -/
private def unmarked (s : Arithmetic) : List Leaf :=
  s.opcode.leaf :: (Simple.arithmetic s).layout.operandLeaves

private theorem readAs_statementRule (arity : Arity) :
    (phrasesOf (statementRule arity)).ReadAs unmarked := by
  refine readAs_body fun depth => ?_
  have opcode := readAs_rolePart (t := opcodeRule arity) (by cases arity <;> decide)
    (by cases arity <;> rfl) depth (statementRule arity)
  have target := readAs_part readAs_destInfo rfl depth (statementRule arity)
  rw [body_statementRule]
  refine (readAs_sourceSteps depth (statementRule arity) arity.count
    ((Phrases.ReadAs.nothing.andThen opcode).andThen target)).map
      (fun (((_, opcode), target), sources) =>
        ⟨none, arity, opcode, target, sources.1, sources.2⟩) ?_
  rintro ⟨⟨⟨_, opcode⟩, target⟩, sources, length⟩
  simp only [unmarked, Simple.layout, Layout.operandLeaves, List.flatMap_map, List.nil_append,
    List.cons_append]

private theorem readAs_aluOp : (phrasesOf .aluOp).ReadAs unmarked := by
  refine readAs_body fun depth => ?_
  have one := readAs_part (readAs_statementRule .one) rfl depth .aluOp
  have two := readAs_part (readAs_statementRule .two) rfl depth .aluOp
  have three := readAs_part (readAs_statementRule .three) rfl depth .aluOp
  rw [body_composite .aluOp (by decide)]
  exact ((Phrases.ReadAs.nothing.andThen one).map (·.2) fun _ => rfl).either (two.either three)

theorem readAs_aluStatement :
    (phrasesOf .aluStatement).ReadAs (fun s => (Simple.arithmetic s).layout.leaves) := by
  refine readAs_body fun depth => ?_
  have mark := readAs_rolePart (t := .coIssueMark) (by decide) rfl depth .aluStatement
  have operation := readAs_part readAs_aluOp rfl depth .aluStatement
  rw [body_composite .aluStatement (by decide)]
  exact ((Phrases.ReadAs.nothing.andThen mark.optional).andThen operation).map
    (fun ((_, mark), s) => { s with coIssue? := mark }) fun _ => rfl

theorem readAs_aluBlock : (phrasesOf .aluBlock).ReadAs
    (fun block : List Arithmetic =>
      block.flatMap fun s => (Simple.arithmetic s).layout.leaves) := by
  refine readAs_body fun depth => ?_
  rw [body_composite .aluBlock (by decide)]
  exact (Phrases.ReadAs.nothing.andThen
    (readAs_part readAs_aluStatement rfl depth .aluBlock).several).map (·.2) fun _ => rfl

theorem readAs_texSource : (phrasesOf .texSource).ReadAs (fun c : Coordinates => [c.leaf]) := by
  refine readAs_body fun depth => ?_
  have interpolator := readAs_rolePart (t := .texCoordReg) (by decide) rfl depth .texSource
  have temp := readAs_rolePart (t := .tempReg) (by decide) rfl depth .texSource
  rw [body_composite .texSource (by decide)]
  exact ((Phrases.ReadAs.nothing.andThen interpolator).map (fun (_, t) => .interpolator t)
    fun _ => rfl).either (temp.map .temp fun _ => rfl)

theorem readAs_texStmtPs14 :
    (phrasesOf .texStmtPs14).ReadAs (fun s => (Simple.texture s).layout.leaves) := by
  refine readAs_body fun depth => ?_
  have opcode := readAs_rolePart (t := .texOpPs14) (by decide) rfl depth .texStmtPs14
  have target := readAs_rolePart (t := .tempReg) (by decide) rfl depth .texStmtPs14
  have mask := readAs_rolePart (t := .dstMask) (by decide) rfl depth .texStmtPs14
  have separator := readAs_rolePart (t := .separator) (by decide) rfl depth .texStmtPs14
  have coordinates := readAs_part readAs_texSource rfl depth .texStmtPs14
  have swizzle := readAs_rolePart (t := .texSwizzle) (by decide) rfl depth .texStmtPs14
  rw [body_composite .texStmtPs14 (by decide)]
  refine ((((((Phrases.ReadAs.nothing.andThen opcode).andThen target).andThen
    mask.optional).andThen separator).andThen coordinates).andThen swizzle.optional).map
      (fun ((((((_, opcode), target), mask), _), coordinates), swizzle) =>
        ⟨opcode, target, mask, coordinates, swizzle⟩) ?_
  rintro ⟨⟨⟨⟨⟨⟨_, opcode⟩, target⟩, mask⟩, mark⟩, coordinates⟩, swizzle⟩
  simp [Simple.layout, Layout.leaves, Layout.operandLeaves, leaf_separator, Terminal.leaves]

theorem readAs_texStmtPs11 :
    (phrasesOf .texStmtPs11).ReadAs (fun s => (Simple.legacyTexture s).layout.leaves) := by
  refine readAs_body fun depth => ?_
  have opcode := readAs_rolePart (t := .texOpPs11) (by decide) rfl depth .texStmtPs11
  have target := readAs_rolePart (t := .texRegPs11) (by decide) rfl depth .texStmtPs11
  rw [body_composite .texStmtPs11 (by decide)]
  exact ((Phrases.ReadAs.nothing.andThen opcode).andThen target).map
    (fun ((_, opcode), target) => ⟨opcode, target⟩) fun _ => rfl

theorem readAs_texCiscStmt :
    (phrasesOf .texCiscStmt).ReadAs (fun s : Composite => s.layout.leaves) := by
  refine readAs_body fun depth => ?_
  have opcode := readAs_rolePart (t := .texCiscOp) (by decide) rfl depth .texCiscStmt
  have register := readAs_rolePart (t := .texRegPs11) (by decide) rfl depth .texCiscStmt
  have separator := readAs_rolePart (t := .separator) (by decide) rfl depth .texCiscStmt
  rw [body_composite .texCiscStmt (by decide)]
  refine ((((Phrases.ReadAs.nothing.andThen opcode).andThen register).andThen separator).andThen
    register).map (fun ((((_, opcode), x), _), y) => Composite.plain opcode x y) ?_
  rintro ⟨⟨⟨⟨_, opcode⟩, x⟩, mark⟩, y⟩
  simp [Composite.layout, Layout.leaves, Layout.operandLeaves, leaf_separator]

theorem readAs_texSpecStmt :
    (phrasesOf .texSpecStmt).ReadAs (fun s : Composite => s.layout.leaves) := by
  refine readAs_body fun depth => ?_
  have opcode := readAs_rolePart (t := .texSpecOp) (by decide) rfl depth .texSpecStmt
  have register := readAs_rolePart (t := .texRegPs11) (by decide) rfl depth .texSpecStmt
  have separator := readAs_rolePart (t := .separator) (by decide) rfl depth .texSpecStmt
  have constant := readAs_rolePart (t := .constReg) (by decide) rfl depth .texSpecStmt
  rw [body_composite .texSpecStmt (by decide)]
  refine ((((((Phrases.ReadAs.nothing.andThen opcode).andThen register).andThen
    separator).andThen register).andThen separator).andThen constant).map
      (fun ((((((_, opcode), x), _), y), _), z) => Composite.reflection opcode x y z) ?_
  rintro ⟨⟨⟨⟨⟨⟨_, opcode⟩, x⟩, mark⟩, y⟩, mark'⟩, z⟩
  simp [Composite.layout, Layout.leaves, Layout.operandLeaves, leaf_separator]

theorem readAs_texStatement :
    (phrasesOf .texStatement).ReadAs (fun s : TextureStatement => s.statement.leaves) := by
  refine readAs_body fun depth => ?_
  have current := readAs_part readAs_texStmtPs14 rfl depth .texStatement
  have plain := readAs_part readAs_texCiscStmt rfl depth .texStatement
  have reflection := readAs_part readAs_texSpecStmt rfl depth .texStatement
  have legacy := readAs_part readAs_texStmtPs11 rfl depth .texStatement
  rw [body_composite .texStatement (by decide)]
  exact ((Phrases.ReadAs.nothing.andThen current).map (fun (_, s) => .current s)
    fun _ => rfl).either ((plain.map .composite fun _ => rfl).either
      ((reflection.map .composite fun _ => rfl).either (legacy.map .legacy fun _ => rfl)))

theorem readAs_texBlock : (phrasesOf .texBlock).ReadAs
    (fun block : List TextureStatement => block.flatMap fun s => s.statement.leaves) := by
  refine readAs_body fun depth => ?_
  rw [body_composite .texBlock (by decide)]
  exact (Phrases.ReadAs.nothing.andThen
    (readAs_part readAs_texStatement rfl depth .texBlock).several).map (·.2) fun _ => rfl

theorem readAs_defStmt :
    (phrasesOf .defStmt).ReadAs (fun register => (Simple.define register).layout.leaves) := by
  refine readAs_body fun depth => ?_
  have opcode := readAs_rolePart (t := .defOp) (by decide) rfl depth .defStmt
  have register := readAs_rolePart (t := .constReg) (by decide) rfl depth .defStmt
  have value := (readAs_rolePart (t := .separator) (by decide) rfl depth .defStmt)
  have numeral := readAs_rolePart (t := .numVal) (by decide) rfl depth .defStmt
  rw [body_composite .defStmt (by decide)]
  refine ((((((((((Phrases.ReadAs.nothing.andThen opcode).andThen register).andThen value).andThen
    numeral).andThen value).andThen numeral).andThen value).andThen numeral).andThen value).andThen
      numeral).map (fun ((((((((((_, _), register), _), _), _), _), _), _), _), _) => register) ?_
  rintro ⟨⟨⟨⟨⟨⟨⟨⟨⟨⟨_, opcode⟩, register⟩, _⟩, _⟩, _⟩, _⟩, _⟩, _⟩, _⟩, _⟩
  simp [Simple.layout, Layout.leaves, Layout.operandLeaves, leaf_separator, leaf_numVal,
    leaf_defOp]

theorem readAs_constants : (phrasesOf .constants).ReadAs
    (fun definitions : List (Terminal .constReg) =>
      definitions.flatMap fun register => (Simple.define register).layout.leaves) := by
  refine readAs_body fun depth => ?_
  rw [body_composite .constants (by decide)]
  exact (Phrases.ReadAs.nothing.andThen
    (readAs_part readAs_defStmt rfl depth .constants).several).map (·.2) fun _ => rfl

/-! ### Programs -/

/-- A block that may be missing, as a list that may be empty. -/
private theorem readAs_offered {α : Type} {t : Symbol} {f : α → List Leaf}
    (read : (phrasesOf t).ReadAs fun xs : List α => xs.flatMap f) (has : hasRule t = true)
    (depth : Nat) (rule : Symbol) :
    (parts depth rule (bare t)).optional.ReadAs fun xs : List α => xs.flatMap f :=
  (readAs_part read has depth rule).optional.map (·.getD []) fun xs? => by cases xs? <;> rfl

private theorem leaves_block (textures : List TextureStatement) (arithmetic : List Arithmetic) :
    (Block.mk textures arithmetic).statements.flatMap (·.leaves) =
      (textures.flatMap fun s => s.statement.leaves) ++
        arithmetic.flatMap fun s => (Simple.arithmetic s).layout.leaves := by
  simp [Block.statements, List.flatMap_map, Statement.leaves, Statement.layout]

private theorem leaf_phaseMarker (t : Terminal .phaseMarker) : t.symbol = .phase :=
  List.mem_singleton.mp t.member

theorem phrasesOf_phaseTwo {before after : UInt32} {ts : List Token}
    (phrase : phrasesOf .phaseTwo before ts after) :
    ∃ block : Block,
      ts.map Token.key =
        ((Statement.simple .phaseMarker :: block.statements).flatMap (·.leaves)).map Leaf.key ∧
      Context.phase1 &&& before ≠ 0 ∧
      Active (before &&& ~~~Context.phase1) (block.statements.flatMap (·.leaves)) ∧
      after = before &&& ~~~Context.phase1 := by
  obtain ⟨depth, phrase⟩ := phrasesOf_body phrase
  rw [body_composite .phaseTwo (by decide)] at phrase
  -- the last step comes off first
  obtain ⟨_, arithmeticTokens, _, rfl, phrase, offered⟩ := phrase
  obtain ⟨_, textureTokens, _, rfl, phrase, offeredTextures⟩ := phrase
  obtain ⟨_, markerTokens, _, rfl, ⟨rfl, same⟩, required⟩ := phrase
  rw [same] at required
  obtain ⟨-, marker⟩ := parts_cases (t := .phaseMarker) rfl required
  obtain ⟨t, markerKeys, active, rfl⟩ := phrasesOf_role (by decide) marker
  obtain ⟨textures, textureKeys, activeTextures, rfl⟩ :=
    readAs_offered readAs_texBlock rfl depth .phaseTwo _ _ _ offeredTextures
  obtain ⟨arithmetic, arithmeticKeys, activeArithmetic, rfl⟩ :=
    readAs_offered readAs_aluBlock rfl depth .phaseTwo _ _ _ offered
  -- the marker ends the first phase, which the block behind it is read in
  have cleared : t.symbol.definition.contextsAfter before = before &&& ~~~Context.phase1 := by
    rw [leaf_phaseMarker, SymbolDef.contextsAfter]
    simp [Symbol.definition, Symbol.contextClear, Symbol.contextSet]
  have markerLeaf : t.leaf = ⟨.phase, .phaseMarker⟩ := by rw [Terminal.leaf, leaf_phaseMarker]
  rw [cleared] at activeTextures activeArithmetic ⊢
  refine ⟨⟨textures, arithmetic⟩, ?_, ?_, ?_, rfl⟩
  · rw [List.flatMap_cons, leaves_block]
    simp [markerKeys, textureKeys, arithmeticKeys, markerLeaf, Statement.leaves,
      Statement.layout, Simple.layout, Layout.leaves, Layout.operandLeaves]
  · rw [leaf_phaseMarker] at active
    exact active
  · rw [leaves_block]
    exact Phrases.active_append activeTextures activeArithmetic

private theorem leaves_firstStatements (p : Shader) :
    p.firstStatements.flatMap (·.leaves) =
      (p.definitions.flatMap fun register => (Simple.define register).layout.leaves) ++
        p.first.statements.flatMap (·.leaves) := by
  simp [Shader.firstStatements, List.flatMap_map, Statement.leaves, Statement.layout]

private theorem versions_clear_nothing :
    ∀ t ∈ Symbol.terminals .programType, t.contextClear = 0 := by decide

theorem phrasesOf_program {after : UInt32} {ts : List Token}
    (phrase : phrasesOf .program Context.base ts after) :
    ∃ p : Shader, ts.map Token.key = p.leaves.map Leaf.key ∧ p.InDialect ∧
      after = p.finalContexts := by
  obtain ⟨depth, phrase⟩ := phrasesOf_body phrase
  rw [body_composite .program (by decide)] at phrase
  -- the last step comes off first
  obtain ⟨_, secondTokens, _, rfl, phrase, offeredSecond⟩ := phrase
  obtain ⟨_, arithmeticTokens, _, rfl, phrase, offered⟩ := phrase
  obtain ⟨_, textureTokens, _, rfl, phrase, offeredTextures⟩ := phrase
  obtain ⟨_, constantTokens, _, rfl, phrase, offeredConstants⟩ := phrase
  obtain ⟨_, versionTokens, _, rfl, ⟨rfl, rfl⟩, required⟩ := phrase
  obtain ⟨-, named⟩ := parts_cases (t := .programType) rfl required
  obtain ⟨version, versionKeys, -, rfl⟩ := phrasesOf_role (by decide) named
  obtain ⟨definitions, constantKeys, activeConstants, rfl⟩ :=
    readAs_offered readAs_constants rfl depth .program _ _ _ offeredConstants
  obtain ⟨textures, textureKeys, activeTextures, rfl⟩ :=
    readAs_offered readAs_texBlock rfl depth .program _ _ _ offeredTextures
  obtain ⟨arithmetic, arithmeticKeys, activeArithmetic, rfl⟩ :=
    readAs_offered readAs_aluBlock rfl depth .program _ _ _ offered
  -- the version opens the contexts in which everything else is read
  have opened : version.symbol.definition.contextsAfter Context.base =
      Context.base ||| version.symbol.contextSet := by
    have keeps := versions_clear_nothing version.symbol version.member
    simp [SymbolDef.contextsAfter, Symbol.definition, keeps]
  rw [opened] at activeConstants activeTextures activeArithmetic offeredSecond
  have activeFirst : Active (Context.base ||| version.symbol.contextSet)
      ((Shader.mk version definitions ⟨textures, arithmetic⟩ none).firstStatements.flatMap
        (·.leaves)) := by
    rw [leaves_firstStatements, leaves_block]
    exact Phrases.active_append activeConstants
      (Phrases.active_append activeTextures activeArithmetic)
  -- with or without a phase marker the leaves line up block by block
  rcases offeredSecond with second | ⟨rfl, rfl⟩
  · obtain ⟨-, second⟩ := parts_cases (t := .phaseTwo) rfl second
    obtain ⟨block, secondKeys, marked, activeSecond, rfl⟩ := phrasesOf_phaseTwo second
    refine ⟨⟨version, definitions, ⟨textures, arithmetic⟩, some block⟩, ?_, ⟨activeFirst, ?_⟩, rfl⟩
    · rw [Shader.leaves, Shader.statements, List.flatMap_append, leaves_firstStatements,
        leaves_block]
      simp only [List.map_append, List.map_cons, versionKeys, constantKeys, textureKeys,
        arithmeticKeys, secondKeys, Shader.secondStatements]
      simp
    · rintro _ ⟨rfl⟩
      exact ⟨marked, activeSecond⟩
  · refine ⟨⟨version, definitions, ⟨textures, arithmetic⟩, none⟩, ?_, ⟨activeFirst, ?_⟩, rfl⟩
    · rw [Shader.leaves, Shader.statements, List.flatMap_append, leaves_firstStatements,
        leaves_block]
      simp only [List.map_append, List.map_cons, versionKeys, constantKeys, textureKeys,
        arithmeticKeys, Shader.secondStatements]
      simp
    · rintro _ ⟨⟩

theorem countP_value {ts : List Token} {leaves : List Leaf}
    (keys : ts.map Token.key = leaves.map Leaf.key) :
    ts.countP (·.id == Symbol.value.id) = leaves.countP (·.symbol == .value) := by
  have tokens : ts.countP (·.id == Symbol.value.id) =
      (ts.map Token.key).countP (·.1 == Symbol.value.id) := by
    rw [List.countP_map]
    rfl
  have symbols : (fun l : Leaf => l.symbol == .value) =
      (fun key : SymbolId × SymbolId => key.1 == Symbol.value.id) ∘ Leaf.key := by
    funext l
    rw [Bool.eq_iff_iff]
    simp only [beq_iff_eq, Function.comp_apply, Leaf.key]
    exact ⟨fun same => by rw [same], Symbol.id_inj⟩
  rw [tokens, keys, symbols, List.countP_map]

/-- A reading that was accepted consists of the leaves of a program. The program keeps to
its dialect, and the reading has one constant for each of its numerals. -/
structure Represents (r : Reading) (p : Shader) : Prop where
  tokens : r.tokens.map Token.key = p.leaves.map Leaf.key
  dialect : p.InDialect
  contexts : r.contexts = p.finalContexts
  constants : r.constants.length = p.leaves.countP (·.symbol == .value)

/-- The rule of a program is the first one. -/
theorem ruleIndex?_program : (entry .program).ruleIndex? = some 0 := by decide

theorem matchRule_root_represents {depth : Nat} {source : List UInt8} {next : Progress}
    (matched : linked.matchRule depth 0 (linked.start source) = some (true, next)) :
    ∃ p, Represents next.reading p := by
  obtain ⟨ts, grown, phrase⟩ := linked.matchRule_accepts depth 0 _ _ _ matched
  obtain ⟨p, keys, dialect, contexts⟩ :=
    phrasesOf_program ⟨depth, 0, ruleIndex?_program, phrase⟩
  have tokens : next.tokens.toList = ts := by simpa [Grammar.start] using grown.tokens
  have constants := grown.constants
  refine ⟨p, ?_, dialect, contexts, ?_⟩
  · rw [Progress.reading, tokens, keys]
  · rw [Progress.reading, Trail.length_toList, constants, ← countP_value keys]
    exact Nat.zero_add _

theorem read_represents {source : String} {previous r : Reading}
    (accepted : linked.read source previous = (.ok (), r)) : ∃ p, Represents r p := by
  unfold Grammar.read at accepted
  dsimp only at accepted
  split at accepted
  · cases accepted
  · split at accepted
    · cases accepted
    next matched next found =>
      obtain ⟨passed, rfl⟩ := Prod.mk.inj accepted
      cases matched with
      | false => cases passed
      | true => exact matchRule_root_represents found

end Dialect
end PixelAsm
