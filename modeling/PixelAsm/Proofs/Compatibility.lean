import PixelAsm.Proofs.Completeness
import PixelAsm.Proofs.History
import PixelAsm.Proofs.Lines
import PixelAsm.Proofs.Simulation

/-!
# Compatibility of the dialects before ps.1.4

A program of ps.1.1 is also one of ps.1.2 and ps.1.3, and compiles to the same there. The later
dialects know four more opcodes. No statement of ps.1.1 starts with one of them, and a text that
does is not read any further, so it is never at such a text that a program goes on.

Between ps.1.2 and ps.1.3 there is no difference at all, whether a text is accepted or not.
-/
namespace PixelAsm

open Syntax Grammar

namespace Dialect

/-! ### Rules of the grammar, from evaluation -/

/-- What a rule that is entered consists of. -/
theorem alternatives_of_opens {s : Symbol} {index : Nat}
    (starts : (entry s).ruleIndex? = some index) {symbol : SymbolId} {steps : List Step}
    (opens : linked.steps.drop index = .rule symbol :: steps) :
    symbol = s.id ∧ (Alternatives.ofSteps steps).all = alternativesOf s := by
  obtain ⟨more, own⟩ := drop_body starts
  obtain ⟨same, rfl⟩ := List.cons.inj (opens.symm.trans own)
  cases same
  rw [ofSteps_upToDone]
  exact ⟨rfl, rfl⟩

theorem first_of_bare {s : Symbol} (has : hasRule s = true) {owner : SymbolId}
    {p q : Progress} {verdict : Bool} (active : s.contextKey &&& p.contexts ≠ 0)
    (evaluates : Evaluates linked (.term owner (bare s)) p verdict q) :
    Evaluates linked (.first s.id (alternativesOf s)) p verdict q := by
  have known : linked.symbol? (bare s).symbol = some (entry s) := symbol?_id s
  cases evaluates with
  | unknown missing => simp [known] at missing
  | inactive found off =>
    obtain rfl := Option.some.inj (known.symm.trans found)
    exact absurd off active
  | nested found _ starts entered =>
    obtain rfl := Option.some.inj (known.symm.trans found)
    cases entered with
    | rule opens chosen =>
      obtain ⟨rfl, same⟩ := alternatives_of_opens starts opens
      rwa [← same]
  | terminal found _ noRule _ =>
    obtain rfl := Option.some.inj (known.symm.trans found)
    rw [← ruleIndex?_isSome, noRule] at has
    cases has

theorem linked_wellFormed : linked.WellFormed := wellFormed_of_link grammar_eq_linked

/-- A symbol with a rule that fails stays where it was. -/
theorem eq_of_bare {s : Symbol} (has : hasRule s = true) {owner : SymbolId} {p q : Progress}
    (fails : Evaluates linked (.term owner (bare s)) p false q) : q = p := by
  by_cases off : s.contextKey &&& p.contexts = 0
  · exact (fails.unique linked_wellFormed (.inactive (symbol?_id s) off)).2
  · exact (first_of_bare has off fails).eq_of_first

/-! ### Versions -/

/-- A program with the version starts with its token. -/
def opening (version : Symbol) : Opening :=
  { token :=
      { id := version.id, rule := Symbol.programType.id, place := { line := 1, offset := 0 } }
    contexts := Context.base ||| version.contextSet }

/-- The symbol with this id is one of those that pass the test. -/
def among (test : Symbol → Bool) (id : SymbolId) : Prop := (Symbol.ofId? id).any test = true

theorem exists_of_among {test : Symbol → Bool} {id : SymbolId} (member : among test id) :
    ∃ s, id = s.id ∧ test s = true := by
  unfold among at member
  cases found : Symbol.ofId? id with
  | none => simp [found] at member
  | some s =>
    rw [found] at member
    exact ⟨s, (eq_id_of_getElem?_all found).symm, member⟩

/-- Both versions allow the same of the symbols, their terminals do not change the contexts, and
their rules name no other symbols. -/
def isEven (test : Symbol → Bool) (v w : Symbol) : Bool :=
  Symbol.all.all fun s => !test s ||
    let off := s.contextKey &&& (opening v).contexts == 0
    off == (s.contextKey &&& (opening w).contexts == 0) &&
      (off || if hasRule s then
          (alternativesOf s).flatten.all fun piece => (Symbol.ofId? piece.term.symbol).any test
        else s.contextSet == 0 && s.contextClear == 0)

theorem even_of_isEven {test : Symbol → Bool} {v w : Symbol} (even : isEven test v w = true) :
    linked.Even (opening v) (opening w) (among test) := by
  have each (id : SymbolId) (found : SymbolEntry) (member : among test id)
      (known : linked.symbol? id = some found) : ∃ s, id = s.id ∧ found = entry s ∧
        (s.contextKey &&& (opening v).contexts = 0 ↔
          s.contextKey &&& (opening w).contexts = 0) ∧
        (s.contextKey &&& (opening v).contexts ≠ 0 →
          if hasRule s then
            ∀ pieces ∈ alternativesOf s, ∀ piece ∈ pieces, among test piece.term.symbol
          else s.contextSet = 0 ∧ s.contextClear = 0) := by
    obtain ⟨s, rfl, passed⟩ := exists_of_among member
    have own := List.all_eq_true.mp even s (List.mem_of_getElem? (Symbol.ofId?_id s))
    simp only [passed, Bool.not_true, Bool.false_or, Bool.and_eq_true, beq_iff_eq,
      Bool.or_eq_true] at own
    refine ⟨s, rfl, Option.some.inj (known.symm.trans (symbol?_id s)), ?_, fun active => ?_⟩
    · rw [← beq_iff_eq (b := 0), own.1, beq_iff_eq]
    · have rest := own.2.resolve_left active
      split at rest
      next has => simpa [has, among] using rest
      next has => simpa [has] using rest
  constructor
  · intro id found member known
    obtain ⟨s, rfl, rfl, same, -⟩ := each id found member known
    exact same
  · intro id found member known active noRule
    obtain ⟨s, rfl, rfl, -, rest⟩ := each id found member known
    have terminal : hasRule s = false := by rw [← ruleIndex?_isSome, noRule]; rfl
    obtain ⟨noSet, noClear⟩ : s.contextSet = 0 ∧ s.contextClear = 0 := by
      simpa [terminal] using rest active
    have still (contexts : UInt32) : (entry s).definition.contextsAfter contexts = contexts := by
      show s.definition.contextsAfter contexts = contexts
      simp [SymbolDef.contextsAfter, Symbol.definition, noSet, noClear]
    exact ⟨still _, still _⟩
  · intro id found index symbol steps member known active starts opens
    obtain ⟨s, rfl, rfl, -, rest⟩ := each id found member known
    obtain ⟨rfl, same⟩ := alternatives_of_opens starts opens
    have has : hasRule s = true := by rw [← ruleIndex?_isSome, starts]; rfl
    have inner : ∀ pieces ∈ alternativesOf s, ∀ piece ∈ pieces,
        among test piece.term.symbol := by
      simpa [has] using rest active
    intro term named
    obtain ⟨piece, inside, rfl⟩ := List.mem_map.mp named
    obtain ⟨pieces, alternative, part⟩ := List.mem_flatten.mp inside
    exact inner pieces (same ▸ alternative) piece part

/-- The symbols that can be tried behind the version. -/
def isInner (s : Symbol) : Bool :=
  !(Symbol.program :: .programType :: Symbol.terminals .programType).contains s

/-- The opcodes of ps.1.2 that ps.1.1 does not have. -/
def newOpcodes : List Symbol := [.texdp3, .texdp3tex, .cmp, .dp4]

/-- The rules in which a new opcode can come first. -/
def newlyOpened : List Symbol :=
  [.texCiscOp, .binaryOp, .ternaryOp, .texCiscStmt, .binaryStmt, .ternaryStmt, .texStatement,
   .aluOp]

/-- The symbols from which no new opcode can be reached. -/
def isOld (s : Symbol) : Bool :=
  isInner s &&
    !(newOpcodes ++ newlyOpened ++ [Symbol.aluStatement, .texBlock, .aluBlock]).contains s

/-- Between ps.1.2 and ps.1.3 there is no difference. -/
theorem even_inner : linked.Even (opening .ps12) (opening .ps13) (among isInner) :=
  even_of_isEven (by decide +kernel)

theorem even_old : linked.Even (opening .ps11) (opening .ps12) (among isOld) :=
  even_of_isEven (by decide +kernel)

/-! ### Texts that start with a new opcode -/

/-- The text starts with an opcode that ps.1.1 does not have. -/
def StartsNew (text : List UInt8) : Prop :=
  ∃ opcode ∈ newOpcodes, ∃ spelling ∈ opcode.spellings, utf8 spelling <+: text

/-- In ps.1.1 no role finds a new opcode at the start of a statement, except that some start like
a texture opcode. What is left then does not start like a register. -/
private theorem new_unread : ∀ opcode ∈ newOpcodes, ∀ spelling ∈ opcode.spellings,
    (∀ s ∈ [Symbol.texCiscOp, .texSpecOp, .coIssueMark, .unaryOp, .binaryOp, .ternaryOp],
      firstMatch (candidates s) (opening .ps11).contexts (utf8 spelling) = none ∧
        extensions (candidates s) (opening .ps11).contexts (utf8 spelling) = []) ∧
    extensions (candidates .texOpPs11) (opening .ps11).contexts (utf8 spelling) = [] ∧
    ∀ c ∈ firstMatch (candidates .texOpPs11) (opening .ps11).contexts (utf8 spelling),
      let rest := (utf8 spelling).drop (utf8 c.2).length
      utf8 spelling = utf8 c.2 ++ rest ∧ rest.head?.any startsSymbol = true ∧
        c.1.definition.contextsAfter (opening .ps11).contexts = (opening .ps11).contexts ∧
        firstMatch (candidates .texRegPs11) (opening .ps11).contexts rest = none ∧
        extensions (candidates .texRegPs11) (opening .ps11).contexts rest = [] := by
  decide +kernel

theorem ps11_known : (opening .ps11).contexts ∈ dialects := by decide

theorem ps12_known : (opening .ps12).contexts ∈ dialects := by decide

theorem not_startsNew_nil : ¬ StartsNew [] := by
  rintro ⟨opcode, new, spelling, spelled, stands⟩
  have letters : ∀ opcode ∈ newOpcodes, ∀ spelling ∈ opcode.spellings,
      spelling.isEmpty = false := by decide
  exact utf8_ne_nil (letters opcode new spelling spelled) (List.prefix_nil.mp stands)

section

variable {owner : SymbolId} {text : List UInt8}

/-- The opcodes of the other statements are not found at a new one. -/
private theorem refuses_opcode (new : StartsNew text) {s : Symbol}
    (opcode : s ∈ [Symbol.texCiscOp, .texSpecOp, .coIssueMark, .unaryOp, .binaryOp, .ternaryOp]) :
    Refuses (.term owner (bare s)) (opening .ps11).contexts text := by
  have roles : ∀ s ∈ [Symbol.texCiscOp, .texSpecOp, .coIssueMark, .unaryOp, .binaryOp, .ternaryOp],
      s ∈ literalRoles := by decide
  obtain ⟨added, member, spelling, spelled, more, rfl⟩ := new
  obtain ⟨none, single⟩ := (new_unread added member spelling spelled).1 s opcode
  apply refuses_of_firstMatch (roles s opcode) ps11_known
  rw [firstMatch_append (by simp [single]), none]

/-- A texture opcode at the start of a new one is not followed by a register. -/
private theorem refuses_texStmtPs11 (new : StartsNew text) :
    Refuses (.term owner (bare .texStmtPs11)) (opening .ps11).contexts text := by
  obtain ⟨added, member, spelling, spelled, more, rfl⟩ := new
  obtain ⟨-, single, behind⟩ := new_unread added member spelling spelled
  have found : firstMatch (candidates .texOpPs11) (opening .ps11).contexts (utf8 spelling ++ more) =
      firstMatch (candidates .texOpPs11) (opening .ps11).contexts (utf8 spelling) :=
    firstMatch_append (by simp [single])
  cases first : firstMatch (candidates .texOpPs11) (opening .ps11).contexts (utf8 spelling) with
  | none =>
    apply Refuses.opening (by decide) rfl
    apply refuses_of_firstMatch (by decide) ps11_known
    rw [found, first]
  | some c =>
    -- the opcode is taken, and what is left of the new one stands in its register's place
    obtain ⟨split, starts, still, none, alone⟩ := behind c first
    generalize (utf8 spelling).drop (utf8 c.2).length = rest at split starts none alone
    have register : Refuses (.term Symbol.texStmtPs11.id (bare .texRegPs11))
        (opening .ps11).contexts (rest ++ more) := by
      apply refuses_of_firstMatch (by decide) ps11_known
      rw [firstMatch_append (by simp [alone]), none]
    apply Refuses.composite (by decide)
    -- a sequence that stops behind its first part; the choice puts the reader back
    intro p here
    have opcode : Evaluates linked (.term Symbol.texStmtPs11.id (bare .texOpPs11)) p true
        (p.taking c.1 .texOpPs11 c.2) :=
      evaluates_role (by decide) (List.mem_cons_of_mem _ ps11_known) here (found.trans first)
    rw [split, List.append_assoc] at here
    obtain ⟨there, -⟩ := here.taking (.here _) (settled_of_head? starts more) c.1 .texOpPs11
    rw [still] at there
    exact .passedOver (.andThen (.one opcode) (.stopped (.one (register _ there)))) .exhausted

theorem refuses_new_texStatement (new : StartsNew text) :
    Refuses (.term owner (bare .texStatement)) (opening .ps11).contexts text := by
  apply Refuses.composite (by decide)
  apply Refuses.passedOver (.stopped (.inactive (by decide)))
  apply Refuses.passedOver
    (.stopped (.opening (by decide) rfl (refuses_opcode new (by decide))))
  apply Refuses.passedOver
    (.stopped (.opening (by decide) rfl (refuses_opcode new (by decide))))
  exact .passedOver (.stopped (refuses_texStmtPs11 new)) .exhausted

theorem refuses_new_aluOp (new : StartsNew text) :
    Refuses (.term owner (bare .aluOp)) (opening .ps11).contexts text := by
  apply Refuses.composite (by decide)
  apply Refuses.passedOver
    (.stopped (.opening (by decide) rfl (refuses_opcode new (by decide))))
  apply Refuses.passedOver
    (.stopped (.opening (by decide) rfl (refuses_opcode new (by decide))))
  exact .passedOver
    (.stopped (.opening (by decide) rfl (refuses_opcode new (by decide))))
    .exhausted

theorem refuses_new_aluStatement (new : StartsNew text) :
    Refuses (.term owner (bare .aluStatement)) (opening .ps11).contexts text := by
  apply Refuses.composite (by decide)
  refine .passedOver (fun p here => ?_) .exhausted
  have mark : Refuses (.term Symbol.aluStatement.id (bare .coIssueMark)) (opening .ps11).contexts
      text := refuses_opcode new (by decide)
  exact .andThen (.optional (mark p here)) (.stopped (.one (refuses_new_aluOp new p here)))

end

/-! ### Statements in both dialects -/

/-- The text that is left behind the trivia in front of the reader. -/
def textAt (p : Progress) : List UInt8 := p.reader.skipTrivia.2.rest

theorem at_textAt (p : Progress) : p.At p.contexts (textAt p) := by
  obtain ⟨skips, settled, -⟩ := p.reader.skipTrivia_skips
  exact ⟨rfl, skips, settled⟩

/-- Two readings of one text, the one of ps.1.1 and the other of ps.1.2. -/
abbrev OldNew : Progress → Progress → Prop := Twins (opening .ps11) (opening .ps12)

theorem textAt_eq {p p' : Progress} (twins : OldNew p p') : textAt p' = textAt p := by
  rw [textAt, twins.reader, textAt]

/-- What an alternative begins with is an old symbol, a new opcode or one of the given rules, and
only old symbols follow. -/
def isCovered (rules : List Symbol) : List Piece → Bool
  | .one term :: rest =>
    ((Symbol.ofId? term.symbol).any isOld || rules.any (term == bare ·) ||
      newOpcodes.any fun s => s.spellings.any fun text =>
        resolve? term == some (s, text) && decide (IsLiteral (s, text))) &&
      rest.all fun piece => (Symbol.ofId? piece.term.symbol).any isOld
  | _ => false

/-- Each rule of the list is covered by those in front of it. -/
def areCovered : List Symbol → List Symbol → Bool
  | _, [] => true
  | earlier, s :: rest =>
    hasRule s && (s.contextKey &&& (opening .ps11).contexts != 0) &&
      (s.contextKey &&& (opening .ps12).contexts != 0) &&
      (alternativesOf s).all (isCovered earlier) && areCovered (s :: earlier) rest

section

variable {p : Progress}

/-- A new opcode is found in neither dialect where it does not stand. -/
theorem echoes_absent (old : ¬ StartsNew (textAt p)) {s : Symbol} (new : s ∈ newOpcodes)
    {text : String} (spelled : text ∈ s.spellings) {term : Term}
    (resolved : resolve? term = some (s, text)) (literal : IsLiteral (s, text)) (rule : Symbol) :
    linked.Echoes (opening .ps11) (opening .ps12) (.term rule.id term) p := by
  have absent : ¬ utf8 text <+: textAt p := fun stands => old ⟨s, new, text, spelled, stands⟩
  intro verdict q evaluates p' twins
  -- the readers look at one text, so both refuse, whether the opcode is switched on or not
  obtain ⟨_, refused⟩ := evaluates_refused rule resolved literal (at_textAt p) (.inr absent)
  obtain ⟨rfl, -⟩ := evaluates.unique linked_wellFormed refused
  rw [← textAt_eq twins] at absent
  obtain ⟨q', refused'⟩ := evaluates_refused rule resolved literal (at_textAt p') (.inr absent)
  exact ⟨q', refused', nofun⟩

theorem echoes_covered (old : ¬ StartsNew (textAt p)) {rules : List Symbol}
    (known : ∀ r ∈ rules, ∀ owner,
      linked.Echoes (opening .ps11) (opening .ps12) (.term owner (bare r)) p)
    {pieces : List Piece} (covered : isCovered rules pieces = true) (s : Symbol) :
    linked.Echoes (opening .ps11) (opening .ps12) (.sequence s.id pieces) p := by
  unfold isCovered at covered
  split at covered
  next term rest =>
    simp only [Bool.and_eq_true, Bool.or_eq_true, List.any_eq_true, List.all_eq_true, beq_iff_eq,
      decide_eq_true_eq] at covered
    obtain ⟨opens, others⟩ := covered
    refine Echoes.opening even_old ?_ ?_
    · rcases opens with (inside | ⟨r, member, rfl⟩) | ⟨opcode, new, text, spelled, resolved, lit⟩
      · exact even_old.echoes (within_term.mpr inside) p
      · exact known r member s.id
      · exact echoes_absent old new spelled resolved lit s
    · intro term named
      obtain ⟨piece, part, rfl⟩ := List.mem_map.mp named
      exact others piece part
  · cases covered

theorem echoes_areCovered (old : ¬ StartsNew (textAt p)) {earlier rules : List Symbol}
    (covered : areCovered earlier rules = true)
    (known : ∀ r ∈ earlier, ∀ owner,
      linked.Echoes (opening .ps11) (opening .ps12) (.term owner (bare r)) p) :
    ∀ s ∈ rules, ∀ owner,
      linked.Echoes (opening .ps11) (opening .ps12) (.term owner (bare s)) p := by
  -- on the rules in the order of the list, with those already settled in `earlier`
  induction rules generalizing earlier with
  | nil => simp
  | cons s rest ih =>
    simp only [areCovered, Bool.and_eq_true, bne_iff_ne, List.all_eq_true] at covered
    obtain ⟨⟨⟨⟨has, first⟩, second⟩, each⟩, others⟩ := covered
    have own (owner : SymbolId) :
        linked.Echoes (opening .ps11) (opening .ps12) (.term owner (bare s)) p := by
      intro verdict q evaluates p' twins
      rw [← twins.left] at first
      rw [← twins.right] at second
      have chosen := Echoes.first (fun pieces member => echoes_covered old known
        (each pieces member) s) _ _ (first_of_bare has first evaluates) p' twins
      obtain ⟨q', chosen', after⟩ := chosen
      exact ⟨q', evaluates_bare has second chosen', after⟩
    have further := ih others fun r member owner => by
      rcases List.mem_cons.mp member with rfl | before
      · exact own owner
      · exact known r before owner
    intro r member owner
    rcases List.mem_cons.mp member with rfl | behind
    · exact own owner
    · exact further r behind owner

/-- Where no new opcode stands, the rules in which one can come first do the same. -/
theorem echoes_newlyOpened (old : ¬ StartsNew (textAt p)) : ∀ s ∈ newlyOpened, ∀ owner,
    linked.Echoes (opening .ps11) (opening .ps12) (.term owner (bare s)) p := by
  have covered : areCovered [] newlyOpened = true := by decide +kernel
  exact echoes_areCovered old covered (by simp)

end

section

variable {owner : SymbolId} {p q p' : Progress}

/-- A statement that is read in ps.1.1 does not start with a new opcode. -/
theorem not_startsNew {s : Symbol}
    (refuses : StartsNew (textAt p) →
      Refuses (.term owner (bare s)) (opening .ps11).contexts (textAt p))
    (contexts : p.contexts = (opening .ps11).contexts)
    (evaluates : Evaluates linked (.term owner (bare s)) p true q) : ¬ StartsNew (textAt p) := by
  intro new
  have fails := refuses new p (contexts ▸ at_textAt p)
  cases (evaluates.unique linked_wellFormed fails).1

theorem twins_texStatement
    (evaluates : Evaluates linked (.term owner (bare .texStatement)) p true q)
    (twins : OldNew p p') :
    ∃ q', Evaluates linked (.term owner (bare .texStatement)) p' true q' ∧ OldNew q q' := by
  have old := not_startsNew refuses_new_texStatement twins.left evaluates
  obtain ⟨q', evaluates', after⟩ :=
    echoes_newlyOpened old .texStatement (by decide) owner _ _ evaluates p' twins
  exact ⟨q', evaluates', after rfl⟩

private theorem alternativesOf_aluStatement :
    alternativesOf .aluStatement = [[.optional (bare .coIssueMark), .one (bare .aluOp)]] := by
  rw [alternativesOf_composite (by decide)]
  rfl

theorem twins_aluStatement
    (evaluates : Evaluates linked (.term owner (bare .aluStatement)) p true q)
    (twins : OldNew p p') :
    ∃ q', Evaluates linked (.term owner (bare .aluStatement)) p' true q' ∧ OldNew q q' := by
  have active : Symbol.aluStatement.contextKey &&& p.contexts ≠ 0 := by rw [twins.left]; decide
  have active' : Symbol.aluStatement.contextKey &&& p'.contexts ≠ 0 := by rw [twins.right]; decide
  have chosen := first_of_bare rfl active evaluates
  rw [alternativesOf_aluStatement] at chosen
  obtain ⟨_, _, mark, rest⟩ := chosen.of_only.split_option
  obtain ⟨_, operation, rest⟩ := rest.split_one
  cases rest
  obtain ⟨r', mark', between⟩ := mark.twin even_old (within_term.mpr rfl) twins
  have old := not_startsNew refuses_new_aluOp between.left operation
  obtain ⟨q', operation', after⟩ :=
    echoes_newlyOpened old .aluOp (by decide) _ _ _ operation r' between
  refine ⟨q', evaluates_bare rfl active' ?_, after rfl⟩
  rw [alternativesOf_aluStatement]
  exact .chosen (.andThen (.optional mark') (.andThen (.one operation') .finished))

/-! ### Blocks -/

/-- A block of statements is the same in both dialects, if the statement at which it ends in the
first ends it in the second too. -/
theorem twins_block {block statement : Symbol}
    (shape : alternativesOf block = [[.several (bare statement)]])
    (rules : hasRule block = true ∧ hasRule statement = true)
    (based : block.contextKey = Context.base)
    (holds : ∀ p q p', Evaluates linked (.term block.id (bare statement)) p true q → OldNew p p' →
      ∃ q', Evaluates linked (.term block.id (bare statement)) p' true q' ∧ OldNew q q')
    {verdict : Bool} (evaluates : Evaluates linked (.term owner (bare block)) p verdict q)
    (last : Evaluates linked (.term block.id (bare statement)) q false q →
      ∀ q', OldNew q q' → Evaluates linked (.term block.id (bare statement)) q' false q')
    (twins : OldNew p p') :
    ∃ q', Evaluates linked (.term owner (bare block)) p' verdict q' ∧ OldNew q q' := by
  have active : block.contextKey &&& p.contexts ≠ 0 := by rw [based, twins.left]; decide
  have active' : block.contextKey &&& p'.contexts ≠ 0 := by rw [based, twins.right]; decide
  have chosen := first_of_bare rules.1 active evaluates
  rw [shape] at chosen
  cases chosen with
  | chosen sequence =>
    cases sequence with
    | andThen statements rest =>
      cases rest
      cases statements with
      | several rounds =>
        obtain ⟨q', rounds', after⟩ :=
          rounds.twin_rounds holds (fun _ _ => eq_of_bare rules.2) last twins
        refine ⟨q', evaluates_bare rules.1 active' ?_, after⟩
        rw [shape]
        exact .chosen (.andThen (.several rounds') .finished)
  | passedOver fails other =>
    -- a block fails only at its first statement, where the program then goes on
    cases other
    cases fails with
    | andThen _ rest => cases rest
    | stopped fails =>
      cases fails with
      | several rounds =>
        cases rounds with
        | round _ _ again => cases again.eq_true_of_rounds
        | lastRound fails =>
          obtain rfl := eq_of_bare rules.2 fails
          refine ⟨p', evaluates_bare rules.1 active' ?_, twins⟩
          rw [shape]
          exact .passedOver (.stopped (.several (.lastRound (last fails p' twins)))) .exhausted

/-! ### Programs behind their version -/

/-- What may follow the version. -/
def afterVersion : List Piece :=
  [.optional (bare .constants), .optional (bare .texBlock), .optional (bare .aluBlock),
   .optional (bare .phaseTwo)]

private theorem shape_texBlock : alternativesOf .texBlock = [[.several (bare .texStatement)]] := by
  rw [alternativesOf_composite (by decide)]
  rfl

private theorem shape_aluBlock : alternativesOf .aluBlock = [[.several (bare .aluStatement)]] := by
  rw [alternativesOf_composite (by decide)]
  rfl

/-- In ps.1.1 no arithmetic follows where a new opcode stands. -/
theorem eq_of_aluBlock (contexts : p.contexts = (opening .ps11).contexts)
    (new : StartsNew (textAt p)) {verdict : Bool}
    (evaluates : Evaluates linked (.term owner (bare .aluBlock)) p verdict q) : q = p := by
  have active : Symbol.aluBlock.contextKey &&& p.contexts ≠ 0 := by rw [contexts]; decide
  have fails : Evaluates linked (.term Symbol.aluBlock.id (bare .aluStatement)) p false p :=
    refuses_new_aluStatement new p (contexts ▸ at_textAt p)
  have none : Evaluates linked (.first Symbol.aluBlock.id (alternativesOf .aluBlock)) p false
      p := by
    rw [shape_aluBlock]
    exact .passedOver (.stopped (.several (.lastRound fails))) .exhausted
  exact (evaluates.unique linked_wellFormed (evaluates_bare rfl active none)).2

/-- The phases of ps.1.4 are unknown before it. -/
theorem eq_of_phaseTwo (contexts : p.contexts = (opening .ps11).contexts) {verdict : Bool}
    (evaluates : Evaluates linked (.term owner (bare .phaseTwo)) p verdict q) : q = p := by
  have off : Symbol.phaseTwo.contextKey &&& p.contexts = 0 := by rw [contexts]; decide
  exact (evaluates.unique linked_wellFormed (.inactive (symbol?_id .phaseTwo) off)).2

/-- A program that is read in ps.1.1 up to its end is read in ps.1.2 alike. -/
theorem twins_afterVersion {verdict : Bool}
    (evaluates : Evaluates linked (.sequence owner afterVersion) p verdict q)
    (whole : textAt q = []) (twins : OldNew p p') :
    ∃ q', Evaluates linked (.sequence owner afterVersion) p' verdict q' ∧ OldNew q q' := by
  obtain ⟨_, defined, constants, evaluates⟩ := evaluates.split_option
  obtain ⟨_, textured, textures, evaluates⟩ := evaluates.split_option
  obtain ⟨_, computed, arithmetic, evaluates⟩ := evaluates.split_option
  obtain ⟨_, _, phase, evaluates⟩ := evaluates.split_option
  cases evaluates
  -- definitions know no new opcode
  obtain ⟨_, constants', twins⟩ :=
    constants.twin even_old (within_term.mpr rfl) twins
  -- textures end in front of arithmetic or at the end of the text
  obtain ⟨_, textures', twins⟩ :=
    twins_block shape_texBlock (by decide) rfl (fun _ _ _ => twins_texStatement) textures
      (fun fails r' after => by
        have old : ¬ StartsNew (textAt textured) := by
          intro new
          -- then nothing that follows moves on, and the text would have to be at its end
          obtain rfl := eq_of_aluBlock after.left new arithmetic
          obtain rfl := eq_of_phaseTwo after.left phase
          exact not_startsNew_nil (whole ▸ new)
        obtain ⟨q', fails', -⟩ :=
          echoes_newlyOpened old .texStatement (by decide) _ _ _ fails r' after
        obtain rfl := eq_of_bare rfl fails'
        exact fails')
      twins
  -- arithmetic ends at the end of the text
  obtain ⟨_, arithmetic', twins⟩ :=
    twins_block shape_aluBlock (by decide) rfl (fun _ _ _ => twins_aluStatement) arithmetic
      (fun _ r' after => by
        obtain rfl := eq_of_phaseTwo after.left phase
        have here := at_textAt r'
        rw [textAt_eq after, whole, after.right] at here
        exact refuses_aluStatement ps12_known (.inl rfl) r' here)
      twins
  obtain ⟨q', phase', twins⟩ :=
    phase.twin even_old (within_term.mpr rfl) twins
  exact ⟨q', .andThen (.optional constants') (.andThen (.optional textures')
    (.andThen (.optional arithmetic') (.andThen (.optional phase') .finished))), twins⟩

end

/-! ### Programs with their version -/

theorem utf8_append (text more : String) : utf8 (text ++ more) = utf8 text ++ utf8 more := by
  simp [utf8]

/-- The versions before ps.1.4, with their spellings. -/
def legacyVersions : List (Symbol × String) :=
  [(.ps11, "ps.1.1"), (.ps12, "ps.1.2"), (.ps13, "ps.1.3")]

/-- The state behind the version of a program. -/
def opened (v : Symbol) (text b : String) : Progress :=
  (linked.start (utf8 (text ++ b))).taking v .programType text

private theorem legacyVersions_found : ∀ version ∈ legacyVersions,
    firstMatch (candidates .programType) Context.base (utf8 version.2) = some version ∧
      extensions (candidates .programType) Context.base (utf8 version.2) = [] ∧
      (utf8 version.2).head?.any startsSymbol = true ∧ version.2 ∈ versionTexts ∧
      (utf8 version.2).length = 6 ∧ version.2.utf8ByteSize = 6 ∧
      version.1.definition.contextsAfter Context.base = (opening version.1).contexts := by
  decide +kernel

variable {v w : Symbol} {text text' : String}

theorem evaluates_version (legacy : (v, text) ∈ legacyVersions) (b : String) {owner : SymbolId} :
    Evaluates linked (.term owner (bare .programType)) (linked.start (utf8 (text ++ b))) true
      (opened v text b) := by
  obtain ⟨found, single, starts, -⟩ := legacyVersions_found (v, text) legacy
  have here : (linked.start (utf8 (text ++ b))).At Context.base
      (utf8 text ++ utf8 b) := by
    refine ⟨rfl, ?_, settled_of_head? starts _⟩
    rw [← utf8_append]
    exact .here _
  apply evaluates_role (by decide) (by simp) here
  rw [firstMatch_append (by simp [single]), found]

/-- Behind its version, a program is at the text that follows, with one token. -/
theorem opened_eq (legacy : (v, text) ∈ legacyVersions) (b : String) :
    ∃ same, opened v text b =
      { reader :=
          { rest := utf8 b, offset := 6, line := 1, size := 6 + (utf8 b).length
            length_rest := same }
        tokens := Trail.empty.push (opening v).token
        contexts := (opening v).contexts } := by
  obtain ⟨-, -, starts, -, length, size, opens⟩ := legacyVersions_found (v, text) legacy
  have skipped : (Reader.start (utf8 text ++ utf8 b)).skipTrivia.2 =
      Reader.start (utf8 text ++ utf8 b) := by
    rw [Reader.skipTrivia_of_settled (settled_of_head? starts _)]
  have start : (linked.start (utf8 (text ++ b))).reader =
      Reader.start (utf8 text ++ utf8 b) := by
    rw [utf8_append]
    rfl
  have same : (utf8 b).length = 6 + (utf8 b).length - 6 := by omega
  have moved : (Reader.start (utf8 text ++ utf8 b)).advance 6 =
      { rest := utf8 b, offset := 6, line := 1, size := 6 + (utf8 b).length
        length_rest := same } := by
    apply Reader.eq_of_fields
    · simp [Reader.advance, Reader.start, Reader.seek, length]
    · simp [Reader.advance, Reader.start, Reader.seek, length]
    · rfl
    · simp [Reader.advance, Reader.start, Reader.seek, length]
  refine ⟨same, ?_⟩
  unfold opened Progress.taking
  rw [start, skipped, size, Progress.accept, Progress.mk.injEq]
  exact ⟨moved, rfl, rfl, opens⟩

/-- Behind the version, nothing but the version tells programs with the same text apart. -/
theorem twins_opened (legacy : (v, text) ∈ legacyVersions) (also : (w, text') ∈ legacyVersions)
    (b : String) :
    Twins (opening v) (opening w) (opened v text b) (opened w text' b) := by
  obtain ⟨_, same⟩ := opened_eq legacy b
  obtain ⟨_, same'⟩ := opened_eq also b
  rw [same, same']
  exact ⟨rfl, rfl, rfl, rfl, [], by simp, by simp⟩

private theorem shape_program :
    alternativesOf .program = [.one (bare .programType) :: afterVersion] := by
  rw [alternativesOf_composite (by decide)]
  rfl

/-- A source with a version is read behind it. -/
theorem matchSource_version (legacy : (v, text) ∈ legacyVersions) (b : String) :
    ∃ q, Evaluates linked (.sequence Symbol.program.id afterVersion) (opened v text b) true q ∧
      linked.matchSource (utf8 (text ++ b)) = some (true, q) := by
  obtain ⟨matched, q, found⟩ := matchSource_total (utf8 (text ++ b))
  obtain ⟨-, -, -, known, -⟩ := legacyVersions_found (v, text) legacy
  have starts : StartsWithVersion (utf8 (text ++ b)) := by
    refine ⟨_, .here _, text, known, ?_⟩
    rw [utf8_append]
    exact List.prefix_append _ _
  obtain rfl := (matchSource_verdict found).mpr starts
  refine ⟨q, ?_, found⟩
  cases evaluates_of_matchSource grammar_eq_linked found with
  | rule opens chosen =>
    obtain ⟨rfl, same⟩ := alternatives_of_opens ruleIndex?_program opens
    rw [same, shape_program] at chosen
    obtain ⟨_, first, rest⟩ := chosen.of_only.split_one
    obtain ⟨-, rfl⟩ := first.unique linked_wellFormed (evaluates_version legacy b)
    exact rest

/-- The readings of a text as ps.1.2 and as ps.1.3 end alike. -/
theorem twins_later (b : String) :
    ∃ q q', linked.matchSource (utf8 ("ps.1.2" ++ b)) = some (true, q) ∧
      linked.matchSource (utf8 ("ps.1.3" ++ b)) = some (true, q') ∧
      Twins (opening .ps12) (opening .ps13) q q' := by
  have second : (Symbol.ps12, "ps.1.2") ∈ legacyVersions := by decide
  have third : (Symbol.ps13, "ps.1.3") ∈ legacyVersions := by decide
  obtain ⟨q, evaluates, found⟩ := matchSource_version second b
  obtain ⟨q', evaluates', found'⟩ := matchSource_version third b
  have own : Goal.Within linked (among isInner)
      (.sequence Symbol.program.id afterVersion) := by
    intro term named
    simp only [Goal.terms, afterVersion, List.map_cons, List.map_nil, Piece.term, List.mem_cons,
      List.not_mem_nil, or_false] at named
    rcases named with rfl | rfl | rfl | rfl <;> rfl
  obtain ⟨r, other, twins⟩ := evaluates.twin even_inner own (twins_opened second third b)
  obtain ⟨-, rfl⟩ := evaluates'.unique linked_wellFormed other
  exact ⟨q, q', found, found', twins⟩

/-- The reading of a text as ps.1.2 ends like the one as ps.1.1, if this reads the whole text. -/
theorem twins_earlier (b : String) :
    ∃ q q', linked.matchSource (utf8 ("ps.1.1" ++ b)) = some (true, q) ∧
      linked.matchSource (utf8 ("ps.1.2" ++ b)) = some (true, q') ∧
      (textAt q = [] → Twins (opening .ps11) (opening .ps12) q q') := by
  have first : (Symbol.ps11, "ps.1.1") ∈ legacyVersions := by decide
  have second : (Symbol.ps12, "ps.1.2") ∈ legacyVersions := by decide
  obtain ⟨q, evaluates, found⟩ := matchSource_version first b
  obtain ⟨q', evaluates', found'⟩ := matchSource_version second b
  refine ⟨q, q', found, found', fun whole => ?_⟩
  obtain ⟨r, other, twins⟩ := twins_afterVersion evaluates whole (twins_opened first second b)
  obtain ⟨-, rfl⟩ := evaluates'.unique linked_wellFormed other
  exact twins

/-! ### Assembling -/

theorem scanWith_version (expand : Assembly.Expander) (codeOf : SymbolId → UInt32)
    (version : Symbol) (tokens : List Token) :
    Assembly.scanWith expand codeOf ((opening version).token :: tokens) =
      Assembly.scanWith expand codeOf tokens := by
  have ignored : Assembly.process expand codeOf (opening version).token = pure () := by
    simp [Assembly.process, opening, Symbol.ofId?_id, Symbol.role?]
  simp [Assembly.scanWith, Assembly.processAll, ignored]

/-- The version itself is not assembled. -/
theorem assemble_twins (legacy : (v, text) ∈ legacyVersions) (also : (w, text') ∈ legacyVersions)
    {q q' : Progress} (twins : Twins (opening v) (opening w) q q') :
    Assembler.assemble linked q'.reading = Assembler.assemble linked q.reading := by
  funext before
  have isLegacy : ∀ version ∈ legacyVersions,
      ((opening version.1).contexts &&& Context.ps11 != 0) = true := by decide
  obtain ⟨ts, tokens, tokens'⟩ := twins.tokens
  have start : Assembler.start q'.reading = Assembler.start q.reading := by
    simp only [Assembler.start, Assembler.prepare, Progress.reading, twins.left, twins.right, twins.constants,
      isLegacy _ legacy, isLegacy _ also]
  rw [Assembler.assemble_apply, Assembler.assemble_apply, start]
  simp only [Progress.reading, tokens, tokens', Assembler.templateDepth, Assembly.scan,
    scanWith_version]

end Dialect

/-! ### Compiling -/

/-- The second of two compilations comes to the result of the first, with the same constants and
queues, and with the same tokens behind the first one. -/
structure Alike (x y : Except CompileError Unit × Compiler) : Prop where
  result : y.1 = x.1
  constants : y.2.reading.constants = x.2.reading.constants
  queues : y.2.schedule = x.2.schedule
  tokens : y.2.reading.tokens.tail = x.2.reading.tokens.tail
  count : y.2.reading.tokens.length = x.2.reading.tokens.length

theorem Alike.trans {x y z : Except CompileError Unit × Compiler} (first : Alike x y)
    (second : Alike y z) : Alike x z :=
  ⟨second.result.trans first.result, second.constants.trans first.constants,
    second.queues.trans first.queues, second.tokens.trans first.tokens,
    second.count.trans first.count⟩

namespace Dialect

variable {c : Compiler} {v w : Symbol} {text text' b : String}

theorem length_version (legacy : (v, text) ∈ legacyVersions) (b : String) :
    (utf8 (text ++ b)).length = 6 + (utf8 b).length := by
  obtain ⟨-, -, -, -, length, -⟩ := legacyVersions_found (v, text) legacy
  rw [utf8_append, List.length_append, length]

/-- Sources that end in twin states compile alike. -/
theorem alike_of_twins (grammar : c.grammar = Dialect.grammar) (legacy : (v, text) ∈ legacyVersions)
    (also : (w, text') ∈ legacyVersions) (small : 6 + (utf8 b).length ≤ sourceLimit)
    {q q' : Progress}
    (found : linked.matchSource (utf8 (text ++ b)) = some (true, q))
    (found' : linked.matchSource (utf8 (text' ++ b)) = some (true, q'))
    (twins : Twins (opening v) (opening w) q q') :
    Alike (c.compile (text ++ b)) (c.compile (text' ++ b)) := by
  rw [grammar_eq_linked] at grammar
  have read := read_of_ends (by rw [length_version legacy]; exact small) found c.reading
  have read' := read_of_ends (by rw [length_version also]; exact small) found' c.reading
  have same : verdict true q' = verdict true q := by simp only [verdict, twins.reader]
  have assembled := assemble_twins legacy also twins
  obtain ⟨ts, tokens, tokens'⟩ := twins.tokens
  have constants : q'.reading.constants = q.reading.constants := by
    simp only [Progress.reading, twins.constants]
  have tail : q'.reading.tokens.tail = q.reading.tokens.tail := by
    simp only [Progress.reading, tokens, tokens', List.tail_cons]
  have count : q'.reading.tokens.length = q.reading.tokens.length := by
    simp only [Progress.reading, tokens, tokens', List.length_cons]
  -- the compilations branch on equal values, and what they store is equal on each branch
  rw [Compiler.compile_apply grammar, Compiler.compile_apply grammar, read, read', same]
  cases verdict true q with
  | error fault => exact ⟨rfl, constants, rfl, tail, count⟩
  | ok value =>
    simp only [assembled]
    cases Assembler.assemble linked q.reading {} with
    | ok value a => exact ⟨rfl, constants, rfl, tail, count⟩
    | error fault a => exact ⟨rfl, constants, rfl, tail, count⟩

/-- A source that is too large is refused in any dialect. -/
theorem alike_of_large (grammar : c.grammar = Dialect.grammar) (legacy : (v, text) ∈ legacyVersions)
    (also : (w, text') ∈ legacyVersions) (large : sourceLimit < 6 + (utf8 b).length) :
    Alike (c.compile (text ++ b)) (c.compile (text' ++ b)) := by
  rw [grammar_eq_linked] at grammar
  rw [Compiler.compile_of_large grammar (by rw [length_version legacy]; exact large),
    Compiler.compile_of_large grammar (by rw [length_version also]; exact large),
    length_version legacy, length_version also]
  exact ⟨rfl, rfl, rfl, rfl, rfl⟩

/-- A source that compiles is read up to its end. -/
theorem textAt_of_accepted (grammar : c.grammar = Dialect.grammar) {source : String}
    (small : (utf8 source).length ≤ sourceLimit) {q : Progress}
    (found : linked.matchSource (utf8 source) = some (true, q))
    (accepted : (c.compile source).1 = .ok ()) : textAt q = [] := by
  rw [grammar_eq_linked] at grammar
  -- input that is left over is an error, before anything is assembled
  by_contra left
  have more : q.reader.skipTrivia.1 = true := q.reader.skipTrivia_skips.2.2.mpr left
  have refused : ∃ fault, verdict true q = .error fault := by
    unfold verdict
    generalize q.reader.skipTrivia = skipped at more
    obtain ⟨_, next⟩ := skipped
    subst more
    exact ⟨_, rfl⟩
  obtain ⟨fault, refused⟩ := refused
  rw [Compiler.compile_apply grammar, read_of_ends small found, refused] at accepted
  cases accepted

theorem compile_later_alike (grammar : c.grammar = Dialect.grammar) (b : String) :
    Alike (c.compile ("ps.1.2" ++ b)) (c.compile ("ps.1.3" ++ b)) := by
  have second : (Symbol.ps12, "ps.1.2") ∈ legacyVersions := by decide
  have third : (Symbol.ps13, "ps.1.3") ∈ legacyVersions := by decide
  rcases Nat.lt_or_ge sourceLimit (6 + (utf8 b).length) with large | small
  · exact alike_of_large grammar second third large
  · obtain ⟨q, q', found, found', twins⟩ := twins_later b
    exact alike_of_twins grammar second third small found found' twins

theorem compile_earlier_alike (grammar : c.grammar = Dialect.grammar) {b : String}
    (accepted : (c.compile ("ps.1.1" ++ b)).1 = .ok ()) :
    Alike (c.compile ("ps.1.1" ++ b)) (c.compile ("ps.1.2" ++ b)) := by
  have first : (Symbol.ps11, "ps.1.1") ∈ legacyVersions := by decide
  have second : (Symbol.ps12, "ps.1.2") ∈ legacyVersions := by decide
  rcases Nat.lt_or_ge sourceLimit (6 + (utf8 b).length) with large | small
  · exact alike_of_large grammar first second large
  · obtain ⟨q, q', found, found', twins⟩ := twins_earlier b
    apply alike_of_twins grammar first second small found found'
    apply twins
    exact textAt_of_accepted grammar (by rw [length_version first]; exact small) found accepted

/-- What compiles as ps.1.1 compiles as ps.1.2 and ps.1.3 to the same, and whether a text compiles
or not, it makes no difference to ps.1.2 and ps.1.3. -/
theorem compile_upward_compatible (c : Compiler) (grammar : c.grammar = Dialect.grammar)
    (b : String) :
    ((c.compile ("ps.1.1" ++ b)).1 = .ok () →
      Alike (c.compile ("ps.1.1" ++ b)) (c.compile ("ps.1.2" ++ b)) ∧
        Alike (c.compile ("ps.1.1" ++ b)) (c.compile ("ps.1.3" ++ b))) ∧
      Alike (c.compile ("ps.1.2" ++ b)) (c.compile ("ps.1.3" ++ b)) := by
  have later := compile_later_alike grammar b
  refine ⟨fun accepted => ?_, later⟩
  have earlier := compile_earlier_alike grammar accepted
  exact ⟨earlier, earlier.trans later⟩

/-- A program with a constant, textures and a pair of instructions. -/
theorem compile_upward_compatible_coIssued :
    let c : Compiler := { grammar := .ok linked }
    let b := "\ndef c0, 1, .5, -2, 0\ntex t0\ntexreg2ar t1, t0\nmul r0.rgb, t1, c0\n+mov r0.a, t0"
    (c.compile ("ps.1.1" ++ b)).1 = .ok () ∧
      Alike (c.compile ("ps.1.1" ++ b)) (c.compile ("ps.1.2" ++ b)) ∧
      Alike (c.compile ("ps.1.1" ++ b)) (c.compile ("ps.1.3" ++ b)) := by
  intro c b
  have accepted : (c.compile ("ps.1.1" ++ b)).1 = .ok () := by decide +kernel
  exact ⟨accepted, (compile_upward_compatible c grammar_eq_linked.symm b).1 accepted⟩

end Dialect
end PixelAsm
