import PixelAsm.Proofs.Boundaries
import PixelAsm.Proofs.Classification
import PixelAsm.Proofs.Compatibility
import PixelAsm.Proofs.Cutting

/-!
# Sources with input left over

If more than trivia is left behind a program, the compiler says where. In front of this place
stands a program that is read to its end, with the tokens, constants and contexts that were read
of the whole source.

Cutting off the rest could have changed what was read in front of it, since rules are tried and
given up again by what follows. The grammar of the shader dialects does not let this happen. The
literals with which different kinds of statements start are different, so a kind that is passed
over because another one follows is passed over at its first literal, in the shorter text too.
-/
namespace PixelAsm

open Syntax Grammar

namespace Dialect

/-! ### Where no literal stands -/

/-- No literal of these roles stands at the beginning of the text. -/
def Shut (rules : List Symbol) (text : List UInt8) : Prop :=
  ∀ s ∈ rules, ∀ c ∈ candidates s, ¬ utf8 c.2 <+: text

/-- Of two literals, one from each list of roles, neither starts like the other. -/
def isDistinct (rules others : List Symbol) : Bool :=
  rules.all fun s => others.all fun r => (candidates s).all fun c => (candidates r).all fun d =>
    !(utf8 c.2).isPrefixOf (utf8 d.2) && !(utf8 d.2).isPrefixOf (utf8 c.2)

section

variable {rules others : List Symbol} {text less : List UInt8}

theorem Shut.mono (shut : Shut others text) (all : rules ⊆ others) : Shut rules text :=
  fun s member => shut s (all member)

theorem Shut.shorten (shut : Shut rules text) (shorter : less <+: text) : Shut rules less := by
  intro s member c candidate stands
  exact shut s member c candidate (stands.trans shorter)

theorem shut_nil (literal : rules ⊆ literalRoles) : Shut rules [] := by
  intro s member c candidate stands
  obtain ⟨-, -, notEmpty⟩ := (roles_shape.2.1 s (literal member)).2 c candidate
  exact utf8_ne_nil notEmpty (List.prefix_nil.mp stands)

/-- Where a literal stands, none stands that is distinct from it. -/
theorem shut_of_distinct (distinct : isDistinct rules others = true)
    (stands : ¬ Shut others text) : Shut rules text := by
  intro s member c candidate front
  apply stands
  intro r other d listed begins
  have apart := List.all_eq_true.mp (List.all_eq_true.mp (List.all_eq_true.mp
    (List.all_eq_true.mp distinct s member) r other) c candidate) d listed
  simp only [Bool.and_eq_true, Bool.not_eq_true', ← Bool.not_eq_true,
    List.isPrefixOf_iff_prefix] at apart
  rcases List.prefix_or_prefix_of_prefix front begins with short | long
  · exact apart.1 short
  · exact apart.2 long

end

/-! ### What rules start with -/

/-- The rule fails wherever no literal of these roles stands. -/
def OpensWith (s : Symbol) (rules : List Symbol) : Prop :=
  ∀ owner contexts text, Shut rules text → Refuses (.term owner (bare s)) contexts text

section

variable {s r : Symbol} {rules others : List Symbol}

theorem OpensWith.mono (opens : OpensWith s others) (all : others ⊆ rules) : OpensWith s rules :=
  fun owner contexts text shut => opens owner contexts text (shut.mono all)

theorem opensWith_role (role : s ∈ literalRoles) : OpensWith s [s] := by
  intro owner contexts text shut
  obtain ⟨has, -, shape⟩ := roles_shape.1 s (List.mem_filter.mp role).1
  obtain ⟨resolved, literal⟩ := roles_shape.2.1 s role
  have none : firstMatch (candidates s) contexts text = none := by
    rw [firstMatch, List.find?_eq_none]
    intro c candidate matched
    simp only [Bool.and_eq_true, List.isPrefixOf_iff_prefix] at matched
    exact shut s (List.mem_singleton_self s) c candidate matched.2
  by_cases off : s.contextKey &&& contexts = 0
  · exact .inactive off
  · refine Refuses.rule has off fun p here => ?_
    rw [shape]
    exact (evaluates_first s resolved literal here).1 none

/-- A rule without alternatives starts like its first part. -/
theorem OpensWith.opening (opens : OpensWith r rules) (composite : s ∈ composites)
    {pieces : List Piece}
    (shape : (Alternatives.ofSteps (production s ++ [.done])).all = [.one (bare r) :: pieces]) :
    OpensWith s rules :=
  fun _ contexts text shut => .opening composite shape (opens s.id contexts text shut)

theorem OpensWith.repeated (opens : OpensWith r rules) (composite : s ∈ composites)
    (shape : (Alternatives.ofSteps (production s ++ [.done])).all = [[.several (bare r)]]) :
    OpensWith s rules := by
  intro owner contexts text shut
  apply Refuses.composite composite
  rw [shape]
  intro p here
  exact .passedOver (.stopped (.several (.lastRound (opens s.id contexts text shut p here))))
    .exhausted

/-- A choice between rules starts like one of them. -/
theorem OpensWith.choice {rs : List Symbol} (opens : ∀ r ∈ rs, OpensWith r rules)
    (composite : s ∈ composites)
    (shape : (Alternatives.ofSteps (production s ++ [.done])).all =
      rs.map fun r => [.one (bare r)]) : OpensWith s rules := by
  intro owner contexts text shut
  apply Refuses.composite composite
  rw [shape]
  clear shape
  induction rs with
  | nil => exact .exhausted
  | cons r rs ih =>
    apply Refuses.passedOver (.stopped (opens r (List.mem_cons_self ..) s.id contexts text shut))
    exact ih fun r member => opens r (List.mem_cons_of_mem _ member)

/-- Where a rule holds, a literal stands with which it can start. -/
theorem OpensWith.not_shut (opens : OpensWith s rules) {owner : SymbolId} {p q : Progress}
    (holds : Evaluates linked (.term owner (bare s)) p true q) : ¬ Shut rules (textAt p) := by
  intro shut
  have refused := opens owner p.contexts (textAt p) shut p (at_textAt p)
  exact absurd (holds.unique linked_wellFormed refused).1 Bool.noConfusion

end

/-- The statements, each with the role of its opcode. -/
def statementOpcodes : List (Symbol × Symbol) :=
  [(.defStmt, .defOp), (.texStmtPs14, .texOpPs14), (.texCiscStmt, .texCiscOp),
   (.texSpecStmt, .texSpecOp), (.texStmtPs11, .texOpPs11), (.unaryStmt, .unaryOp),
   (.binaryStmt, .binaryOp), (.ternaryStmt, .ternaryOp), (.phaseTwo, .phaseMarker)]

theorem opensWith_statement {s r : Symbol} (known : (s, r) ∈ statementOpcodes) :
    OpensWith s [r] := by
  have table : ∀ rule ∈ statementOpcodes, rule.1 ∈ composites ∧ rule.2 ∈ literalRoles ∧
      (Alternatives.ofSteps (production rule.1 ++ [.done])).all.map List.head? =
        [some (.one (bare rule.2))] := by decide
  obtain ⟨composite, role, heads⟩ := table (s, r) known
  obtain ⟨own, shape, first⟩ := List.map_eq_singleton_iff.mp heads
  obtain ⟨pieces, rfl⟩ := List.head?_eq_some_iff.mp first
  exact (opensWith_role role).opening composite shape

/-- A choice between statements starts with one of their opcodes. -/
theorem opensWith_choice {s : Symbol} {rules : List Symbol} (rs : List Symbol)
    (known : ∀ r ∈ rs, ∃ o ∈ rules, (r, o) ∈ statementOpcodes) (composite : s ∈ composites)
    (shape : (Alternatives.ofSteps (production s ++ [.done])).all =
      rs.map fun r => [.one (bare r)]) : OpensWith s rules := by
  refine OpensWith.choice (fun r member => ?_) composite shape
  obtain ⟨o, among, known⟩ := known r member
  exact (opensWith_statement known).mono (by simpa using among)

/-- The statements between which a texture statement is a choice, in their order. -/
def textureRules : List Symbol := [.texStmtPs14, .texCiscStmt, .texSpecStmt, .texStmtPs11]

theorem opensWith_texStatement : OpensWith .texStatement textureRoles :=
  opensWith_choice textureRules (by decide) (by decide) rfl

def arithmeticRules : List Symbol := [.unaryStmt, .binaryStmt, .ternaryStmt]

theorem opensWith_aluOp : OpensWith .aluOp [.unaryOp, .binaryOp, .ternaryOp] :=
  opensWith_choice arithmeticRules (by decide) (by decide) rfl

theorem opensWith_aluStatement : OpensWith .aluStatement arithmeticRoles := by
  intro owner contexts text shut
  have mark : OpensWith .coIssueMark arithmeticRoles :=
    (opensWith_role (by decide)).mono (by decide)
  have operation : OpensWith .aluOp arithmeticRoles := opensWith_aluOp.mono (by decide)
  apply Refuses.composite (by decide)
  refine .passedOver (fun p here => ?_) .exhausted
  exact .andThen (.optional (mark _ contexts text shut p here))
    (.stopped (.one (operation _ contexts text shut p here)))

/-! ### Terminals and statements in less text -/

section

variable {stop : Nat} {s : Symbol} {owner : SymbolId}

theorem steady_of_first (has : hasRule s = true)
    (steady : linked.Steady stop (.first s.id (alternativesOf s))) :
    linked.Steady stop (.term owner (bare s)) := by
  intro p verdict q evaluates here there
  by_cases off : s.contextKey &&& p.contexts = 0
  · obtain ⟨rfl, rfl⟩ := evaluates.unique linked_wellFormed (.inactive (symbol?_id s) off)
    exact .inactive (symbol?_id s) off
  · exact evaluates_bare has off (steady p verdict q (first_of_bare has off evaluates) here there)

/-- A symbol that holds is active. -/
theorem active_of_holds {p q : Progress}
    (holds : Evaluates linked (.term owner (bare s)) p true q) :
    s.contextKey &&& p.contexts ≠ 0 := by
  intro off
  have refused := holds.unique linked_wellFormed (.inactive (symbol?_id s) off)
  exact absurd refused.1 Bool.noConfusion

theorem stays_of_first (has : hasRule s = true)
    (stays : linked.Stays stop (.first s.id (alternativesOf s))) :
    linked.Stays stop (.term owner (bare s)) := by
  intro p q holds within
  have active := active_of_holds holds
  exact evaluates_bare has active (stays p q (first_of_bare has active holds) within)

theorem steady_symbol (terminal : hasRule s = false) {term : Term} (names : term.symbol = s.id) :
    linked.Steady stop (.term owner term) := by
  apply steady_terminal
  intro found known
  obtain rfl := Option.some.inj ((symbol?_id s).symm.trans (names ▸ known))
  rw [← Option.not_isSome_iff_eq_none, ruleIndex?_isSome, terminal]
  exact Bool.false_ne_true

theorem steady_role (role : s ∈ roles) : linked.Steady stop (.term owner (bare s)) := by
  obtain ⟨has, -, shape⟩ := roles_shape.1 s role
  apply steady_of_first has
  rw [shape]
  apply Steady.first
  intro term member
  by_cases number : s = .numVal
  · subst number
    rw [roles_shape.2.2, List.mem_singleton] at member
    exact steady_symbol (s := .value) rfl (congrArg Term.symbol member)
  · -- the terms of the other roles are literals of terminals
    obtain ⟨resolved, literal⟩ :=
      roles_shape.2.1 s (List.mem_filter.mpr ⟨role, by simpa using number⟩)
    have found : resolve? term ∈ (candidates s).map some :=
      resolved ▸ List.mem_map_of_mem member
    obtain ⟨⟨t, text⟩, candidate, same⟩ := List.mem_map.mp found
    exact steady_symbol (literal _ candidate).1 (resolve?_eq_some same.symm).1

/-- A choice between roles is steady like the roles: each of them reads one terminal. -/
theorem steady_choice (rs : List Symbol) (composite : s ∈ composites ∧ hasRule s = true)
    (shape : (Alternatives.ofSteps (production s ++ [.done])).all =
      (rs.map bare).map fun term => [.one term]) (each : ∀ r ∈ rs, r ∈ roles) :
    linked.Steady stop (.term owner (bare s)) := by
  apply steady_of_first composite.2
  rw [alternativesOf_composite composite.1, shape]
  apply Steady.first
  intro term member
  obtain ⟨r, listed, rfl⟩ := List.mem_map.mp member
  exact steady_role (each r listed)

/-- The roles and the choices between them. -/
def steadyRules : List Symbol := .texSource :: .srcReg :: roles

theorem steady_bare (known : s ∈ steadyRules) : linked.Steady stop (.term owner (bare s)) := by
  rcases List.mem_cons.mp known with rfl | known
  · exact steady_choice [.texCoordReg, .tempReg] (by decide) rfl (by decide)
  · rcases List.mem_cons.mp known with rfl | role
    · exact steady_choice [.tempReg, .constReg, .colorReg] (by decide) rfl (by decide)
    · exact steady_role role

/-- Rules without alternatives, made up of rules that stay and of options that are steady. -/
theorem stays_composite {rules : List Symbol} (inner : List Symbol)
    (stays : ∀ r ∈ inner, ∀ owner, linked.Stays stop (.term owner (bare r)))
    (parts : ∀ s ∈ rules, (s ∈ composites ∧ hasRule s = true) ∧
      (Alternatives.ofSteps (production s ++ [.done])).all.length = 1 ∧
      ∀ pieces ∈ (Alternatives.ofSteps (production s ++ [.done])).all, ∀ piece ∈ pieces,
        (∃ r ∈ inner, piece = .one (bare r)) ∨ ∃ r ∈ steadyRules, piece = .optional (bare r)) :
    ∀ s ∈ rules, ∀ owner, linked.Stays stop (.term owner (bare s)) := by
  intro s member owner
  obtain ⟨composite, single, parts⟩ := parts s member
  obtain ⟨pieces, shape⟩ := List.length_eq_one_iff.mp single
  apply stays_of_first composite.2
  rw [alternativesOf_composite composite.1, shape]
  rw [shape] at parts
  apply Stays.only
  apply Stays.sequence
  intro piece inside
  rcases parts pieces (List.mem_singleton_self _) piece inside with
    ⟨r, known, rfl⟩ | ⟨r, known, rfl⟩
  · exact (stays r known s.id).one
  · exact (steady_bare known).optional

/-- The statements and operands that are made up of terminals. -/
def phraseRules : List Symbol :=
  [.defStmt, .texStmtPs14, .texCiscStmt, .texSpecStmt, .texStmtPs11, .destInfo, .srcArg]

theorem stays_phrase : ∀ s ∈ phraseRules, ∀ owner, linked.Stays stop (.term owner (bare s)) :=
  stays_composite steadyRules (fun _ known _ => (steady_bare known).stays) (by decide)

theorem stays_arithmetic :
    ∀ s ∈ arithmeticRules, ∀ owner, linked.Stays stop (.term owner (bare s)) := by
  apply stays_composite (phraseRules ++ steadyRules) _ (by decide)
  intro r member owner
  rcases List.mem_append.mp member with phrase | steady
  · exact stays_phrase r phrase owner
  · exact (steady_bare steady).stays

end

/-! ### Statements that exclude each other -/

/-- Where the first rule holds, the second one fails at its first literal. -/
def Excludes (r e : Symbol) : Prop :=
  ∃ rules, OpensWith e rules ∧
    ∀ owner p q, Evaluates linked (.term owner (bare r)) p true q → Shut rules (textAt p)

/-- The blocks of a program behind its version, in their order. -/
def blocks : List Symbol := [.constants, .texBlock, .aluBlock, .phaseTwo]

/-- The roles with which a block starts. -/
def openers : Symbol → List Symbol
  | .constants => [.defOp]
  | .texBlock => textureRoles
  | .aluBlock => arithmeticRoles
  | _ => [.phaseMarker]

/-- The roles with which a block could go on. The second phase holds blocks itself. -/
def closers : Symbol → List Symbol
  | .phaseTwo => startRoles
  | block => openers block

/-- Statements start with different literals, except that an old texture opcode is the beginning of
others. How these go on does not look like a register. -/
private theorem literals_differ :
    (statementOpcodes.Pairwise fun e r => isDistinct [e.2] [r.2] = true ∨
      r.1 = .texStmtPs11 ∧ e.2 ∈ [Symbol.texOpPs14, .texCiscOp, .texSpecOp]) ∧
    (∀ o ∈ [Symbol.texOpPs14, .texCiscOp, .texSpecOp], ∀ e ∈ candidates o,
      ∀ c ∈ candidates .texOpPs11, ¬ utf8 e.2 <+: utf8 c.2 ∧ (utf8 c.2 <+: utf8 e.2 →
        ((utf8 e.2).drop (utf8 c.2).length).head?.any
          (fun b => startsSymbol b && b != 0x74) = true)) ∧
    (∀ d ∈ candidates .texRegPs11, (utf8 d.2).head? = some 0x74) ∧
    blocks.Pairwise fun b c => isDistinct (closers b) (openers c) = true := by
  decide +kernel

section

variable {owner : SymbolId} {p q : Progress} {s : Symbol}

/-- A role that holds has taken one of its literals. -/
theorem exists_taking (role : s ∈ literalRoles)
    (holds : Evaluates linked (.term owner (bare s)) p true q) :
    ∃ c ∈ candidates s, utf8 c.2 <+: textAt p ∧ q = p.taking c.1 s c.2 := by
  obtain ⟨has, -, shape⟩ := roles_shape.1 s (List.mem_filter.mp role).1
  obtain ⟨resolved, literal⟩ := roles_shape.2.1 s role
  obtain ⟨missed, matched⟩ := evaluates_first s resolved literal (at_textAt p)
  have first := first_of_bare has (active_of_holds holds) holds
  rw [shape] at first
  cases found : firstMatch (candidates s) p.contexts (textAt p) with
  | none => exact absurd (first.unique linked_wellFormed (missed found)).1 Bool.noConfusion
  | some c =>
    obtain ⟨-, rfl⟩ := first.unique linked_wellFormed (matched c.1 c.2 found)
    have stands := List.find?_some found
    simp only [Bool.and_eq_true, List.isPrefixOf_iff_prefix] at stands
    exact ⟨c, List.mem_of_find?_eq_some found, stands.2, rfl⟩

/-- Behind the opcode of an old texture statement stands a register, so the opcode is not the
beginning of another one. -/
theorem shut_of_texStmtPs11 (holds : Evaluates linked (.term owner (bare .texStmtPs11)) p true q) :
    Shut [.texOpPs14, .texCiscOp, .texSpecOp] (textAt p) := by
  obtain ⟨-, extended, registers, -⟩ := literals_differ
  have parts := first_of_bare rfl (active_of_holds holds) holds
  rw [alternativesOf_composite (by decide)] at parts
  obtain ⟨between, opcode, behind⟩ := parts.of_only.split_one
  obtain ⟨_, register, -⟩ := behind.split_one
  obtain ⟨c, candidate, ⟨rest, split⟩, rfl⟩ := exists_taking (by decide) opcode
  obtain ⟨d, listed, ⟨more, begins⟩, -⟩ := exists_taking (by decide) register
  have position : (p.taking c.1 .texOpPs11 c.2).reader.rest = rest := by
    have length : (utf8 c.2).length = c.2.utf8ByteSize := by simp [utf8]
    show (textAt p).drop c.2.utf8ByteSize = rest
    rw [← split, ← length, List.drop_left]
  have skips := (at_textAt (p.taking c.1 .texOpPs11 c.2)).skips
  rw [position] at skips
  intro o member e extra front
  rw [← split, prefix_append_iff] at front
  obtain ⟨notShorter, longer⟩ := extended o member e extra c candidate
  rcases front with short | ⟨starts, -, goesOn⟩
  · exact notShorter short
  · -- the opcode would go on where the register is looked for
    have goes := longer starts
    cases head : (utf8 e.2).drop (utf8 c.2).length with
    | nil => simp [head] at goes
    | cons b tail =>
      rw [head] at goes goesOn
      obtain ⟨behind, rfl⟩ := goesOn
      simp only [List.head?_cons, Option.any_some, Bool.and_eq_true, bne_iff_ne] at goes
      have settled : Settled (b :: tail ++ behind) :=
        settled_of_head? (by simpa using goes.1) behind
      rw [skips.eq_of_settled settled] at begins
      have first := registers d listed
      have same := congrArg List.head? begins
      rw [List.head?_append, first] at same
      exact goes.2 (Option.some.inj same).symm

theorem excludes_statement :
    (statementOpcodes.map Prod.fst).Pairwise fun e r => Excludes r e := by
  rw [List.pairwise_map]
  refine literals_differ.1.imp_of_mem ?_
  rintro ⟨e, o⟩ ⟨r, u⟩ first second apart
  refine ⟨[o], opensWith_statement first, fun owner p q holds => ?_⟩
  rcases apart with distinct | ⟨old, other⟩
  · exact shut_of_distinct distinct ((opensWith_statement second).not_shut holds)
  · obtain rfl : r = .texStmtPs11 := old
    exact (shut_of_texStmtPs11 holds).mono (by simpa using other)

end

/-! ### Choices and blocks in less text -/

section

variable {stop : Nat} {owner : SymbolId} {p q : Progress}

theorem textAt_cut (here : p.ahead ≤ stop) :
    textAt (p.cut stop) = (p.reader.skipTrivia.2.cut stop).rest := by
  show (p.reader.cut stop).skipTrivia.2.rest = _
  rw [Reader.skipTrivia_cut here]

theorem isPrefix_textAt_cut (here : p.ahead ≤ stop) : textAt (p.cut stop) <+: textAt p := by
  rw [textAt_cut here]
  exact Reader.isPrefix_cut _ _

/-- A rule fails in less text where no literal stands with which it starts. -/
theorem OpensWith.fails_cut {s : Symbol} {rules : List Symbol} (opens : OpensWith s rules)
    (shut : Shut rules (textAt (p.cut stop))) :
    Evaluates linked (.term owner (bare s)) (p.cut stop) false (p.cut stop) :=
  opens owner _ _ shut (p.cut stop) (at_textAt (p.cut stop))

/-- A choice holds by one of its rules. -/
theorem exists_of_choice {rs : List Symbol}
    (holds : Evaluates linked (.first owner (rs.map fun r => [.one (bare r)])) p true q) :
    ∃ r ∈ rs, Evaluates linked (.term owner (bare r)) p true q := by
  induction rs with
  | nil => cases holds
  | cons r rs ih =>
    cases holds with
    | chosen holds =>
      obtain ⟨_, tried, rest⟩ := holds.split_one
      cases rest
      exact ⟨r, List.mem_cons_self .., tried⟩
    | passedOver _ other =>
      obtain ⟨r, member, holds⟩ := ih other
      exact ⟨r, List.mem_cons_of_mem _ member, holds⟩

/-- A choice between rules stays if the rules do and exclude each other. -/
theorem stays_choice {rs : List Symbol}
    (stays : ∀ r ∈ rs, ∀ owner, linked.Stays stop (.term owner (bare r)))
    (apart : rs.Pairwise fun e r => Excludes r e) :
    linked.Stays stop (.first owner (rs.map fun r => [.one (bare r)])) := by
  induction rs with
  | nil =>
    intro p q evaluates _
    cases evaluates
  | cons e rs ih =>
    obtain ⟨first, others⟩ := List.pairwise_cons.mp apart
    intro p q evaluates within
    cases evaluates with
    | chosen holds =>
      obtain ⟨_, tried, rest⟩ := holds.split_one
      cases rest
      exact .chosen (.andThen (.one (stays e (List.mem_cons_self ..) owner p q tried within))
        .finished)
    | passedOver _ other =>
      -- why the first rule fails does not matter: the one that holds keeps it from starting
      obtain ⟨r, member, holds⟩ := exists_of_choice other
      obtain ⟨rules, opens, shut⟩ := first r member
      have here := holds.ahead_le.trans within
      have fails : Evaluates linked (.term owner (bare e)) (p.cut stop) false (p.cut stop) :=
        opens.fails_cut ((shut owner p q holds).shorten (isPrefix_textAt_cut here))
      refine .passedOver (.stopped (.one fails)) ?_
      exact ih (fun r member => stays r (List.mem_cons_of_mem _ member)) others p q other within

theorem stays_texStatement : linked.Stays stop (.term owner (bare .texStatement)) := by
  apply stays_of_first rfl
  rw [alternativesOf_composite (by decide)]
  have known : ∀ r ∈ textureRules, r ∈ phraseRules := by decide
  have listed : textureRules.Sublist (statementOpcodes.map Prod.fst) := by decide
  exact stays_choice (fun r member => stays_phrase r (known r member))
    (excludes_statement.sublist listed)

theorem stays_aluOp : linked.Stays stop (.term owner (bare .aluOp)) := by
  apply stays_of_first rfl
  rw [alternativesOf_composite (by decide)]
  have listed : arithmeticRules.Sublist (statementOpcodes.map Prod.fst) := by decide
  exact stays_choice stays_arithmetic (excludes_statement.sublist listed)

theorem stays_aluStatement : linked.Stays stop (.term owner (bare .aluStatement)) := by
  refine stays_composite [.aluOp] ?_ (by decide) .aluStatement (List.mem_singleton_self _) owner
  intro r member owner
  obtain rfl := List.mem_singleton.mp member
  exact stays_aluOp

theorem opensWith_block : ∀ b ∈ blocks, OpensWith b (openers b) := by
  have constants : OpensWith .constants [.defOp] :=
    (opensWith_statement (s := .defStmt) (by decide)).repeated (by decide) rfl
  have textures : OpensWith .texBlock textureRoles :=
    opensWith_texStatement.repeated (by decide) rfl
  have arithmetic : OpensWith .aluBlock arithmeticRoles :=
    opensWith_aluStatement.repeated (by decide) rfl
  have phase : OpensWith .phaseTwo [.phaseMarker] := opensWith_statement (by decide)
  simpa [blocks, openers] using ⟨constants, textures, arithmetic, phase⟩

/-- The block ends alike in less text, if nothing is left there with which it could go on. -/
def Closes (stop : Nat) (b : Symbol) : Prop :=
  ∀ owner p verdict q, Evaluates linked (.term owner (bare b)) p verdict q → q.ahead ≤ stop →
    Shut (closers b) (textAt (q.cut stop)) →
    Evaluates linked (.term owner (bare b)) (p.cut stop) verdict (q.cut stop)

/-- A block that does not start stays where it is. -/
theorem closes_of_holds {b : Symbol} (has : hasRule b = true) (opens : OpensWith b (closers b))
    (holds : ∀ p q, Evaluates linked (.first b.id (alternativesOf b)) p true q → q.ahead ≤ stop →
      Shut (closers b) (textAt (q.cut stop)) →
      Evaluates linked (.first b.id (alternativesOf b)) (p.cut stop) true (q.cut stop)) :
    Closes stop b := by
  intro owner p verdict q evaluates within shut
  cases verdict with
  | false =>
    obtain rfl := eq_of_bare has evaluates
    exact opens.fails_cut shut
  | true =>
    have active := active_of_holds evaluates
    exact evaluates_bare has active (holds p q (first_of_bare has active evaluates) within shut)

theorem closes_repeated {b item : Symbol} (has : hasRule b = true ∧ hasRule item = true)
    (shape : alternativesOf b = [[.several (bare item)]]) (opens : OpensWith item (closers b))
    (starts : OpensWith b (closers b))
    (stays : ∀ owner, linked.Stays stop (.term owner (bare item))) : Closes stop b := by
  refine closes_of_holds has.1 starts fun p q chosen within shut => ?_
  rw [shape] at chosen ⊢
  cases chosen.of_only with
  | andThen repeated rest =>
    cases rest
    cases repeated with
    | several repeated =>
      -- the last round fails in the shorter text because no item starts there
      have rounds := repeated.cut_rounds (stays b.id) (fun _ _ => eq_of_bare has.2) within
        (opens.fails_cut shut)
      exact .chosen (.andThen (.several rounds) .finished)

private theorem blocks_known : ∀ b ∈ blocks, hasRule b = true ∧ closers b ⊆ startRoles := by
  decide

/-- In front of blocks that may be left out, nothing stands that is distinct from what they start
with: either one of them follows, or what is behind them. -/
theorem shut_in_front {bs rules : List Symbol} (listed : bs ⊆ blocks)
    (distinct : ∀ b ∈ bs, isDistinct rules (openers b) = true) {verdict : Bool}
    (evaluates : Evaluates linked (.sequence owner (bs.map fun b => .optional (bare b))) p verdict
      q) (within : q.ahead ≤ stop) (shut : Shut rules (textAt (q.cut stop))) :
    Shut rules (textAt (p.cut stop)) := by
  induction bs generalizing p with
  | nil =>
    cases evaluates
    exact shut
  | cons b bs ih =>
    obtain ⟨own, others⟩ := List.cons_subset.mp listed
    obtain ⟨found, r, tried, rest⟩ := evaluates.split_option
    cases found with
    | false =>
      -- a block that is left out gives back all that it has read
      obtain rfl := eq_of_bare (blocks_known b own).1 tried
      exact ih others (fun c member => distinct c (List.mem_cons_of_mem _ member)) rest
    | true =>
      have stands := (opensWith_block b own).not_shut tried
      have full := shut_of_distinct (distinct b (List.mem_cons_self ..)) stands
      have here := (tried.ahead_le.trans rest.ahead_le).trans within
      exact full.shorten (isPrefix_textAt_cut here)

/-- Blocks that may be left out, one after the other. -/
theorem cut_blocks {bs : List Symbol} (listed : bs.Sublist blocks)
    (closes : ∀ b ∈ bs, Closes stop b) {verdict : Bool}
    (evaluates : Evaluates linked (.sequence owner (bs.map fun b => .optional (bare b))) p verdict
      q) (within : q.ahead ≤ stop) (shut : Shut startRoles (textAt (q.cut stop))) :
    Evaluates linked (.sequence owner (bs.map fun b => .optional (bare b))) (p.cut stop) verdict
      (q.cut stop) := by
  induction bs generalizing p with
  | nil =>
    cases evaluates
    exact .finished
  | cons b bs ih =>
    have own : b ∈ blocks := listed.subset (List.mem_cons_self ..)
    have others := (List.sublist_cons_self b bs).trans listed
    obtain ⟨apart, -⟩ := List.pairwise_cons.mp (literals_differ.2.2.2.sublist listed)
    obtain ⟨found, r, tried, rest⟩ := evaluates.split_option
    -- what follows the block does not look like more of it, however little of it is left
    have behind : Shut (closers b) (textAt (r.cut stop)) :=
      shut_in_front others.subset apart rest within (shut.mono (blocks_known b own).2)
    have first := closes b (List.mem_cons_self ..) owner p found r tried
      (rest.ahead_le.trans within) behind
    exact .andThen (.optional first)
      (ih others (fun c member => closes c (List.mem_cons_of_mem _ member)) rest)

theorem closes_constants : Closes stop .constants :=
  closes_repeated (by decide) (by rw [alternativesOf_composite (by decide)]; rfl)
    (opensWith_statement (by decide)) (opensWith_block _ (by decide))
    (stays_phrase .defStmt (by decide))

theorem closes_texBlock : Closes stop .texBlock :=
  closes_repeated (by decide) (by rw [alternativesOf_composite (by decide)]; rfl)
    opensWith_texStatement (opensWith_block _ (by decide)) fun _ => stays_texStatement

theorem closes_aluBlock : Closes stop .aluBlock :=
  closes_repeated (by decide) (by rw [alternativesOf_composite (by decide)]; rfl)
    opensWith_aluStatement (opensWith_block _ (by decide)) fun _ => stays_aluStatement

theorem closes_phaseTwo : Closes stop .phaseTwo := by
  have shape : alternativesOf .phaseTwo = [.one (bare .phaseMarker) ::
      [Symbol.texBlock, .aluBlock].map fun b => .optional (bare b)] := by
    rw [alternativesOf_composite (by decide)]
    rfl
  have starts : OpensWith .phaseTwo startRoles :=
    (opensWith_block .phaseTwo (by decide)).mono (by decide)
  refine closes_of_holds rfl starts fun p q chosen within shut => ?_
  rw [shape] at chosen ⊢
  obtain ⟨r, marker, rest⟩ := chosen.of_only.split_one
  have marked := (steady_role (by decide)).stays _ _ marker (rest.ahead_le.trans within)
  refine .chosen (.andThen (.one marked) (cut_blocks (by decide) ?_ rest within shut))
  simpa using ⟨closes_texBlock, closes_aluBlock⟩

/-! ### Programs in less text -/

/-- What a program is read as does not depend on what is left behind it. -/
theorem evaluates_cut {source : List UInt8}
    (evaluates : Evaluates linked (.rule 0) (linked.start source) true q) :
    Evaluates linked (.rule 0) (linked.start (source.take q.ahead)) true (q.cut q.ahead) := by
  have shape : alternativesOf .program =
      [.one (bare .programType) :: blocks.map fun b => .optional (bare b)] := by
    rw [alternativesOf_composite (by decide)]
    rfl
  have start : (linked.start source).cut q.ahead = linked.start (source.take q.ahead) := by
    simp only [Progress.cut, Grammar.start, Reader.cut_start]
  have closes : ∀ b ∈ blocks, Closes q.ahead b := by
    simpa [blocks] using
      ⟨closes_constants, closes_texBlock, closes_aluBlock, closes_phaseTwo⟩
  have shut : Shut startRoles (textAt (q.cut q.ahead)) := by
    rw [textAt_cut (Nat.le_refl _), Progress.ahead, Reader.rest_cut_self]
    exact shut_nil (by decide)
  rw [← start]
  cases evaluates with
  | rule opens chosen =>
    refine .rule opens ?_
    obtain ⟨rfl, same⟩ := alternatives_of_opens ruleIndex?_program opens
    rw [same, shape] at chosen ⊢
    obtain ⟨r, version, rest⟩ := chosen.of_only.split_one
    have opened := (steady_role (by decide)).stays _ _ version rest.ahead_le
    exact .chosen (.andThen (.one opened)
      (cut_blocks (List.Sublist.refl _) closes rest (Nat.le_refl _) shut))

/-- A program that is read up to some place is read to its end if the source ends there. -/
theorem matchSource_cut {source : List UInt8}
    (matched : linked.matchSource source = some (true, q)) :
    linked.matchSource (source.take q.ahead) = some (true, q.cut q.ahead) ∧
      verdict true (q.cut q.ahead) = .ok () := by
  have evaluates := evaluates_of_matchSource grammar_eq_linked matched
  refine ⟨matchSource_of_evaluates linked_wellFormed (evaluates_cut evaluates), ?_⟩
  have skipped : (q.cut q.ahead).reader.skipTrivia =
      (!(q.reader.skipTrivia.2.cut q.ahead).rest.isEmpty, q.reader.skipTrivia.2.cut q.ahead) :=
    Reader.skipTrivia_cut (Nat.le_refl _)
  rw [Progress.ahead, Reader.rest_cut_self] at skipped
  unfold verdict
  rw [Progress.ahead, skipped]
  rfl

/-- What is left behind a program starts between characters. -/
theorem isBoundary_ahead {source : String}
    (matched : linked.matchSource (utf8 source) = some (true, q))
    (more : q.reader.skipTrivia.1 = true) :
    IsBoundary source q.ahead ∧ textAt q = (utf8 source).drop q.ahead := by
  have lexed : q.Lexed linked (utf8 source) := by
    apply (evaluates_of_matchSource grammar_eq_linked matched).preserves_among
      (rulesName_steps linked)
    · intro term entry owner r named _ _ _
      exact lexed_matchTerminal grammar_eq_linked literalsInLine named entry.definition owner
    · simp [Goal.terms]
    · exact lexed_start
  obtain ⟨bytes, r, passes, lexes, stands⟩ := lexed
  have again : q.reader.skipTrivia = r.skipTrivia := by
    rcases stands with same | moved
    · rw [same]
    · rw [moved, Reader.skipTrivia_skipTrivia]
  obtain ⟨trivia, skipped⟩ := r.exists_passes_skipTrivia
  obtain ⟨gap, settled, found⟩ := r.skipTrivia_skips
  have here := congrArg Reader.rest passes.eq_located
  have there := congrArg Reader.rest (passes.trans skipped).eq_located
  rw [again] at more
  have left := found.mp more
  rw [here, there] at gap
  rw [there] at settled left
  simp only [Progress.ahead, textAt, again]
  exact ⟨(lexes.isBoundary (isBoundary_zero source)).trivia gap settled left, there⟩

end

/-! ### Compiling -/

/-- Whatever assembling comes to, the reading is kept. -/
theorem reading_compile {c : Compiler} {g : Grammar} (grammar : c.grammar = .ok g)
    {source : String} {outcome : Except CompileError Unit} {reading : Reading}
    (read : g.read source c.reading = (outcome, reading)) :
    (c.compile source).2.reading = reading := by
  rw [Compiler.compile_apply grammar, read]
  cases outcome with
  | error fault => rfl
  | ok value =>
    dsimp only
    cases Assembler.assemble g reading {} with
    | ok value a => rfl
    | error fault a => rfl

/-- Input is left over behind what was matched, and not found by the assembler. -/
theorem verdict_of_trailing {c : Compiler} (dialect : c.grammar = .ok linked) {source : String}
    {matched : Bool} {q : Progress} (found : linked.matchSource (utf8 source) = some (matched, q))
    (read : linked.read source c.reading = (verdict matched q, q.reading)) {place : Place}
    (trailing : (c.compile source).1 = .error (.trailingInput place)) :
    verdict matched q = .error (.trailingInput place) := by
  rw [Compiler.compile_apply dialect, read] at trailing
  cases accepted : verdict matched q with
  | error fault =>
    rw [accepted] at trailing
    simpa using trailing
  | ok value =>
    cases matched with
    | false => cases accepted
    | true =>
      obtain ⟨program, represents⟩ := matchRule_root_represents found
      rw [accepted] at trailing
      dsimp only at trailing
      rcases assemble_outcome represents _ with ⟨a, assembled⟩ | ⟨register, place, a, failed⟩
      · rw [assembled] at trailing
        cases trailing
      · rw [failed] at trailing
        cases trailing

theorem ahead_of_verdict {matched : Bool} {q : Progress} {place : Place}
    (left : verdict matched q = .error (.trailingInput place)) :
    matched = true ∧ q.reader.skipTrivia.1 = true ∧ q.ahead = place.offset := by
  cases matched with
  | false => cases left
  | true =>
    unfold verdict at left
    unfold Progress.ahead
    generalize q.reader.skipTrivia = skipped at left
    obtain ⟨_ | _, next⟩ := skipped
    · cases left
    · cases left
      exact ⟨rfl, rfl, rfl⟩

/-- A source is divided where input is left over, and its front is matched to the end. -/
theorem exists_front {source : String} {q : Progress}
    (found : linked.matchSource (utf8 source) = some (true, q))
    (more : q.reader.skipTrivia.1 = true) :
    ∃ front back : String, source = front ++ back ∧ front.utf8ByteSize = q.ahead ∧
      (∃ b rest, utf8 back = b :: rest ∧ 0x20 < b) ∧
      linked.matchSource (utf8 front) = some (true, q.cut q.ahead) ∧
      verdict true (q.cut q.ahead) = .ok () := by
  obtain ⟨boundary, position⟩ := isBoundary_ahead found more
  obtain ⟨front, back, whole, before, behind⟩ := boundary.exists_append
  have settled : Settled (textAt q) := q.reader.skipTrivia_skips.2.1
  have left : textAt q ≠ [] := q.reader.skipTrivia_skips.2.2.mp more
  refine ⟨front, back, whole, ?_, ?_, before ▸ matchSource_cut found⟩
  · have size : (utf8 front).length = front.utf8ByteSize := by simp [utf8]
    have inside := List.length_pos_iff.mpr left
    rw [position, List.length_drop] at inside
    rw [← size, before, List.length_take]
    omega
  · rw [behind, ← position]
    cases text : textAt q with
    | nil => exact absurd text left
    | cons b rest =>
      rw [text] at settled
      exact ⟨b, rest, rfl, by simpa [Reader.isPrintable] using settled.1⟩

/-- If a compiler says where input is left over, this is at a printable byte between characters,
and of the source in front of it a new compiler reads everything, with the tokens and their
places, the constants and the contexts that were read of the whole source. -/
theorem read_front_of_trailingInput (c : Compiler) (dialect : c.grammar = grammar)
    (source : String) (place : Place)
    (trailing : (c.compile source).1 = .error (.trailingInput place)) :
    ∃ front back : String, source = front ++ back ∧ front.utf8ByteSize = place.offset ∧
      (∃ b rest, utf8 back = b :: rest ∧ 0x20 < b) ∧
      ∃ g, Compiler.standard.grammar = .ok g ∧
        g.read front Compiler.standard.reading = (.ok (), (c.compile source).2.reading) ∧
        (Compiler.standard.compile front).2.reading = (c.compile source).2.reading := by
  rw [grammar_eq_linked] at dialect
  have small : (utf8 source).length ≤ sourceLimit := by
    by_contra large
    rw [Compiler.compile_of_large dialect (Nat.lt_of_not_le large)] at trailing
    cases trailing
  obtain ⟨matched, q, found⟩ := matchSource_total (utf8 source)
  have read := read_of_ends small found c.reading
  obtain ⟨rfl, more, offset⟩ := ahead_of_verdict (verdict_of_trailing dialect found read trailing)
  obtain ⟨front, back, rfl, size, printable, matched, accepted⟩ := exists_front found more
  have shorter : (utf8 front).length ≤ sourceLimit := by
    rw [utf8_append, List.length_append] at small
    omega
  -- the tokens, constants and contexts are those of the state where the program ends
  have again := read_of_ends shorter matched Compiler.standard.reading
  rw [accepted] at again
  rw [reading_compile dialect read]
  exact ⟨front, back, rfl, size.trans offset, printable, linked, Compiler.linked_standard, again,
    reading_compile Compiler.linked_standard again⟩

/-- A statement that does not belong where it stands, behind a comment with other characters. -/
theorem read_front_of_misplaced_statement :
    let c : Compiler := { grammar := .ok linked }
    let source :=
      "ps.1.1 ; é\ndef c0, 1, -.5, 2., 0.25\ntex t0 // ü\nmul r0, t0, c0 # ñ\n texdp3 t1, t0"
    (c.compile source).1 = .error (.trailingInput { line := 5, offset := 71 }) ∧
      ∃ front back : String, source = front ++ back ∧ front.utf8ByteSize = 71 ∧
        (∃ b rest, utf8 back = b :: rest ∧ 0x20 < b) ∧
        ∃ g, Compiler.standard.grammar = .ok g ∧
          g.read front Compiler.standard.reading = (.ok (), (c.compile source).2.reading) ∧
          (Compiler.standard.compile front).2.reading = (c.compile source).2.reading := by
  intro c source
  have trailing : (c.compile source).1 =
      .error (.trailingInput { line := 5, offset := 71 }) := by decide +kernel
  exact ⟨trailing, read_front_of_trailingInput c grammar_eq_linked.symm source _ trailing⟩

end Dialect
end PixelAsm
