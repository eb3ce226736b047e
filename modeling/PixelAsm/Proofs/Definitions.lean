import PixelAsm.Proofs.Constants
import PixelAsm.Proofs.Loadable
import PixelAsm.Proofs.Refinement
import PixelAsm.Proofs.Rounding

/-!
# Definitions

A definition gives a constant register the values of four literals. The literals go to the pool
of constants when the source is read, the definition becomes an instruction that names the
place of its first value there, and the upload takes four values from that place. We follow
them all the way: the device is told the values that the definition is written with.
-/
namespace PixelAsm

open Syntax

/-- The number is the one that is written, rounded to single precision. -/
def Literal.Denotes (l : Literal) (x : Binary32) : Prop :=
  x.Rounds l.negative (decimal (l.whole ++ l.fraction?.getD [])) (10 ^ (l.fraction?.getD []).length)

theorem Literal.value_denotes (l : Literal) : l.Denotes l.value :=
  Binary32.ofRatio_rounds _ _ (Nat.pow_pos (by decide))

/-! ### Definitions in a source -/

/-- A definition as it is written. -/
structure Definition where
  register : Terminal .constReg
  x : Literal
  y : Literal
  z : Literal
  w : Literal

namespace Definition

def literals (d : Definition) : List Literal := [d.x, d.y, d.z, d.w]

def leaves (register : Terminal .constReg) : List Leaf := (Simple.define register).layout.leaves

/-- The tokens are those of the definition, and its literals are written where those of the
numerals stand. -/
structure WrittenAs (source : List UInt8) (d : Definition) (tokens : List Token) : Prop where
  terminals : tokens.map Token.key = (leaves d.register).map Leaf.key
  literals : (tokens.filter (·.id == Symbol.value.id)).Forall₂
    (fun t l => l.WrittenAt source t.place.offset) d.literals

/-- The call gives the register of the definition the values of its literals. -/
inductive SetBy (d : Definition) : Call → Prop
  | intro {value : Quad} (x : d.x.Denotes value.x) (y : d.y.Denotes value.y)
      (z : d.z.Denotes value.z) (w : d.w.Denotes value.w) :
      SetBy d (.setConstant d.register.code value)

/-- The values of the literals as they stand in the pool. -/
def values (d : Definition) : List Binary32 := d.literals.map (·.value)

end Definition

/-- The definitions in a source with these tokens. They come behind the version, and no other
token is the opcode of one. -/
def DefinedIn (source : List UInt8) (tokens : List Token) (ds : List Definition) : Prop :=
  ∃ version groups rest, tokens = version :: (groups.flatten ++ rest) ∧
    ds.Forall₂ (Definition.WrittenAs source) groups ∧
    ∀ t ∈ version :: rest, t.rule ≠ Symbol.defOp.id

namespace Definition

variable {source : List UInt8}

theorem numerals_leaves (register : Terminal .constReg) : numerals (leaves register) = 4 :=
  (Simple.define register).loads.numerals_eq

/-- A definition has the literals that its tokens denote. -/
theorem exists_of_tokens {register : Terminal .constReg} {tokens : List Token}
    (keys : tokens.map Token.key = (leaves register).map Leaf.key) {values : List Binary32}
    (denote : (tokens.filter (·.id == Symbol.value.id)).Forall₂ (Token.Denotes source) values) :
    ∃ d : Definition, d.register = register ∧ d.WrittenAs source tokens ∧ d.values = values := by
  have four : (tokens.filter (·.id == Symbol.value.id)).length = 4 := by
    rw [← List.countP_eq_length_filter, Dialect.countP_value keys]
    exact numerals_leaves register
  obtain ⟨t, rest, found⟩ := List.exists_cons_of_length_eq_add_one four
  rw [found, List.length_cons] at four
  obtain ⟨u, v, w, rfl⟩ := List.length_eq_three.mp (Nat.succ.inj four)
  rw [found] at denote
  rcases denote with _ | ⟨⟨x, first, rfl⟩, _ | ⟨⟨y, second, rfl⟩, _ | ⟨⟨z, third, rfl⟩,
    _ | ⟨⟨w, fourth, rfl⟩, ⟨⟩⟩⟩⟩⟩
  refine ⟨⟨register, x, y, z, w⟩, rfl, ⟨keys, ?_⟩, rfl⟩
  rw [found]
  exact .cons first (.cons second (.cons third (.cons fourth .nil)))

/-- Tokens with the keys of definitions fall into groups, one for each. -/
theorem exists_groups {registers : List (Terminal .constReg)} {tokens : List Token}
    (keys : tokens.map Token.key = (registers.flatMap leaves).map Leaf.key) {values : List Binary32}
    (denote : (tokens.filter (·.id == Symbol.value.id)).Forall₂ (Token.Denotes source) values) :
    ∃ (ds : List Definition) (groups : List (List Token)), ds.map (·.register) = registers ∧
      tokens = groups.flatten ∧ ds.Forall₂ (WrittenAs source) groups ∧
      values = ds.flatMap (·.values) := by
  induction registers generalizing tokens values with
  | nil =>
    obtain rfl : tokens = [] := by simpa using keys
    obtain rfl := List.forall₂_nil_left_iff.mp denote
    exact ⟨[], [], rfl, rfl, .nil, rfl⟩
  | cons register rest ih =>
    rw [List.flatMap_cons, List.map_append] at keys
    obtain ⟨group, others, rfl, own, behind⟩ := List.map_eq_append_iff.mp keys
    rw [List.filter_append] at denote
    have first := List.forall₂_take (group.filter (·.id == Symbol.value.id)).length denote
    have second := List.forall₂_drop (group.filter (·.id == Symbol.value.id)).length denote
    rw [List.take_left] at first
    rw [List.drop_left] at second
    obtain ⟨d, rfl, written, valued⟩ := exists_of_tokens own first
    obtain ⟨ds, groups, rfl, rfl, all, others⟩ := ih behind second
    refine ⟨d :: ds, group :: groups, rfl, rfl, .cons written all, ?_⟩
    rw [List.flatMap_cons, valued, ← others, List.take_append_drop]

end Definition

namespace Syntax

/-- The statements behind the definitions. -/
def Shader.others (p : Shader) : List Statement := p.first.statements ++ p.secondStatements

theorem Shader.statements_eq (p : Shader) :
    p.statements = p.definitions.map (.simple <| .define ·) ++ p.others := by
  simp [statements, firstStatements, others]

theorem Block.statements_ne_define (b : Block) : ∀ s ∈ b.statements, ∀ r,
    s ≠ .simple (.define r) := by
  intro s member r
  simp only [statements, List.mem_append, List.mem_map] at member
  rcases member with ⟨t, -, rfl⟩ | ⟨t, -, rfl⟩
  · cases t <;> simp [TextureStatement.statement]
  · simp

theorem Shader.others_ne_define (p : Shader) : ∀ s ∈ p.others, ∀ r,
    s ≠ .simple (.define r) := by
  intro s member
  simp only [others, List.mem_append] at member
  rcases member with first | second
  · exact p.first.statements_ne_define s first
  · unfold secondStatements at second
    split at second
    next block _ =>
      rcases List.mem_cons.mp second with rfl | inside
      · simp
      · exact block.statements_ne_define s inside
    · cases second

/-- The opcode of a definition is the only one of its kind. -/
theorem rule_ne_defOp {s : Statement} (other : ∀ r, s ≠ .simple (.define r)) :
    ∀ l ∈ s.leaves, l.rule ≠ .defOp := by
  intro l member same
  have role : l.rule.role? = some .opcode := by rw [same]; rfl
  have notPart : ¬ l.isPart = true := by simp [Leaf.isPart, role]
  have loads := s.loads
  simp only [Statement.leaves, Layout.leaves, Layout.operandLeaves, List.mem_append, List.mem_cons,
    List.mem_flatMap] at member
  rcases member with mark | rfl | target | ⟨leaves, operand, rfl | inside⟩
  · rw [(loads.mark l mark).1] at role
    cases role
  · cases s with
    | simple s =>
      cases s with
      | define r => exact other r rfl
      | texture s | legacyTexture s | phaseMarker => cases same
      | arithmetic s =>
        obtain ⟨coIssue, arity, opcode, target, sources, length⟩ := s
        cases arity <;> cases same
    | composite s => cases s <;> cases same
  · exact notPart (loads.target l target)
  · cases same
  · rcases loads.others leaves operand l inside with part | rfl
    · exact notPart part
    · cases same

end Syntax

/-! ### Instructions that load constants -/

def Instruction.isLoad : Instruction → Bool
  | setConstants _ _ => true
  | _ => false

def Call.setsConstant : Call → Bool
  | setConstant _ _ => true
  | _ => false

/-- Loads from one place of the pool on, four values for each register. -/
def loadsFrom : Nat → List (Terminal .constReg) → List Instruction
  | _, [] => []
  | start, register :: rest =>
    .setConstants register.code (.ofNat start) :: loadsFrom (start + 4) rest

theorem isLoad_loadsFrom (start : Nat) (registers : List (Terminal .constReg)) :
    ∀ i ∈ loadsFrom start registers, i.isLoad = true := by
  induction registers generalizing start with
  | nil => simp [loadsFrom]
  | cons register rest ih =>
    intro i member
    rcases List.mem_cons.mp member with rfl | behind
    · rfl
    · exact ih _ i behind

namespace Syntax

theorem issuesBehind_definitions (legacy : Bool) (before : List Statement)
    (registers : List (Terminal .constReg)) :
    issuesBehind legacy before (registers.map (.simple <| .define ·)) =
      (loadsFrom (literalsIn before) registers).map (⟨.texture1, ·⟩) := by
  induction registers generalizing before with
  | nil => rfl
  | cons register rest ih =>
    have own : (Statement.simple (.define register)).literals = 4 :=
      Definition.numerals_leaves register
    rw [List.map_cons, issuesBehind, ih, literalsIn_append, own]
    rfl

theorem Simple.issues_not_isLoad {s : Simple} (other : ∀ r, s ≠ .define r) {setting : Setting}
    {i : Issue} (member : i ∈ s.issues setting) : i.instruction.isLoad = false := by
  cases s with
  | define register => exact absurd rfl (other register)
  | texture s =>
    rw [List.mem_singleton.mp member]
    simp only [Texture.instruction]
    split <;> rfl
  | legacyTexture s =>
    rw [List.mem_singleton.mp member]
    simp only [LegacyTexture.instruction]
    split <;> rfl
  | phaseMarker => cases member
  | arithmetic s =>
    obtain ⟨instruction, own, rfl⟩ := List.mem_map.mp member
    simp only [Arithmetic.instructions, List.mem_append] at own
    rcases own with color | alpha
    · obtain ⟨-, rfl⟩ : _ ∧ instruction = s.color := by simpa using color
      rfl
    · obtain ⟨-, rfl⟩ : _ ∧ instruction = s.alpha := by simpa using alpha
      rfl

theorem Composite.expansion_ne_define (c : Composite) (secondRow : Bool) :
    ∀ s ∈ c.expansion secondRow, ∀ r, s ≠ .define r := by
  intro s member r same
  subst s
  cases c with
  | plain opcode x y =>
    simp only [expansion] at member
    split at member <;>
      simp [matrixRow, passCoordinates, dotProduct, binary, moveChannel, sample] at member
  | reflection opcode x y z =>
    simp [expansion, matrixRow, reflect, passCoordinates, dotProduct, binary, sample] at member

theorem issuesBehind_not_isLoad {legacy : Bool} {before ss : List Statement}
    (others : ∀ s ∈ ss, ∀ r, s ≠ .simple (.define r)) :
    ∀ i ∈ issuesBehind legacy before ss, i.instruction.isLoad = false := by
  induction ss generalizing before with
  | nil => simp [issuesBehind]
  | cons s rest ih =>
    intro i member
    rw [issuesBehind, List.mem_append] at member
    rcases member with here | behind
    · have other := others s (by simp)
      cases s with
      | simple s => exact Simple.issues_not_isLoad (fun r same => other r (by rw [same])) here
      | composite c =>
        obtain ⟨s, inside, issued⟩ := List.mem_flatMap.mp here
        exact Simple.issues_not_isLoad (c.expansion_ne_define _ s inside) issued
    · exact ih (fun t inside => others t (by simp [inside])) i behind

/-- The first queue loads one constant for each definition, in order. -/
theorem Shader.loads_eq (p : Shader) :
    (instructionsOn p.issues .texture1).filter (·.isLoad) = loadsFrom 0 p.definitions := by
  have definitions : instructionsOn ((loadsFrom 0 p.definitions).map (⟨.texture1, ·⟩)) .texture1 =
      loadsFrom 0 p.definitions := by
    simp [instructionsOn, List.filter_map, Function.comp_def]
  have first : literalsIn [] = 0 := rfl
  have loads := isLoad_loadsFrom 0 p.definitions
  have behind : ∀ i ∈ instructionsOn (issuesBehind p.isLegacy
      (p.definitions.map (.simple <| .define ·)) p.others) .texture1, ¬ i.isLoad = true := by
    intro i member
    obtain ⟨issue, issued, rfl⟩ := List.mem_map.mp member
    have none := issuesBehind_not_isLoad p.others_ne_define issue (List.mem_filter.mp issued).1
    simp [none]
  rw [issues, p.statements_eq, issuesBehind_append, issuesBehind_definitions, instructionsOn_append,
    List.filter_append, List.nil_append, first, definitions, List.filter_eq_self.mpr loads,
    List.filter_eq_nil_iff.mpr behind, List.append_nil]

end Syntax

/-! ### From the source to the device -/

/-- Loads from where the values of the definitions stand in the pool set their registers. -/
theorem setBy_of_carried (before : List Binary32) {constants rest : List Binary32}
    {ds : List Definition} (pool : constants = before ++ (ds.flatMap (·.values) ++ rest))
    (small : constants.length < 2 ^ 32) {calls : List Call}
    (carried : (loadsFrom before.length (ds.map (·.register))).Forall₂
      (Instruction.Carried constants) calls) : ds.Forall₂ Definition.SetBy calls := by
  induction ds generalizing before calls with
  | nil =>
    obtain rfl := List.forall₂_nil_left_iff.mp carried
    exact .nil
  | cons d ds ih =>
    obtain ⟨call, calls, own, behind, rfl⟩ := List.forall₂_cons_left_iff.mp carried
    have split : constants = (before ++ d.values) ++ (ds.flatMap (·.values) ++ rest) := by
      simpa using pool
    have next : (before ++ d.values).length = before.length + 4 := by
      simp [Definition.values, Definition.literals]
    have others := ih (before ++ d.values) split (by rw [next]; exact behind)
    refine .cons ?_ others
    have place : (UInt32.ofNat before.length).toNat = before.length := by
      rw [UInt32.toNat_ofNat_of_lt']
      rw [pool, List.length_append] at small
      simp [UInt32.size]
      omega
    have value (n : Nat) : constants[before.length + n]? =
        (d.values ++ (ds.flatMap (·.values) ++ rest))[n]? := by
      rw [split, List.append_assoc, List.getElem?_append_right (Nat.le_add_right _ _),
        Nat.add_sub_cancel_left]
    have denotes {l : Literal} {v : Binary32} (same : some v = some l.value) : l.Denotes v := by
      rw [Option.some.inj same]
      exact l.value_denotes
    cases own with
    | setConstants x y z w =>
      rw [place] at x y z w
      exact .intro (denotes (x.symm.trans (value 0))) (denotes (y.symm.trans (value 1)))
        (denotes (z.symm.trans (value 2))) (denotes (w.symm.trans (value 3)))

/-- The calls that set constants are those of the loads in the first queue. -/
theorem setsConstant_calls {constants : List Binary32} {instructions : Stage → List Instruction}
    (suits : ∀ stage, ∀ i ∈ instructions stage, i.Suits constants.length stage)
    {calls : Stage → List Call} (carried : ∀ stage, (instructions stage).Forall₂
      (Instruction.Carried constants) (calls stage)) :
    ((instructions .texture1).filter (·.isLoad)).Forall₂ (Instruction.Carried constants)
      ((Stage.all.flatMap calls).filter (·.setsConstant)) := by
  have related (stage : Stage) : ((instructions stage).filter (·.isLoad)).Forall₂
      (Instruction.Carried constants) ((calls stage).filter (·.setsConstant)) := by
    refine List.rel_filter (fun i call own => ?_) (carried stage)
    cases own <;> simp [Instruction.isLoad, Call.setsConstant]
  have others {stage : Stage} (other : stage ≠ .texture1) :
      (calls stage).filter (·.setsConstant) = [] := by
    have none : (instructions stage).filter (·.isLoad) = [] := by
      apply List.filter_eq_nil_iff.mpr
      intro i member load
      cases i with
      | setConstants register index => exact other (suits stage _ member).1
      | _ => cases load
    have own := related stage
    rw [none] at own
    exact List.forall₂_nil_left_iff.mp own
  have whole : (Stage.all.flatMap calls).filter (·.setsConstant) =
      (calls .texture1).filter (·.setsConstant) := by
    simp [Stage.all, others]
  rw [whole]
  exact related .texture1

namespace Dialect

/-- The constants of a source that is read are those of its numerals, and there are not more
than it has bytes. -/
theorem read_recounts {source : String} {previous r : Reading}
    (accepted : linked.read source previous = (.ok (), r)) :
    (r.tokens.filter (·.id == Symbol.value.id)).Forall₂ (Token.Denotes (utf8 source)) r.constants ∧
      r.constants.length ≤ sourceLimit := by
  obtain ⟨body, opens⟩ := (Grammar.wellFormed_of_link grammar_eq_linked).opens _ _ 0
    (symbol?_id .program) ruleIndex?_program
  unfold Grammar.read at accepted
  dsimp only at accepted
  split at accepted
  · cases accepted
  next short =>
    split at accepted
    · cases accepted
    next matched next found =>
      obtain ⟨-, rfl⟩ := Prod.mk.inj accepted
      have recounts := Grammar.recounts_matchSource
        (Grammar.wellFormed_of_link grammar_eq_linked) opens found
      refine ⟨recounts.constants, ?_⟩
      have few := (List.filter_sublist (p := fun t : Token => t.id == linked.valueSymbol)
        (l := next.tokens.toList)).length_le
      have count := recounts.constants.length_eq
      have inside := recounts.reader.inside
      have size := recounts.reader.size
      have tokens := recounts.tokens
      simp only [Progress.reading, Trail.length_toList] at few count ⊢
      omega

/-- The definitions of a program are written in its source. -/
theorem exists_definitions {source : List UInt8} {r : Reading} {p : Shader}
    (represents : Represents r p)
    (denote : (r.tokens.filter (·.id == Symbol.value.id)).Forall₂ (Token.Denotes source)
      r.constants) :
    ∃ (ds : List Definition) (rest : List Binary32), ds.map (·.register) = p.definitions ∧
      DefinedIn source r.tokens ds ∧ r.constants = ds.flatMap (·.values) ++ rest := by
  have keys := represents.tokens
  rw [Shader.leaves, p.statements_eq, List.flatMap_append, List.map_cons, List.map_append] at keys
  obtain ⟨version, tokens, same, first, keys⟩ := List.map_eq_cons_iff.mp keys
  obtain ⟨front, rest, rfl, own, behind⟩ := List.map_eq_append_iff.mp keys
  -- the version is no numeral, and no opcode of a definition
  have noNumeral : version.id ≠ Symbol.value.id := by
    have terminals : Symbol.value ∉ Symbol.terminals .programType := by decide
    have id : version.id = p.version.symbol.id := congrArg Prod.fst first
    rw [id]
    intro value
    exact terminals (Symbol.id_inj value ▸ p.version.member)
  have noOpcode : version.rule ≠ Symbol.defOp.id := by
    have rule : version.rule = Symbol.programType.id := congrArg Prod.snd first
    rw [rule]
    decide
  rw [same, List.filter_cons_of_neg (by simpa using noNumeral), List.filter_append] at denote
  have first := List.forall₂_take (front.filter (·.id == Symbol.value.id)).length denote
  rw [List.take_left] at first
  rw [List.flatMap_map] at own
  obtain ⟨ds, groups, registers, rfl, written, values⟩ := Definition.exists_groups own first
  refine ⟨ds, _, registers, ⟨version, groups, rest, same, written, fun t member => ?_⟩,
    (List.take_append_drop _ _).symm.trans (by rw [values])⟩
  rcases List.mem_cons.mp member with rfl | inside
  · exact noOpcode
  · have key := List.mem_map_of_mem (f := Token.key) inside
    rw [behind] at key
    obtain ⟨l, leaf, same⟩ := List.mem_map.mp key
    obtain ⟨s, listed, leaf⟩ := List.mem_flatMap.mp leaf
    have other := rule_ne_defOp (p.others_ne_define s listed) l leaf
    have rule : l.rule.id = t.rule := congrArg Prod.snd same
    rw [← rule]
    exact fun opcode => other (Symbol.id_inj opcode)

/-- Uploading what a source compiles to sets one constant for each of its definitions and no
other, in their order: the register is that of the definition, and the values are those of its
literals. -/
theorem compile_sets_constants (c : Compiler) (dialect : c.grammar = grammar) (source : String)
    (accepted : (c.compile source).1 = .ok ()) :
    ∃ ds, DefinedIn (utf8 source) (c.compile source).2.reading.tokens ds ∧
      ∀ d : Recorder, Recorder.device.Silent d →
        ∃ d' calls, d.upload (c.compile source).2.schedule (c.compile source).2.reading.constants =
            (.ok (), d') ∧
          d'.calls.toList = d.calls.toList ++ calls ∧
          ds.Forall₂ Definition.SetBy (calls.filter (·.setsConstant)) := by
  have read := read_of_compile dialect accepted
  obtain ⟨denote, few⟩ := read_recounts read
  obtain ⟨p, represents⟩ := read_represents read
  have decodes := compile_decodes dialect accepted represents
  obtain ⟨ds, rest, registers, defined, pool⟩ := exists_definitions represents denote
  have suited := Compiler.suited_compile (dialect.trans grammar_eq_linked) source
  obtain ⟨instructions, full⟩ := suited.uploadsInFull
  refine ⟨ds, defined, fun d silent => ?_⟩
  obtain ⟨calls, carried, uploaded⟩ := full.uploads Recorder Recorder.device d silent
  refine ⟨_, _, uploaded, Recorder.calls_after d _, ?_⟩
  have loads : (instructions .texture1).filter (·.isLoad) = loadsFrom 0 (ds.map (·.register)) := by
    have queue : p.delivered .texture1 = instructionsOn p.issues .texture1 := by
      simp [Shader.delivered, Shader.queues]
    rw [full.decodes.unique decodes, registers, queue]
    exact p.loads_eq
  have set := setsConstant_calls full.suits carried
  rw [loads] at set
  exact setBy_of_carried [] pool (by unfold sourceLimit at few; omega) set

/-- The constants are defined out of order, and one literal has no single precision value of
its own. -/
def constantsText : String :=
  "ps.1.4\ndef c3, 1, -.5, 2., 0.1\ndef c0, -0, 10, .25, 7\nmov r0, c3\nadd r0, r0, c0\n"

theorem compile_constantsText :
    let out := Compiler.standard.compile constantsText
    out.1 = .ok () ∧
      ((Recorder.upload {} out.2.schedule out.2.reading.constants).2.calls.toList.filter
        (·.setsConstant)).length = 2 := by
  decide +kernel

theorem compile_sets_constants_unordered :
    (Compiler.standard.compile constantsText).1 = .ok () ∧ Recorder.device.Silent {} ∧
      ∃ ds d calls,
        DefinedIn (utf8 constantsText) (Compiler.standard.compile constantsText).2.reading.tokens
          ds ∧ ds.length = 2 ∧
        Recorder.upload {} (Compiler.standard.compile constantsText).2.schedule
          (Compiler.standard.compile constantsText).2.reading.constants = (.ok (), d) ∧
        d.calls.toList = calls ∧ ds.Forall₂ Definition.SetBy (calls.filter (·.setsConstant)) := by
  obtain ⟨accepted, two⟩ := compile_constantsText
  have unarmed : ({} : Recorder).Unarmed := ⟨rfl, by simp⟩
  obtain ⟨ds, defined, uploads⟩ :=
    compile_sets_constants _ Compiler.grammar_standard constantsText accepted
  obtain ⟨d, calls, uploaded, recorded, set⟩ := uploads {} unarmed.silent
  have recorded : d.calls.toList = calls := by simpa using recorded
  rw [uploaded, recorded, ← set.length_eq] at two
  exact ⟨accepted, unarmed.silent, ds, d, calls, defined, two, uploaded, recorded, set⟩

end Dialect
end PixelAsm
