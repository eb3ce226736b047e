import PixelAsm.Proofs.Refusals
import PixelAsm.Proofs.Scanning

/-!
# Filled templates

Whatever registers fill the open places of a template, the result is a sequence of statements
that are written out in full. With the codes of the dialect such statements are not refused.
-/
namespace PixelAsm

open Syntax

/-! ### Instructions -/

namespace Assembly

variable {expand : Expander} {codeOf : SymbolId → UInt32}

/-- An instruction that is written out in full is not refused. -/
theorem operation_instruction {s : Simple} (instruction : isInstruction s = true) :
    ∃ operation, s.layout.opcode.symbol.operation? = some operation ∧
      (∀ template, operation ≠ .template template) ∧
      ∀ token n fault, ¬ operation.Refuses (s.layout.pending token n) fault := by
  cases s with
  | define register => cases instruction
  | phaseMarker => cases instruction
  | arithmetic s =>
    refine ⟨.alu, operation_arithmetic s.arity s.opcode.symbol s.opcode.member, nofun,
      fun token n fault refused => ?_⟩
    cases (operands_arithmetic s token n).symm.trans refused
  | texture s =>
    refine ⟨_, operation_texture s.opcode.symbol s.opcode.member, nofun,
      fun token n fault refused => ?_⟩
    obtain ⟨operands, source⟩ := operands_texture s token n
    obtain error | error := refused
    · cases operands.symm.trans error
    · cases source.symm.trans error
  | legacyTexture s =>
    refine ⟨_, operation_legacyTexture s.opcode.symbol s.opcode.member, nofun,
      fun token n fault refused => ?_⟩
    have target : ((Simple.legacyTexture s).layout.pending token n).operand 0 =
        .ok ⟨s.target.code, 0, 0⟩ := Layout.operand_pending _ token n rfl
    cases (interpolator_texRegPs11 s.target.symbol s.target.member).symm.trans
      (refused.2 _ target)

/-- Statements that are instructions fail at undefined reads only. -/
theorem enactAll_instructions (loaded : List (Layout × Token)) (ss : List Simple)
    (same : loaded.map (·.1) = ss.map (·.layout))
    (instructions : ∀ s ∈ ss, isInstruction s = true) {a b : Assembler} {fault : CompileError}
    (failed : enactAll expand loaded a = .error fault b) : fault.IsUndefinedRead := by
  induction ss generalizing loaded a with
  | nil =>
    obtain rfl := List.map_eq_nil_iff.mp same
    cases failed
  | cons s rest ih =>
    obtain ⟨⟨l, token⟩, others, rfl, rfl, sameOthers⟩ := List.map_eq_cons_iff.mp same
    obtain ⟨operation, known, proper, accepted⟩ :=
      operation_instruction (instructions s (List.mem_cons_self ..))
    have plain : Template.ofOpcode? s.layout.opcode.symbol = none := by
      cases found : Template.ofOpcode? s.layout.opcode.symbol with
      | none => rfl
      | some template =>
        have again := (Symbol.operation?_eq_template_iff _ template).mpr found
        exact absurd (Option.some.inj (known.symm.trans again)) (proper template)
    rw [enactAll, bind_apply, enact, bind_apply, modify_apply] at failed
    dsimp only at failed
    -- the statement is loaded and taken out of the pipe again to be built
    rw [flush_of_some rfl] at failed
    have built := build_builds expand plain (a.load s.layout token).pending
      { a.load s.layout token with pending := {} }
    cases outcome : build expand s.layout.opcode.symbol (a.load s.layout token).pending
        { a.load s.layout token with pending := {} } with
    | error other c =>
      rw [outcome] at built
      simp only [outcome] at failed
      cases failed
      obtain ⟨-, read | ⟨-, refused⟩⟩ := built
      · exact read
      · rw [known] at refused
        exact absurd refused (accepted token a.constantsSeen _)
    | ok value c =>
      rw [outcome] at built
      have empty : c.pending = {} := built
      simp only [outcome, empty] at failed
      exact ih others sameOthers
        (fun t member => instructions t (List.mem_cons_of_mem s member)) failed

end Assembly

/-! ### Templates -/

/-- A terminal by its role and symbol. -/
def Terminal.of (rule symbol : Symbol) (listed : rule.terminals.contains symbol = true) :
    Terminal rule where
  symbol
  member := List.contains_iff_mem.mp listed

/-- A register of the bank for the places that no operand fills. -/
def Bank.first : Bank → Symbol
  | temp => .r0
  | legacyTexture => .ps11T0
  | constant => .c0

theorem Bank.mem_terminals {bank : Bank} {register : UInt32} {symbol : Symbol}
    (found : bank.symbolFor? register = some symbol) : symbol ∈ bank.rule.terminals := by
  obtain ⟨index, -, listed⟩ := Option.bind_eq_some_iff.mp found
  have fits : ∀ s ∈ bank.symbols, s ∈ bank.rule.terminals := by cases bank <;> decide
  exact fits symbol (List.mem_of_getElem? listed)

/-- The register of the bank that an operand names. -/
def Bank.pick (bank : Bank) (register? : Option UInt32) : Terminal bank.rule where
  symbol := (register?.bind bank.symbolFor?).getD bank.first
  member := by
    cases found : register?.bind bank.symbolFor? with
    | none => cases bank <;> decide
    | some symbol =>
      obtain ⟨register, -, found⟩ := Option.bind_eq_some_iff.mp found
      exact bank.mem_terminals found

namespace Assembly

variable {expand : Expander} {codeOf : SymbolId → UInt32}

/-- What stands in a place of a template once its operands are known. -/
def leafIn (register? : Nat → Option UInt32) (row : Terminal .dstMask) : TemplateItem → Leaf
  | .token symbol rule => ⟨symbol, rule⟩
  | .rowMask => row.leaf
  | .operand bank index => (bank.pick (register? index)).leaf

/-- The statements that an opcode stands for. The first operand names a temp register `x` and
a texture register `t` before it is known that they have the same number. -/
def statementsOf (x y : Terminal .tempReg) (t : Terminal .texRegPs11) (z : Terminal .constReg)
    (row : Terminal .dstMask) : Symbol → List Simple
  | .texreg2ar =>
    [moveChannel x red y (.of .srcRep .repA rfl), moveChannel x green y (.of .srcRep .repR rfl),
     sample x x]
  | .texreg2gb =>
    [moveChannel x red y (.of .srcRep .repG rfl), moveChannel x green y (.of .srcRep .repB rfl),
     sample x x]
  | .texdp3 => [passCoordinates t, dotProduct ⟨none, none, x, none⟩ (.temp x) (.temp y)]
  | .texdp3tex =>
    [passCoordinates t, dotProduct ⟨none, none, x, none⟩ (.temp x) (.temp y), sample x x]
  | .texm3x2pad => rowOf red
  | .texm3x2tex => rowOf green ++ [sample x scratch5]
  | .texm3x3pad => rowOf row
  | .texm3x3tex => rowOf blue ++ [sample x scratch5]
  | .texm3x3spec =>
    rowOf blue ++
      [dotProduct ⟨some (.of .dstMod .x2 rfl), none, scratch4, some rgb⟩ (.temp scratch5)
         (.constant z),
       binary (.of .binaryOp .mul rfl) (masked scratch4 rgb) (.temp scratch4) (.temp scratch5),
       dotProduct (masked x rgb) (.temp scratch5) (.temp scratch5),
       .arithmetic ⟨none, .three, .of .ternaryOp .mad rfl, masked scratch5 rgb,
         [⟨some (.of .preSrcMod .negate rfl), .constant z, none, none⟩, plain (.temp x),
          plain (.temp scratch4)], rfl⟩,
       sample x scratch5]
  | _ => []
where
  rowOf (channel : Terminal .dstMask) : List Simple :=
    [passCoordinates t, dotProduct (masked scratch5 channel) (.temp x) (.temp y)]

theorem instructions_statementsOf (x y : Terminal .tempReg) (t : Terminal .texRegPs11)
    (z : Terminal .constReg) (row : Terminal .dstMask) (opcode : Symbol) :
    ∀ s ∈ statementsOf x y t z row opcode, isInstruction s = true := by
  rw [← List.all_eq_true]
  unfold statementsOf
  split <;> rfl

/-- A template, filled, is a sequence of statements. -/
theorem leaves_statementsOf {opcode : Symbol} {template : Template}
    (known : Template.ofOpcode? opcode = some template) (register? : Nat → Option UInt32)
    (row : Terminal .dstMask) :
    template.map (leafIn register? row) =
      (statementsOf (Bank.pick .temp (register? 0)) (Bank.pick .temp (register? 1))
        (Bank.pick .legacyTexture (register? 0)) (Bank.pick .constant (register? 2)) row
        opcode).flatMap (·.layout.leaves) := by
  unfold Template.ofOpcode? at known
  split at known <;> cases known <;> rfl

private theorem key_of_resolve {register? : Nat → Option UInt32} {row : Terminal .dstMask}
    {place : Place} {item : TemplateItem} {token : Token}
    (resolved : Template.resolve register? row.symbol place item = .ok token) :
    (leafIn register? row item).key = token.key := by
  cases item with
  | token symbol rule =>
    cases resolved
    rfl
  | rowMask =>
    cases resolved
    rfl
  | operand bank index =>
    simp only [Template.resolve] at resolved
    cases filled : register? index with
    | none =>
      rw [filled] at resolved
      cases resolved
    | some register =>
      simp only [filled] at resolved
      cases found : bank.symbolFor? register with
      | none =>
        rw [found] at resolved
        cases resolved
      | some symbol =>
        simp only [found] at resolved
        cases resolved
        simp [leafIn, Bank.pick, filled, found, Terminal.leaf, Leaf.key, Token.key]

theorem keys_expand {template : Template} {register? : Nat → Option UInt32}
    {row : Terminal .dstMask} {place : Place} {tokens : List Token}
    (filled : template.expand register? row.symbol place = .ok tokens) :
    tokens.map Token.key = (template.map (leafIn register? row)).map Leaf.key := by
  have pairs : List.Forall₂ (· = ·)
      ((template.map (leafIn register? row)).map Leaf.key) (tokens.map Token.key) := by
    rw [List.forall₂_map_left_iff, List.forall₂_map_left_iff, List.forall₂_map_right_iff]
    exact (forall₂_of_mapM filled).imp fun _ _ => key_of_resolve
  rw [List.forall₂_eq_eq_eq] at pairs
  exact pairs.symm

theorem exists_rowMask {template : Template} {a b : Assembler} {mask : Symbol}
    (given : nextRowMask template a = .ok mask b) :
    ∃ row : Terminal .dstMask, row.symbol = mask := by
  unfold nextRowMask at given
  split at given
  · cases given
    cases a.secondRow with
    | true => exact ⟨green, rfl⟩
    | false => exact ⟨red, rfl⟩
  · cases given
    exact ⟨red, rfl⟩

/-- With the codes of the dialect, the tokens of an expansion fail at undefined reads only. -/
theorem scanWith_expansion (coded : ∀ s : Symbol, codeOf s.id = s.code) {opcode : Symbol}
    {template : Template} (known : Template.ofOpcode? opcode = some template)
    {register? : Nat → Option UInt32} {row : Terminal .dstMask} {place : Place}
    {tokens : List Token} (filled : template.expand register? row.symbol place = .ok tokens)
    {a b : Assembler} (empty : a.pending = {}) {fault : CompileError}
    (failed : scanWith expand codeOf tokens a = .error fault b) : fault.IsUndefinedRead := by
  let ss := statementsOf (Bank.pick .temp (register? 0)) (Bank.pick .temp (register? 1))
    (Bank.pick .legacyTexture (register? 0)) (Bank.pick .constant (register? 2)) row opcode
  have keys : tokens.map Token.key = ((ss.map (·.layout)).flatMap (·.leaves)).map Leaf.key := by
    rw [keys_expand filled, leaves_statementsOf known, List.flatMap_map]
  obtain ⟨loaded, layouts, -, -, scanned⟩ : ∃ loaded : List (Layout × Token),
      loaded.map (·.1) = ss.map (·.layout) ∧ _ ∧ _ ∧ scanWith expand codeOf tokens = _ :=
    scanWith_statements coded (ss.map (·.layout)) (fun l member => by
      obtain ⟨s, -, rfl⟩ := List.mem_map.mp member
      exact s.loads) keys
  rw [scanned, bind_apply, flush_of_none (by rw [empty])] at failed
  exact enactAll_instructions loaded ss layouts
    (instructions_statementsOf _ _ _ _ row opcode) failed

end Assembly
end PixelAsm
