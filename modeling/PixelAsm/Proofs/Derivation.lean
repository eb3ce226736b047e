import Mathlib.Computability.ContextFreeGrammar
import PixelAsm.Proofs.Parsing

/-!
# Derivations of accepted sources

The grammar of the shader dialects as a context-free grammar over terminals with their roles.
It knows nothing of contexts, of the order in which alternatives are tried or of how the rules
are stored. The terminals of an accepted source are a word of its language, and they keep to
the dialect that the first of them names.
-/
namespace PixelAsm

open Syntax

namespace Dialect

/-! ### The grammar -/

/-- A symbol, a symbol that may be left out, or one or more of a symbol in a row. -/
inductive Nonterminal where
  | phrase (s : Symbol)
  | option (s : Symbol)
  | list (s : Symbol)
  deriving DecidableEq

/-- What the symbols that are no roles stand for, as a list of alternatives. -/
@[simp]
def expansions : Symbol → List (List Nonterminal)
  | .program =>
    [[.phrase .programType, .option .constants, .option .texBlock, .option .aluBlock,
      .option .phaseTwo]]
  | .constants => [[.list .defStmt]]
  | .defStmt =>
    [[.phrase .defOp, .phrase .constReg, .phrase .separator, .phrase .numVal, .phrase .separator,
      .phrase .numVal, .phrase .separator, .phrase .numVal, .phrase .separator, .phrase .numVal]]
  | .phaseTwo => [[.phrase .phaseMarker, .option .texBlock, .option .aluBlock]]
  | .texBlock => [[.list .texStatement]]
  | .texStatement =>
    [[.phrase .texStmtPs14], [.phrase .texCiscStmt], [.phrase .texSpecStmt],
      [.phrase .texStmtPs11]]
  | .texStmtPs14 =>
    [[.phrase .texOpPs14, .phrase .tempReg, .option .dstMask, .phrase .separator,
      .phrase .texSource, .option .texSwizzle]]
  | .texStmtPs11 => [[.phrase .texOpPs11, .phrase .texRegPs11]]
  | .texCiscStmt =>
    [[.phrase .texCiscOp, .phrase .texRegPs11, .phrase .separator, .phrase .texRegPs11]]
  | .texSpecStmt =>
    [[.phrase .texSpecOp, .phrase .texRegPs11, .phrase .separator, .phrase .texRegPs11,
      .phrase .separator, .phrase .constReg]]
  | .aluBlock => [[.list .aluStatement]]
  | .aluStatement => [[.option .coIssueMark, .phrase .aluOp]]
  | .aluOp => [[.phrase .unaryStmt], [.phrase .binaryStmt], [.phrase .ternaryStmt]]
  | .unaryStmt => [[.phrase .unaryOp, .phrase .destInfo, .phrase .separator, .phrase .srcArg]]
  | .binaryStmt =>
    [[.phrase .binaryOp, .phrase .destInfo, .phrase .separator, .phrase .srcArg,
      .phrase .separator, .phrase .srcArg]]
  | .ternaryStmt =>
    [[.phrase .ternaryOp, .phrase .destInfo, .phrase .separator, .phrase .srcArg,
      .phrase .separator, .phrase .srcArg, .phrase .separator, .phrase .srcArg]]
  | .destInfo => [[.option .dstMod, .option .dstSat, .phrase .tempReg, .option .dstMask]]
  | .srcArg => [[.option .preSrcMod, .phrase .srcReg, .option .postSrcMod, .option .srcRep]]
  | .srcReg => [[.phrase .tempReg], [.phrase .constReg], [.phrase .colorReg]]
  | .texSource => [[.phrase .texCoordReg], [.phrase .tempReg]]
  | _ => []

/-- The productions that rewrite a symbol, its option and its list. -/
def productionsOf (s : Symbol) : List (ContextFreeRule Leaf Nonterminal) :=
  (expansions s).map (fun parts => ⟨.phrase s, parts.map .nonterminal⟩) ++
    s.terminals.map (fun t => ⟨.phrase s, [.terminal ⟨t, s⟩]⟩) ++
    [⟨.option s, []⟩, ⟨.option s, [.nonterminal (.phrase s)]⟩,
      ⟨.list s, [.nonterminal (.phrase s)]⟩,
      ⟨.list s, [.nonterminal (.phrase s), .nonterminal (.list s)]⟩]

abbrev contextFree : ContextFreeGrammar Leaf :=
  { NT := Nonterminal, initial := .phrase .program
    rules := (Symbol.all.flatMap productionsOf).toFinset }

theorem mem_contextFree {s : Symbol} {production : ContextFreeRule Leaf Nonterminal}
    (member : production ∈ productionsOf s) : production ∈ contextFree.rules := by
  have known : s ∈ Symbol.all := List.mem_of_getElem? s.ofId?_id
  exact List.mem_toFinset.mpr (List.mem_flatMap.mpr ⟨s, known, member⟩)

/-! ### Words of parts -/

/-- The parts in a row derive these leaves, none of which is a version or a phase marker. -/
structure Yields (parts : List Nonterminal) (leaves : List Leaf) : Prop where
  derives : contextFree.Derives (parts.map .nonterminal) (leaves.map .terminal)
  roles : ∀ l ∈ leaves, l.rule ∈ neutralRoles ∧ l.symbol ∈ l.rule.terminals

/-- Derivations of two words side by side. -/
theorem derives_append {parts others : List Nonterminal} {leaves more : List Leaf}
    (first : contextFree.Derives (parts.map .nonterminal) (leaves.map .terminal))
    (second : contextFree.Derives (others.map .nonterminal) (more.map .terminal)) :
    contextFree.Derives ((parts ++ others).map .nonterminal) ((leaves ++ more).map .terminal) := by
  rw [List.map_append, List.map_append]
  exact (first.append_right _).trans (second.append_left _)

/-- A derivation that starts with a production. -/
theorem derives_production {s : Symbol} {head : Nonterminal} {parts : List Nonterminal}
    {leaves : List Leaf} (member : ⟨head, parts.map .nonterminal⟩ ∈ productionsOf s)
    (rest : contextFree.Derives (parts.map .nonterminal) (leaves.map .terminal)) :
    contextFree.Derives ([head].map .nonterminal) (leaves.map .terminal) := by
  have step : contextFree.Produces ([head].map .nonterminal) (parts.map .nonterminal) :=
    ⟨_, mem_contextFree member, ContextFreeRule.Rewrites.input_output⟩
  exact step.trans_derives rest

theorem derives_role {s : Symbol} (t : Terminal s) :
    contextFree.Derives ([Nonterminal.phrase s].map .nonterminal) ([t.leaf].map .terminal) := by
  have member : ⟨.phrase s, [.terminal t.leaf]⟩ ∈ productionsOf s := by
    simp only [productionsOf, List.mem_append, List.mem_map]
    exact .inl (.inr ⟨t.symbol, t.member, rfl⟩)
  have step : contextFree.Produces ([Nonterminal.phrase s].map .nonterminal)
      ([t.leaf].map .terminal) :=
    ⟨_, mem_contextFree member, ContextFreeRule.Rewrites.input_output⟩
  exact step.single

namespace Yields

theorem nothing : Yields [] [] := ⟨.refl [], by simp⟩

theorem andThen {parts others : List Nonterminal} {leaves more : List Leaf}
    (first : Yields parts leaves) (second : Yields others more) :
    Yields (parts ++ others) (leaves ++ more) := by
  refine ⟨derives_append first.derives second.derives, fun l member => ?_⟩
  rcases List.mem_append.mp member with left | right
  · exact first.roles l left
  · exact second.roles l right

theorem produced {s : Symbol} {head : Nonterminal} {parts : List Nonterminal}
    {leaves : List Leaf} (rest : Yields parts leaves)
    (member : ⟨head, parts.map .nonterminal⟩ ∈ productionsOf s) : Yields [head] leaves :=
  ⟨derives_production member rest.derives, rest.roles⟩

theorem expanded {s : Symbol} {parts : List Nonterminal} {leaves : List Leaf}
    (rest : Yields parts leaves) (member : parts ∈ expansions s) : Yields [.phrase s] leaves := by
  apply rest.produced
  simp only [productionsOf, List.mem_append, List.mem_map]
  exact .inl (.inl ⟨parts, member, rfl⟩)

theorem role {s : Symbol} (neutral : s ∈ neutralRoles) (t : Terminal s) :
    Yields [.phrase s] [t.leaf] := by
  refine ⟨derives_role t, fun l member => ?_⟩
  rw [List.mem_singleton.mp member]
  exact ⟨neutral, t.member⟩

theorem absent (s : Symbol) : Yields [.option s] [] :=
  nothing.produced (s := s) (by simp [productionsOf])

theorem present {s : Symbol} {leaves : List Leaf} (rest : Yields [.phrase s] leaves) :
    Yields [.option s] leaves :=
  rest.produced (s := s) (by simp [productionsOf])

theorem optionalRole {s : Symbol} (neutral : s ∈ neutralRoles) (t? : Option (Terminal s)) :
    Yields [.option s] (Terminal.leaves t?) := by
  cases t? with
  | none => exact absent s
  | some t => exact (role neutral t).present

/-- Items of a kind in a row, at least one. -/
theorem several {α : Type} {s : Symbol} {leaves : α → List Leaf}
    (each : ∀ x, Yields [.phrase s] (leaves x)) (x : α) (xs : List α) :
    Yields [.list s] ((x :: xs).flatMap leaves) := by
  induction xs generalizing x with
  | nil =>
    have one : Yields [.list s] (leaves x) := (each x).produced (s := s) (by simp [productionsOf])
    simpa using one
  | cons y ys ih =>
    have more : Yields [.list s] (leaves x ++ (y :: ys).flatMap leaves) :=
      ((each x).andThen (ih y)).produced (s := s) (by simp [productionsOf])
    simpa using more

/-- A block that is a list of items and is left out if there are none. -/
theorem block {α : Type} {s item : Symbol} {leaves : α → List Leaf}
    (items : [.list item] ∈ expansions s) (each : ∀ x, Yields [.phrase item] (leaves x))
    (xs : List α) : Yields [.option s] (xs.flatMap leaves) := by
  cases xs with
  | nil => exact absent s
  | cons x xs => exact ((several each x xs).expanded items).present

end Yields

/-! ### Trees derive their leaves -/

theorem yields_comma : Yields [.phrase .separator] [comma] :=
  Yields.role (by decide) ⟨.comma, by decide⟩

theorem yields_numeral : Yields [.phrase .numVal] [numeral] :=
  Yields.role (by decide) ⟨.value, by decide⟩

theorem yields_destination (d : Destination) : Yields [.phrase .destInfo] d.leaves := by
  have parts := (Yields.optionalRole (by decide) d.scale?).andThen
    ((Yields.optionalRole (by decide) d.saturate?).andThen
      ((Yields.role (by decide) d.register).andThen
        (Yields.optionalRole (by decide) d.mask?)))
  have whole := parts.expanded (s := .destInfo) (by simp)
  simpa [Destination.leaves] using whole

theorem yields_sourceRegister (r : SourceRegister) : Yields [.phrase .srcReg] [r.leaf] := by
  cases r with
  | temp r => exact (Yields.role (by decide) r).expanded (by simp)
  | constant r => exact (Yields.role (by decide) r).expanded (by simp)
  | color r => exact (Yields.role (by decide) r).expanded (by simp)

theorem yields_source (s : Source) : Yields [.phrase .srcArg] s.leaves := by
  have parts := (Yields.optionalRole (by decide) s.before?).andThen
    ((yields_sourceRegister s.register).andThen
      ((Yields.optionalRole (by decide) s.behind?).andThen
        (Yields.optionalRole (by decide) s.replicate?)))
  have whole := parts.expanded (s := .srcArg) (by simp)
  simpa [Source.leaves] using whole

/-- A separator and a source, as often as there are sources. -/
def sourceParts : Nat → List Nonterminal
  | 0 => []
  | n + 1 => .phrase .separator :: .phrase .srcArg :: sourceParts n

theorem yields_sources (sources : List Source) :
    Yields (sourceParts sources.length) (sources.flatMap (comma :: ·.leaves)) := by
  induction sources with
  | nil => exact .nothing
  | cons s rest ih =>
    have more := yields_comma.andThen ((yields_source s).andThen ih)
    simpa [sourceParts] using more

theorem yields_arithmetic (s : Arithmetic) :
    Yields [.phrase .aluStatement] (Simple.arithmetic s).layout.leaves := by
  obtain ⟨coIssue?, arity, opcode, target, sources, length⟩ := s
  have role : opcodeRule arity ∈ neutralRoles := by cases arity <;> decide
  have parts := (Yields.role role opcode).andThen
    ((yields_destination target).andThen (yields_sources sources))
  rw [length] at parts
  have statement := parts.expanded (s := statementRule arity)
    (by cases arity <;> simp [statementRule, opcodeRule, sourceParts, Arity.count])
  have operation := statement.expanded (s := .aluOp)
    (by cases arity <;> simp [statementRule])
  have whole := ((Yields.optionalRole (by decide) coIssue?).andThen operation).expanded
    (s := .aluStatement) (by simp)
  simpa [Simple.layout, Layout.leaves, Layout.operandLeaves, List.flatMap_map] using whole

theorem yields_coordinates (c : Coordinates) : Yields [.phrase .texSource] [c.leaf] := by
  cases c with
  | interpolator r => exact (Yields.role (by decide) r).expanded (by simp)
  | temp r => exact (Yields.role (by decide) r).expanded (by simp)

theorem yields_texture (s : Texture) :
    Yields [.phrase .texStmtPs14] (Simple.texture s).layout.leaves := by
  have parts := (Yields.role (by decide) s.opcode).andThen
    ((Yields.role (by decide) s.target).andThen
      ((Yields.optionalRole (by decide) s.mask?).andThen
        (yields_comma.andThen
          ((yields_coordinates s.coordinates).andThen
            (Yields.optionalRole (by decide) s.swizzle?)))))
  have whole := parts.expanded (s := .texStmtPs14) (by simp)
  simpa [Simple.layout, Layout.leaves, Layout.operandLeaves] using whole

theorem yields_legacyTexture (s : LegacyTexture) :
    Yields [.phrase .texStmtPs11] (Simple.legacyTexture s).layout.leaves := by
  have parts := (Yields.role (by decide) s.opcode).andThen (Yields.role (by decide) s.target)
  have whole := parts.expanded (s := .texStmtPs11) (by simp)
  simpa [Simple.layout, Layout.leaves, Layout.operandLeaves] using whole

theorem yields_plain (opcode : Terminal .texCiscOp) (x y : Terminal .texRegPs11) :
    Yields [.phrase .texCiscStmt] (Composite.plain opcode x y).layout.leaves := by
  have parts := (Yields.role (by decide) opcode).andThen ((Yields.role (by decide) x).andThen
    (yields_comma.andThen (Yields.role (by decide) y)))
  have whole := parts.expanded (s := .texCiscStmt) (by simp)
  simpa [Composite.layout, Layout.leaves, Layout.operandLeaves] using whole

theorem yields_reflection (opcode : Terminal .texSpecOp) (x y : Terminal .texRegPs11)
    (z : Terminal .constReg) :
    Yields [.phrase .texSpecStmt] (Composite.reflection opcode x y z).layout.leaves := by
  have parts := (Yields.role (by decide) opcode).andThen ((Yields.role (by decide) x).andThen
    (yields_comma.andThen ((Yields.role (by decide) y).andThen
      (yields_comma.andThen (Yields.role (by decide) z)))))
  have whole := parts.expanded (s := .texSpecStmt) (by simp)
  simpa [Composite.layout, Layout.leaves, Layout.operandLeaves] using whole

theorem yields_textureStatement (s : TextureStatement) :
    Yields [.phrase .texStatement] s.statement.leaves := by
  cases s with
  | current s => exact (yields_texture s).expanded (by simp)
  | legacy s => exact (yields_legacyTexture s).expanded (by simp)
  | composite s =>
    cases s with
    | plain opcode x y => exact (yields_plain opcode x y).expanded (by simp)
    | reflection opcode x y z =>
      exact (yields_reflection opcode x y z).expanded (by simp)

theorem yields_define (register : Terminal .constReg) :
    Yields [.phrase .defStmt] (Simple.define register).layout.leaves := by
  have value := yields_comma.andThen yields_numeral
  have opcode : Yields [.phrase .defOp] [⟨.define, .defOp⟩] :=
    Yields.role (by decide) ⟨.define, by decide⟩
  have parts := opcode.andThen
    ((Yields.role (by decide) register).andThen
      (value.andThen (value.andThen (value.andThen value))))
  have whole := parts.expanded (s := .defStmt) (by simp)
  simpa [Simple.layout, Layout.leaves, Layout.operandLeaves, Terminal.leaf] using whole

theorem yields_block (b : Block) :
    Yields [.option .texBlock, .option .aluBlock] (b.statements.flatMap (·.leaves)) := by
  have textures := Yields.block (s := .texBlock) (by simp) yields_textureStatement
    b.textures
  have arithmetic := Yields.block (s := .aluBlock) (by simp) yields_arithmetic
    b.arithmetic
  have both := textures.andThen arithmetic
  simpa [Block.statements, List.flatMap_map, Statement.leaves, Statement.layout] using both

theorem yields_firstStatements (p : Shader) :
    Yields [.option .constants, .option .texBlock, .option .aluBlock]
      (p.firstStatements.flatMap (·.leaves)) := by
  have constants := Yields.block (s := .constants) (by simp) yields_define
    p.definitions
  have all := constants.andThen (yields_block p.first)
  simpa [Shader.firstStatements, List.flatMap_map, Statement.leaves, Statement.layout] using all

theorem derives_secondStatements (p : Shader) :
    contextFree.Derives ([Nonterminal.option .phaseTwo].map .nonterminal)
      ((p.secondStatements.flatMap (·.leaves)).map .terminal) := by
  cases second : p.second? with
  | none => simpa [Shader.secondStatements, second] using (Yields.absent .phaseTwo).derives
  | some block =>
    have marker := derives_role ⟨.phase, by decide⟩ (s := .phaseMarker)
    have part := derives_append marker (yields_block block).derives
    have phrase : contextFree.Derives ([Nonterminal.phrase .phaseTwo].map .nonterminal) _ :=
      derives_production (s := .phaseTwo) (by simp [productionsOf]) part
    have option : contextFree.Derives ([Nonterminal.option .phaseTwo].map .nonterminal) _ :=
      derives_production (s := .phaseTwo) (by simp [productionsOf]) phrase
    simpa [Shader.secondStatements, second, Statement.leaves, Statement.layout, Simple.layout,
      Layout.leaves, Layout.operandLeaves, Terminal.leaf] using option

/-- The leaves of a program are a word of the language. -/
theorem leaves_mem_language (p : Shader) : p.leaves ∈ contextFree.language := by
  have parts := derives_append (derives_role p.version)
    (derives_append (yields_firstStatements p).derives (derives_secondStatements p))
  have program : contextFree.Derives ([Nonterminal.phrase .program].map .nonterminal) _ :=
    derives_production (s := .program) (by simp [productionsOf]) parts
  simpa [Shader.leaves, Shader.statements] using program

/-! ### Dialects -/

def versions : List Symbol := [.ps11, .ps12, .ps13, .ps14]

/-- The symbols of ps.1.4 alone. -/
def currentSymbols : List Symbol :=
  [.r0, .r1, .r2, .r3, .r4, .r5, .t0, .t1, .t2, .t3, .t4, .t5, .texcrd, .texld, .dp2Add, .phase]

/-- The symbols of the dialects before ps.1.4 alone. -/
def legacySymbols : List Symbol :=
  [.ps11R0, .ps11R1, .ps11T0, .ps11T1, .ps11T2, .ps11T3, .tex, .texcoord, .texreg2ar, .texreg2gb,
   .texdp3, .texdp3tex, .texm3x2pad, .texm3x2tex, .texm3x3pad, .texm3x3tex, .texm3x3spec]

/-- The symbols that ps.1.1 does not have yet. -/
def laterSymbols : List Symbol := [.texdp3, .texdp3tex, .cmp, .dp4]

/-- The symbols that a dialect excludes. -/
def excluded (version : Symbol) : List Symbol :=
  if version = .ps14 then legacySymbols
  else if version = .ps11 then currentSymbols ++ laterSymbols
  else currentSymbols

/-- The leaves are those of one version, and the contexts at the end are those of its family. -/
structure KeepsToVersion (leaves : List Leaf) (contexts : UInt32) : Prop where
  version : ∃ version ∈ versions, ∃ rest, leaves = ⟨version, .programType⟩ :: rest ∧
    ∀ l ∈ rest, l.symbol ∉ versions ∧ l.symbol ∉ excluded version
  phases : leaves.countP (·.symbol = .phase) ≤ 1
  family : contexts &&& Context.ps11 ≠ 0 ↔ contexts &&& Context.ps14 = 0

/-- Versions and phase markers have roles of their own. -/
private theorem neutralRoles_inner :
    ∀ s ∈ neutralRoles, ∀ t ∈ s.terminals, t ∉ versions ∧ t ≠ .phase := by
  decide

private theorem excluded_inactive : ∀ version ∈ versions, ∀ t ∈ excluded version,
    t.contextKey &&& (Context.base ||| version.contextSet) = 0 := by
  decide

private theorem version_family : ∀ version ∈ versions,
    let opened := Context.base ||| version.contextSet
    let cleared := opened &&& ~~~Context.phase1
    (opened &&& Context.ps11 ≠ 0 ↔ opened &&& Context.ps14 = 0) ∧
      (cleared &&& Context.ps11 ≠ 0 ↔ cleared &&& Context.ps14 = 0) := by
  decide

private theorem mem_versions (version : Terminal .programType) : version.symbol ∈ versions := by
  have among : ∀ t ∈ Symbol.terminals .programType, t ∈ versions := by decide
  exact among _ version.member

theorem Yields.inner {parts : List Nonterminal} {leaves : List Leaf}
    (yields : Yields parts leaves) {l : Leaf} (member : l ∈ leaves) :
    l.symbol ∉ versions ∧ l.symbol ≠ .phase := by
  obtain ⟨neutral, terminal⟩ := yields.roles l member
  exact neutralRoles_inner _ neutral _ terminal

theorem leaves_marker : (Statement.simple .phaseMarker).leaves = [⟨.phase, .phaseMarker⟩] := by
  simp [Statement.leaves, Statement.layout, Simple.layout, Layout.leaves, Layout.operandLeaves]

/-- A leaf behind the version stands in a statement, or is the phase marker. -/
theorem statement_leaf {p : Shader} {l : Leaf} (member : l ∈ p.statements.flatMap (·.leaves)) :
    l ∈ p.firstStatements.flatMap (·.leaves) ∨ ∃ block, p.second? = some block ∧
      (l = ⟨.phase, .phaseMarker⟩ ∨ l ∈ block.statements.flatMap (·.leaves)) := by
  rw [Shader.statements, List.flatMap_append, List.mem_append] at member
  rcases member with first | second
  · exact .inl first
  · cases found : p.second? with
    | none => simp [Shader.secondStatements, found] at second
    | some block =>
      rw [Shader.secondStatements, found, List.flatMap_cons, leaves_marker] at second
      exact .inr ⟨block, rfl, by simpa using second⟩

/-- Every leaf behind the version is active in the contexts that the version opens. -/
theorem active_statements {p : Shader} (dialect : p.InDialect) :
    Active p.openContexts (p.statements.flatMap (·.leaves)) := by
  intro l member
  rcases statement_leaf member with first | ⟨block, found, rfl | inside⟩
  · exact dialect.first l first
  · exact (dialect.second block found).1
  · -- the marker only closes a context
    intro off
    apply (dialect.second block found).2 l inside
    rw [← UInt32.and_assoc, off, UInt32.zero_and]

theorem countP_phase_le (p : Shader) : p.leaves.countP (·.symbol = .phase) ≤ 1 := by
  have none {parts : List Nonterminal} {leaves : List Leaf} (yields : Yields parts leaves) :
      leaves.countP (·.symbol = .phase) = 0 := by
    rw [List.countP_eq_zero]
    intro l member
    simpa using (yields.inner member).2
  have version : p.version.symbol ≠ .phase := by
    intro same
    have member := p.version.member
    rw [same] at member
    revert member
    decide
  have second : (p.secondStatements.flatMap (·.leaves)).countP (·.symbol = .phase) ≤ 1 := by
    cases found : p.second? with
    | none => simp [Shader.secondStatements, found]
    | some block =>
      rw [Shader.secondStatements, found, List.flatMap_cons, leaves_marker, List.countP_append,
        none (yields_block block)]
      simp
  rw [Shader.leaves, Shader.statements, List.flatMap_append, List.countP_cons,
    List.countP_append, none (yields_firstStatements p)]
  simpa [Terminal.leaf, version] using second

theorem keepsToVersion {p : Shader} (dialect : p.InDialect) :
    KeepsToVersion p.leaves p.finalContexts where
  version := by
    have known := mem_versions p.version
    refine ⟨p.version.symbol, known, _, rfl, fun l member => ⟨?_, ?_⟩⟩
    · rcases statement_leaf member with first | ⟨block, -, rfl | inside⟩
      · exact ((yields_firstStatements p).inner first).1
      · decide
      · exact ((yields_block block).inner inside).1
    · intro excluded
      exact active_statements dialect l member (excluded_inactive _ known _ excluded)
  phases := countP_phase_le p
  family := by
    have known := mem_versions p.version
    obtain ⟨opened, cleared⟩ := version_family _ known
    unfold Shader.finalContexts Shader.openContexts
    split
    · exact cleared
    · exact opened

/-- What the grammar accepts is derived by the context-free grammar and keeps to a version. -/
theorem read_derives {g : Grammar} (dialect : grammar = .ok g) {source : String}
    {previous r : Reading} (accepted : g.read source previous = (.ok (), r)) :
    ∃ leaves, r.tokens.map Token.key = leaves.map Leaf.key ∧ leaves ∈ contextFree.language ∧
      KeepsToVersion leaves r.contexts := by
  rw [grammar_eq_linked] at dialect
  cases dialect
  obtain ⟨p, represents⟩ := read_represents accepted
  refine ⟨p.leaves, represents.tokens, leaves_mem_language p, ?_⟩
  rw [represents.contexts]
  exact keepsToVersion represents.dialect

def twoPhasesText : String := "ps.1.4\ntexld r0, t0\nphase\n+mov_sat r0.rgb, 1-r0"

private theorem read_twoPhasesText : (linked.read twoPhasesText {}).1 = .ok () := by
  decide +kernel

theorem read_derives_twoPhases :
    ∃ r, linked.read twoPhasesText {} = (.ok (), r) ∧
      ∃ leaves, r.tokens.map Token.key = leaves.map Leaf.key ∧ leaves ∈ contextFree.language ∧
        KeepsToVersion leaves r.contexts := by
  have accepted := read_twoPhasesText
  cases found : linked.read twoPhasesText {} with
  | mk verdict r =>
    rw [found] at accepted
    cases accepted
    exact ⟨r, rfl, read_derives grammar_eq_linked found⟩

end Dialect
end PixelAsm
