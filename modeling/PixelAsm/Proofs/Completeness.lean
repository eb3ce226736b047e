import PixelAsm.Proofs.Lookahead

/-!
# Every text of a program is read as the program

Rules are tried in a fixed order and take what they can, so a rule may take a text that was
meant for another one. In the texts of programs this does not happen. For each tree we show
that its rule takes its leaves and stops behind them; what has to be known of the text that
follows is with which roles it can start.
-/
namespace PixelAsm

open Syntax Grammar

namespace Dialect

/-! ### Pieces, sequences and choices -/

section

variable {owner : SymbolId} {term : Term} {piece : Piece} {pieces : List Piece}
  {others : List (List Piece)} {contexts before between after : UInt32}
  {text middle rest : List UInt8} {ls ks : List Leaf} {us ws : List Binary32}

theorem Accepts.one (accepts : Accepts (.term owner term) before text ls us after rest) :
    Accepts (.piece owner (.one term)) before text ls us after rest := by
  intro p here
  obtain ⟨q, evaluates, arrived⟩ := accepts p here
  exact ⟨q, .one evaluates, arrived⟩

theorem Accepts.present (accepts : Accepts (.term owner term) before text ls us after rest) :
    Accepts (.piece owner (.optional term)) before text ls us after rest := by
  intro p here
  obtain ⟨q, evaluates, arrived⟩ := accepts p here
  exact ⟨q, .optional evaluates, arrived⟩

theorem Accepts.absent (refuses : Refuses (.term owner term) contexts text) :
    Accepts (.piece owner (.optional term)) contexts text [] [] contexts text := by
  intro p here
  exact ⟨p, .optional (refuses p here), here, .refl p⟩

theorem Accepts.finished : Accepts (.sequence owner []) contexts text [] [] contexts text := by
  intro p here
  exact ⟨p, .finished, here, .refl p⟩

theorem Accepts.andThen (first : Accepts (.piece owner piece) before text ls us between middle)
    (second : Accepts (.sequence owner pieces) between middle ks ws after rest) :
    Accepts (.sequence owner (piece :: pieces)) before text (ls ++ ks) (us ++ ws) after rest := by
  intro p here
  obtain ⟨q, holds, there, gains⟩ := first p here
  obtain ⟨r, others, arrived, more⟩ := second q there
  exact ⟨r, .andThen holds others, arrived, gains.trans more⟩

theorem Accepts.last (only : Accepts (.piece owner piece) before text ls us after rest) :
    Accepts (.sequence owner [piece]) before text ls us after rest := by
  intro p here
  obtain ⟨q, holds, arrived⟩ := only p here
  exact ⟨q, .andThen holds .finished, arrived⟩

theorem Accepts.chosen (accepts : Accepts (.sequence owner pieces) before text ls us after rest) :
    Accepts (.first owner (pieces :: others)) before text ls us after rest := by
  intro p here
  obtain ⟨q, evaluates, arrived⟩ := accepts p here
  exact ⟨q, .chosen evaluates, arrived⟩

theorem Accepts.passedOver (fails : Refuses (.sequence owner pieces) before text)
    (accepts : Accepts (.first owner others) before text ls us after rest) :
    Accepts (.first owner (pieces :: others)) before text ls us after rest := by
  intro p here
  obtain ⟨q, evaluates, arrived⟩ := accepts p here
  exact ⟨q, .passedOver (fails p here) evaluates, arrived⟩

theorem Refuses.stopped (refuses : Refuses (.term owner term) contexts text) :
    Refuses (.sequence owner (.one term :: pieces)) contexts text := by
  intro p here
  exact .stopped (.one (refuses p here))

theorem Refuses.passedOver (fails : Refuses (.sequence owner pieces) contexts text)
    (refuses : Refuses (.first owner others) contexts text) :
    Refuses (.first owner (pieces :: others)) contexts text := by
  intro p here
  exact .passedOver (fails p here) (refuses p here)

theorem Refuses.exhausted : Refuses (.first owner []) contexts text := fun _ _ => .exhausted

end

/-! ### Rules of several parts -/

theorem alternativesOf_composite {s : Symbol} (composite : s ∈ composites) :
    alternativesOf s = (Alternatives.ofSteps (production s ++ [.done])).all := by
  rw [alternativesOf, body_composite s composite]

/-- The rules that some dialects do not have. -/
def gatedRules : List Symbol := [.texStmtPs14, .phaseTwo, .texStmtPs11, .texCiscStmt, .texSpecStmt]

private theorem composites_active : ∀ s ∈ composites, hasRule s = true ∧
    (s ∈ gatedRules ∨ s.contextKey = Context.base) := by
  decide

section

variable {owner : SymbolId} {s : Symbol} {contexts : UInt32} {text : List UInt8}

theorem Accepts.gated (composite : s ∈ composites) (active : s.contextKey &&& contexts ≠ 0)
    {leaves : List Leaf} {values : List Binary32} {after : UInt32} {rest : List UInt8}
    (chosen : Accepts (.first s.id (Alternatives.ofSteps (production s ++ [.done])).all) contexts
      text leaves values after rest) :
    Accepts (.term owner (bare s)) contexts text leaves values after rest := by
  refine Accepts.rule (composites_active s composite).1 active ?_
  rwa [alternativesOf_composite composite]

theorem Accepts.composite (composite : s ∈ composites ∧ s ∉ gatedRules)
    (known : contexts ∈ dialects) {leaves : List Leaf} {values : List Binary32} {after : UInt32}
    {rest : List UInt8}
    (chosen : Accepts (.first s.id (Alternatives.ofSteps (production s ++ [.done])).all) contexts
      text leaves values after rest) :
    Accepts (.term owner (bare s)) contexts text leaves values after rest := by
  have key := (composites_active s composite.1).2.resolve_left composite.2
  have active := base_active contexts (List.mem_cons_of_mem _ known)
  exact .gated composite.1 (by rw [key]; exact active) chosen

theorem Refuses.composite (composite : s ∈ composites)
    (failed : Refuses (.first s.id (Alternatives.ofSteps (production s ++ [.done])).all) contexts
      text) :
    Refuses (.term owner (bare s)) contexts text := by
  by_cases active : s.contextKey &&& contexts = 0
  · exact .inactive active
  · refine Refuses.rule (composites_active s composite).1 active ?_
    rwa [alternativesOf_composite composite]

/-- A rule without alternatives fails with its first part. -/
theorem Refuses.opening (composite : s ∈ composites) {r : Symbol} {pieces : List Piece}
    (shape : (Alternatives.ofSteps (production s ++ [.done])).all = [.one (bare r) :: pieces])
    (refused : Refuses (.term s.id (bare r)) contexts text) :
    Refuses (.term owner (bare s)) contexts text := by
  refine .composite composite ?_
  rw [shape]
  exact .passedOver (.stopped refused) .exhausted

end

section

variable {owner : SymbolId} {s : Symbol} {contexts : UInt32} {closing : List UInt8 → Prop}
  {text rest : List UInt8} {values : List Binary32}

/-- A terminal that may be left out. -/
theorem accepts_option (role : s ∈ plainRoles) (known : contexts ∈ dialects)
    {t? : Option (Terminal s)}
    (stands : Stands contexts closing (Terminal.leaves t?) text rest values)
    (next : StartsWith (passedOver s) contexts rest) (ends : Ends s contexts closing rest) :
    Accepts (.piece owner (.optional (bare s))) contexts text (Terminal.leaves t?) values contexts
      rest := by
  cases t? with
  | none =>
    obtain ⟨rfl, rfl⟩ := Stands.nothing stands
    exact .absent (refuses_role ⟨(plainRoles_subset s role).1, List.Subset.refl _⟩ known next)
  | some t => exact .present (accepts_role role known stands ends)

/-- A rule without alternatives is passed over where its first role is. -/
theorem refuses_rule (composite : s ∈ composites) {r : Symbol} {pieces : List Piece}
    (shape : (Alternatives.ofSteps (production s ++ [.done])).all = [.one (bare r) :: pieces])
    {rules : List Symbol} (role : r ∈ literalRoles ∧ rules ⊆ passedOver r)
    (known : contexts ∈ dialects) (starts : StartsWith rules contexts text) :
    Refuses (.term owner (bare s)) contexts text :=
  .opening composite shape (refuses_role role known starts)

/-! ### Operands -/

theorem accepts_destInfo (known : contexts ∈ dialects) {d : Destination}
    (stands : Stands contexts closing d.leaves text rest values)
    (next : StartsWith [.separator] contexts rest) :
    Accepts (.term owner (bare .destInfo)) contexts text d.leaves values contexts rest := by
  have shape : d.leaves = Terminal.leaves d.scale? ++ (Terminal.leaves d.saturate? ++
      ([d.register.leaf] ++ Terminal.leaves d.mask?)) := by simp [Destination.leaves]
  rw [shape] at stands ⊢
  obtain ⟨_, _, _, scale, behindScale, rfl⟩ := stands.split
  obtain ⟨_, _, _, saturate, behindSaturate, rfl⟩ := behindScale.split
  obtain ⟨_, _, _, register, mask, rfl⟩ := behindSaturate.split
  have atRegister := register.startsWith (by decide)
  have atSaturate := saturate.startsWith_option (by decide) atRegister
  refine .composite (by decide) known (.chosen ?_)
  refine .andThen (accepts_option (by decide) known scale atSaturate (.inl (by decide))) ?_
  refine .andThen (accepts_option (by decide) known saturate atRegister (.inl (by decide))) ?_
  refine .andThen (.one (accepts_fixed (by decide) known register)) ?_
  exact .last (accepts_option (by decide) known mask next (.inr (.inr next)))

/-- The roles with which a source register is read. -/
def registerRoles : List Symbol := [.tempReg, .constReg, .colorReg]

theorem startsWith_register {r : SourceRegister}
    (stands : Stands contexts closing [r.leaf] text rest values) :
    StartsWith registerRoles contexts text := by
  cases r with
  | temp t => exact (Stands.startsWith (t := t) (by decide) stands).mono (by decide)
  | constant t => exact (Stands.startsWith (t := t) (by decide) stands).mono (by decide)
  | color t => exact (Stands.startsWith (t := t) (by decide) stands).mono (by decide)

theorem accepts_srcReg (known : contexts ∈ dialects) {r : SourceRegister}
    (stands : Stands contexts closing [r.leaf] text rest values) :
    Accepts (.term owner (bare .srcReg)) contexts text [r.leaf] values contexts rest := by
  refine .composite (by decide) known ?_
  cases r with
  | temp t =>
    exact .chosen (.last (.one (accepts_fixed (t := t) (by decide) known stands)))
  | constant t =>
    have starts := Stands.startsWith (t := t) (by decide) stands
    refine .passedOver (.stopped (refuses_role (by decide) known starts)) ?_
    exact .chosen (.last (.one (accepts_fixed (t := t) (by decide) known stands)))
  | color t =>
    have starts := Stands.startsWith (t := t) (by decide) stands
    refine .passedOver (.stopped (refuses_role (by decide) known starts)) ?_
    refine .passedOver (.stopped (refuses_role (by decide) known starts)) ?_
    exact .chosen (.last (.one (accepts_fixed (t := t) (by decide) known stands)))

theorem accepts_srcArg (known : contexts ∈ dialects) {a : Source}
    (stands : Stands contexts closing a.leaves text rest values)
    (next : StartsWith (.separator :: startRoles) contexts rest) :
    Accepts (.term owner (bare .srcArg)) contexts text a.leaves values contexts rest := by
  have shape : a.leaves = Terminal.leaves a.before? ++ ([a.register.leaf] ++
      (Terminal.leaves a.behind? ++ Terminal.leaves a.replicate?)) := by simp [Source.leaves]
  rw [shape] at stands ⊢
  obtain ⟨_, _, _, modifier, behindModifier, rfl⟩ := stands.split
  obtain ⟨_, _, _, register, behindRegister, rfl⟩ := behindModifier.split
  obtain ⟨_, _, _, behind, replicate, rfl⟩ := behindRegister.split
  have atRegister := startsWith_register register
  have atReplicate := replicate.startsWith_option (by decide) next
  refine .composite (by decide) known (.chosen ?_)
  refine .andThen (accepts_option (by decide) known modifier atRegister (.inl (by decide))) ?_
  refine .andThen (.one (accepts_srcReg known register)) ?_
  refine .andThen (accepts_option (by decide) known behind atReplicate (.inl (by decide))) ?_
  exact .last (accepts_option (by decide) known replicate next (.inl (by decide)))

/-! ### Arithmetic -/

def separator : Terminal .separator := { symbol := .comma, member := by decide }

/-- The pieces for a number of sources. -/
def sourcePieces : Nat → List Piece
  | 0 => []
  | n + 1 => .one (bare .separator) :: .one (bare .srcArg) :: sourcePieces n

theorem startsWith_sources {sources : List Source}
    (stands : Stands contexts closing (sources.flatMap (comma :: ·.leaves)) text rest values)
    (next : StartsWith startRoles contexts rest) :
    StartsWith (.separator :: startRoles) contexts text := by
  cases sources with
  | nil =>
    obtain ⟨rfl, -⟩ := Stands.nothing stands
    exact next.mono (List.subset_cons_self _ _)
  | cons a sources =>
    exact (Stands.startsWith (t := separator) (by decide) stands).mono (by decide)

theorem accepts_sources (known : contexts ∈ dialects) {sources : List Source}
    (stands : Stands contexts closing (sources.flatMap (comma :: ·.leaves)) text rest values)
    (next : StartsWith startRoles contexts rest) :
    Accepts (.sequence owner (sourcePieces sources.length)) contexts text
      (sources.flatMap (comma :: ·.leaves)) values contexts rest := by
  induction sources generalizing text values with
  | nil =>
    obtain ⟨rfl, rfl⟩ := Stands.nothing stands
    exact .finished
  | cons a sources ih =>
    have shape : (a :: sources).flatMap (comma :: ·.leaves) =
        [comma] ++ (a.leaves ++ sources.flatMap (comma :: ·.leaves)) := by simp
    rw [shape] at stands ⊢
    obtain ⟨_, _, _, mark, behindMark, rfl⟩ := stands.split
    obtain ⟨_, _, _, source, others, rfl⟩ := behindMark.split
    refine .andThen (.one (accepts_fixed (t := separator) (by decide) known mark)) ?_
    refine .andThen (.one (accepts_srcArg known source (startsWith_sources others next))) ?_
    exact ih others

private theorem statementRule_shape (arity : Arity) :
    (Alternatives.ofSteps (production (statementRule arity) ++ [.done])).all =
      [.one (bare (opcodeRule arity)) :: .one (bare .destInfo) :: sourcePieces arity.count] := by
  cases arity <;> rfl

private theorem statementRule_composite (arity : Arity) :
    statementRule arity ∈ composites ∧ statementRule arity ∉ gatedRules := by
  cases arity <;> decide

private theorem opcodeRule_role (arity : Arity) :
    opcodeRule arity ∈ literalRoles ∧ opcodeRule arity ∈ fixedRoles := by
  cases arity <;> decide

/-- The leaves of an arithmetic statement behind its co-issue mark. -/
def operationLeaves (s : Arithmetic) : List Leaf :=
  [s.opcode.leaf] ++ (s.target.leaves ++ s.sources.flatMap (comma :: ·.leaves))

theorem leaves_arithmetic (s : Arithmetic) : (Simple.arithmetic s).layout.leaves =
    Terminal.leaves s.coIssue? ++ operationLeaves s := by
  simp [Simple.layout, Layout.leaves, Layout.operandLeaves, operationLeaves, List.flatMap_map]

theorem accepts_statementRule (known : contexts ∈ dialects) {s : Arithmetic}
    (stands : Stands contexts closing (operationLeaves s) text rest values)
    (next : StartsWith startRoles contexts rest) :
    Accepts (.term owner (bare (statementRule s.arity))) contexts text (operationLeaves s) values
      contexts rest := by
  obtain ⟨_, _, _, operation, behindOperation, rfl⟩ := stands.split
  obtain ⟨behind, _, _, destination, arguments, rfl⟩ := behindOperation.split
  -- there is at least one source
  have atSources : StartsWith [.separator] contexts behind := by
    have length := s.length_sources
    cases found : s.sources with
    | nil =>
      rw [found] at length
      cases arity : s.arity <;> rw [arity] at length <;> cases length
    | cons a sources =>
      rw [found] at arguments
      exact Stands.startsWith (t := separator) (by decide) arguments
  refine .composite (statementRule_composite s.arity) known ?_
  rw [statementRule_shape, ← s.length_sources]
  refine .chosen ?_
  refine .andThen (.one (accepts_fixed (opcodeRule_role s.arity).2 known operation)) ?_
  refine .andThen (.one (accepts_destInfo known destination atSources)) ?_
  exact accepts_sources known arguments next

theorem startsWith_operation {s : Arithmetic}
    (stands : Stands contexts closing (operationLeaves s) text rest values) :
    StartsWith [opcodeRule s.arity] contexts text :=
  Stands.startsWith (t := s.opcode) (opcodeRule_role s.arity).1 stands

/-- A statement rule is passed over where its opcode is. -/
theorem refuses_statementRule (arity : Arity) {rules : List Symbol}
    (among : rules ⊆ passedOver (opcodeRule arity)) (known : contexts ∈ dialects)
    (starts : StartsWith rules contexts text) :
    Refuses (.term owner (bare (statementRule arity))) contexts text :=
  refuses_rule (statementRule_composite arity).1 (statementRule_shape arity)
    ⟨(opcodeRule_role arity).1, among⟩ known starts

theorem accepts_aluOp (known : contexts ∈ dialects) {s : Arithmetic}
    (stands : Stands contexts closing (operationLeaves s) text rest values)
    (next : StartsWith startRoles contexts rest) :
    Accepts (.term owner (bare .aluOp)) contexts text (operationLeaves s) values contexts rest := by
  have accepts {owner : SymbolId} : Accepts (.term owner (bare (statementRule s.arity))) contexts
      text (operationLeaves s) values contexts rest := accepts_statementRule known stands next
  have starts := startsWith_operation stands
  refine .composite (by decide) known ?_
  cases arity : s.arity with
  | one =>
    rw [arity] at accepts
    exact .chosen (.last (.one accepts))
  | two =>
    rw [arity] at accepts starts
    refine .passedOver (.stopped (refuses_statementRule .one (by decide) known starts)) ?_
    exact .chosen (.last (.one accepts))
  | three =>
    rw [arity] at accepts starts
    refine .passedOver (.stopped (refuses_statementRule .one (by decide) known starts)) ?_
    refine .passedOver (.stopped (refuses_statementRule .two (by decide) known starts)) ?_
    exact .chosen (.last (.one accepts))

/-- The roles with which an arithmetic statement can start. -/
def arithmeticRoles : List Symbol := [.coIssueMark, .unaryOp, .binaryOp, .ternaryOp]

theorem startsWith_arithmetic {s : Arithmetic}
    (stands : Stands contexts closing (Simple.arithmetic s).layout.leaves text rest values) :
    StartsWith arithmeticRoles contexts text := by
  rw [leaves_arithmetic] at stands
  obtain ⟨_, _, _, mark, operation, -⟩ := stands.split
  have opcode := startsWith_operation operation
  exact mark.startsWith_option (by decide) (opcode.mono (by cases s.arity <;> decide))

theorem accepts_arithmetic (known : contexts ∈ dialects) {s : Arithmetic}
    (stands : Stands contexts closing (Simple.arithmetic s).layout.leaves text rest values)
    (next : StartsWith startRoles contexts rest) :
    Accepts (.term owner (bare .aluStatement)) contexts text (Simple.arithmetic s).layout.leaves
      values contexts rest := by
  rw [leaves_arithmetic] at stands ⊢
  obtain ⟨_, _, _, mark, operation, rfl⟩ := stands.split
  have opcode := startsWith_operation operation
  refine .composite (by decide) known (.chosen ?_)
  refine .andThen (accepts_option (by decide) known mark (opcode.mono ?_) (.inl (by decide))) ?_
  · cases s.arity <;> decide
  exact .last (.one (accepts_aluOp known operation next))

theorem refuses_aluStatement (known : contexts ∈ dialects)
    (starts : StartsWith [.phaseMarker] contexts text) :
    Refuses (.term owner (bare .aluStatement)) contexts text := by
  have operation {owner : SymbolId} : Refuses (.term owner (bare .aluOp)) contexts text := by
    refine .composite (by decide) ?_
    refine .passedOver (.stopped (refuses_statementRule .one (by decide) known starts)) ?_
    refine .passedOver (.stopped (refuses_statementRule .two (by decide) known starts)) ?_
    exact .passedOver (.stopped (refuses_statementRule .three (by decide) known starts)) .exhausted
  have mark {owner : SymbolId} : Refuses (.term owner (bare .coIssueMark)) contexts text :=
    refuses_role (by decide) known starts
  refine .composite (by decide) (.passedOver ?_ .exhausted)
  intro p here
  exact .andThen (.optional (mark p here)) (.stopped (.one (operation p here)))

/-! ### Textures -/

/-- The opcodes of texture statements, each with the rule of its statements. -/
private theorem textureRules_active : ∀ contexts ∈ dialects,
    (∀ t ∈ Symbol.terminals .texOpPs14, t.contextKey &&& contexts ≠ 0 →
      Symbol.texStmtPs14.contextKey &&& contexts ≠ 0) ∧
    ∀ rule ∈ [(Symbol.texOpPs11, Symbol.texStmtPs11), (.texCiscOp, .texCiscStmt),
        (.texSpecOp, .texSpecStmt)],
      ∀ t ∈ rule.1.terminals, t.contextKey &&& contexts ≠ 0 →
        rule.2.contextKey &&& contexts ≠ 0 ∧ Symbol.texStmtPs14.contextKey &&& contexts = 0 :=
  forall_mem_of_all (by decide)

theorem accepts_texSource (known : contexts ∈ dialects) {c : Coordinates}
    (stands : Stands contexts closing [c.leaf] text rest values) :
    Accepts (.term owner (bare .texSource)) contexts text [c.leaf] values contexts rest := by
  refine .composite (by decide) known ?_
  cases c with
  | interpolator t =>
    exact .chosen (.last (.one (accepts_fixed (t := t) (by decide) known stands)))
  | temp t =>
    have starts := Stands.startsWith (t := t) (by decide) stands
    refine .passedOver (.stopped (refuses_role (by decide) known starts)) ?_
    exact .chosen (.last (.one (accepts_fixed (t := t) (by decide) known stands)))

theorem accepts_texture (known : contexts ∈ dialects) {s : Texture}
    (stands : Stands contexts Apart (Simple.texture s).layout.leaves text rest values)
    (next : StartsWith startRoles contexts rest) :
    Accepts (.term owner (bare .texStmtPs14)) contexts text (Simple.texture s).layout.leaves
      values contexts rest := by
  have active := (textureRules_active contexts known).1 s.opcode.symbol s.opcode.member
    (stands.active s.opcode.leaf (List.mem_cons_self ..))
  have shape : (Simple.texture s).layout.leaves = [s.opcode.leaf] ++ ([s.target.leaf] ++
      (Terminal.leaves s.mask? ++ ([comma] ++ ([s.coordinates.leaf] ++
        Terminal.leaves s.swizzle?)))) := by
    simp [Simple.layout, Layout.leaves, Layout.operandLeaves]
  rw [shape] at stands ⊢
  obtain ⟨_, _, _, opcode, behindOpcode, rfl⟩ := stands.split
  obtain ⟨_, _, _, target, behindTarget, rfl⟩ := behindOpcode.split
  obtain ⟨_, _, _, mask, behindMask, rfl⟩ := behindTarget.split
  obtain ⟨_, _, _, mark, behindMark, rfl⟩ := behindMask.split
  obtain ⟨_, _, _, coordinates, swizzle, rfl⟩ := behindMark.split
  have atMark := Stands.startsWith (t := separator) (by decide) mark
  refine .gated (by decide) active (.chosen ?_)
  refine .andThen (.one (accepts_fixed (by decide) known opcode)) ?_
  refine .andThen (.one (accepts_fixed (by decide) known target)) ?_
  refine .andThen (accepts_option (by decide) known mask atMark (.inr (.inr atMark))) ?_
  refine .andThen (.one (accepts_fixed (t := separator) (by decide) known mark)) ?_
  refine .andThen (.one (accepts_texSource known coordinates)) ?_
  exact .last (accepts_option (by decide) known swizzle next (.inr (.inl fun _ apart => apart)))

theorem accepts_legacyTexture (known : contexts ∈ dialects) {s : LegacyTexture}
    (stands : Stands contexts closing (Simple.legacyTexture s).layout.leaves text rest values) :
    Accepts (.term owner (bare .texStatement)) contexts text (Simple.legacyTexture s).layout.leaves
      values contexts rest := by
  obtain ⟨active, notCurrent⟩ := (textureRules_active contexts known).2 _ (.head _)
    s.opcode.symbol s.opcode.member (stands.active s.opcode.leaf (List.mem_cons_self ..))
  have shape : (Simple.legacyTexture s).layout.leaves = [s.opcode.leaf] ++ [s.target.leaf] := rfl
  rw [shape] at stands ⊢
  obtain ⟨_, _, _, opcode, target, rfl⟩ := stands.split
  have atTarget := target.startsWith (by decide)
  refine .composite (by decide) known ?_
  refine .passedOver (.stopped (.inactive notCurrent)) ?_
  refine .passedOver (.stopped (.opening (by decide) rfl
    (refuses_compositeOpcode (by decide) known opcode atTarget))) ?_
  refine .passedOver (.stopped (.opening (by decide) rfl
    (refuses_compositeOpcode (by decide) known opcode atTarget))) ?_
  refine .chosen (.last (.one (.gated (by decide) active (.chosen ?_))))
  refine .andThen (.one (accepts_role (by decide) known opcode (.inr (.inr atTarget)))) ?_
  exact .last (.one (accepts_fixed (by decide) known target))

theorem accepts_plain (known : contexts ∈ dialects) {op : Terminal .texCiscOp}
    {x y : Terminal .texRegPs11}
    (stands : Stands contexts closing (Composite.plain op x y).layout.leaves text rest values) :
    Accepts (.term owner (bare .texStatement)) contexts text (Composite.plain op x y).layout.leaves
      values contexts rest := by
  obtain ⟨active, notCurrent⟩ := (textureRules_active contexts known).2 _ (.tail _ (.head _))
    op.symbol op.member (stands.active op.leaf (List.mem_cons_self ..))
  have shape : (Composite.plain op x y).layout.leaves =
      [op.leaf] ++ ([x.leaf] ++ ([comma] ++ [y.leaf])) := rfl
  rw [shape] at stands ⊢
  obtain ⟨_, _, _, opcode, behindOpcode, rfl⟩ := stands.split
  obtain ⟨_, _, _, target, behindTarget, rfl⟩ := behindOpcode.split
  obtain ⟨_, _, _, mark, source, rfl⟩ := behindTarget.split
  have atTarget := target.startsWith (by decide)
  refine .composite (by decide) known ?_
  refine .passedOver (.stopped (.inactive notCurrent)) ?_
  refine .chosen (.last (.one (.gated (by decide) active (.chosen ?_))))
  refine .andThen (.one (accepts_role (by decide) known opcode (.inr (.inr atTarget)))) ?_
  refine .andThen (.one (accepts_fixed (by decide) known target)) ?_
  refine .andThen (.one (accepts_fixed (t := separator) (by decide) known mark)) ?_
  exact .last (.one (accepts_fixed (by decide) known source))

theorem accepts_reflection (known : contexts ∈ dialects) {op : Terminal .texSpecOp}
    {x y : Terminal .texRegPs11} {z : Terminal .constReg}
    (stands : Stands contexts closing (Composite.reflection op x y z).layout.leaves text rest
      values) :
    Accepts (.term owner (bare .texStatement)) contexts text
      (Composite.reflection op x y z).layout.leaves values contexts rest := by
  obtain ⟨active, notCurrent⟩ := (textureRules_active contexts known).2 _
    (.tail _ (.tail _ (.head _))) op.symbol op.member
      (stands.active op.leaf (List.mem_cons_self ..))
  have shape : (Composite.reflection op x y z).layout.leaves =
      [op.leaf] ++ ([x.leaf] ++ ([comma] ++ ([y.leaf] ++ ([comma] ++ [z.leaf])))) := rfl
  rw [shape] at stands ⊢
  obtain ⟨_, _, _, opcode, behindOpcode, rfl⟩ := stands.split
  obtain ⟨_, _, _, target, behindTarget, rfl⟩ := behindOpcode.split
  obtain ⟨_, _, _, mark, behindMark, rfl⟩ := behindTarget.split
  obtain ⟨_, _, _, source, behindSource, rfl⟩ := behindMark.split
  obtain ⟨_, _, _, otherMark, eye, rfl⟩ := behindSource.split
  have atOpcode := opcode.startsWith (by decide)
  refine .composite (by decide) known ?_
  refine .passedOver (.stopped (.inactive notCurrent)) ?_
  refine .passedOver (.stopped (refuses_rule (by decide) rfl (by decide) known atOpcode)) ?_
  refine .chosen (.last (.one (.gated (by decide) active (.chosen ?_))))
  refine .andThen (.one (accepts_fixed (by decide) known opcode)) ?_
  refine .andThen (.one (accepts_fixed (by decide) known target)) ?_
  refine .andThen (.one (accepts_fixed (t := separator) (by decide) known mark)) ?_
  refine .andThen (.one (accepts_fixed (by decide) known source)) ?_
  refine .andThen (.one (accepts_fixed (t := separator) (by decide) known otherMark)) ?_
  exact .last (.one (accepts_fixed (by decide) known eye))

/-- The roles with which a texture statement can start. -/
def textureRoles : List Symbol := [.texOpPs14, .texOpPs11, .texCiscOp, .texSpecOp]

theorem startsWith_textureStatement {s : TextureStatement}
    (stands : Stands contexts closing s.statement.leaves text rest values) :
    StartsWith textureRoles contexts text := by
  rcases s with s | s | ⟨op, x, y⟩ | ⟨op, x, y, z⟩
  · exact (Stands.startsWith (t := s.opcode) (by decide) stands).mono (by decide)
  · exact (Stands.startsWith (t := s.opcode) (by decide) stands).mono (by decide)
  · exact (Stands.startsWith (t := op) (by decide) stands).mono (by decide)
  · exact (Stands.startsWith (t := op) (by decide) stands).mono (by decide)

theorem accepts_textureStatement (known : contexts ∈ dialects) {s : TextureStatement}
    (stands : Stands contexts Apart s.statement.leaves text rest values)
    (next : StartsWith startRoles contexts rest) :
    Accepts (.term owner (bare .texStatement)) contexts text s.statement.leaves values contexts
      rest := by
  rcases s with s | s | ⟨op, x, y⟩ | ⟨op, x, y, z⟩
  · refine .composite (by decide) known ?_
    exact .chosen (.last (.one (accepts_texture known stands next)))
  · exact accepts_legacyTexture known stands
  · exact accepts_plain known stands
  · exact accepts_reflection known stands

theorem refuses_texStatement (known : contexts ∈ dialects)
    (starts : StartsWith (arithmeticRoles ++ [.phaseMarker]) contexts text) :
    Refuses (.term owner (bare .texStatement)) contexts text := by
  refine .composite (by decide) ?_
  refine .passedOver (.stopped (refuses_rule (by decide) rfl (by decide) known starts)) ?_
  refine .passedOver (.stopped (refuses_rule (by decide) rfl (by decide) known starts)) ?_
  refine .passedOver (.stopped (refuses_rule (by decide) rfl (by decide) known starts)) ?_
  exact .passedOver (.stopped (refuses_rule (by decide) rfl (by decide) known starts)) .exhausted

/-! ### Definitions -/

/-- The pieces for a number of numerals. -/
def numeralPieces : Nat → List Piece
  | 0 => []
  | n + 1 => .one (bare .separator) :: .one (bare .numVal) :: numeralPieces n

/-- Numerals, each behind a separator. -/
def numeralLeaves (n : Nat) : List Leaf := (List.replicate n [numeral]).flatMap (comma :: ·)

theorem accepts_numerals (known : contexts ∈ dialects) {n : Nat}
    (stands : Stands contexts Apart (numeralLeaves n) text rest values) :
    Accepts (.sequence owner (numeralPieces n)) contexts text (numeralLeaves n) values contexts
      rest := by
  induction n generalizing text values with
  | zero =>
    obtain ⟨rfl, rfl⟩ := Stands.nothing stands
    exact .finished
  | succ n ih =>
    have shape : numeralLeaves (n + 1) = [comma] ++ ([numeral] ++ numeralLeaves n) := rfl
    rw [shape] at stands ⊢
    obtain ⟨_, _, _, mark, behindMark, rfl⟩ := stands.split
    obtain ⟨middle, _, _, number, others, rfl⟩ := behindMark.split
    refine .andThen (.one (accepts_fixed (t := separator) (by decide) known mark)) ?_
    refine .andThen (.one (accepts_numVal known number ?_)) (ih others)
    -- the last numeral ends the statement
    cases n with
    | zero => exact .inl fun more closes => closes rfl
    | succ n => exact .inr (Stands.startsWith (t := separator) (by decide) others)

def defineOpcode : Terminal .defOp := { symbol := .define, member := by decide }

theorem startsWith_define {register : Terminal .constReg}
    (stands : Stands contexts closing (Simple.define register).layout.leaves text rest values) :
    StartsWith [.defOp] contexts text :=
  Stands.startsWith (t := defineOpcode) (by decide) stands

theorem accepts_define (known : contexts ∈ dialects) {register : Terminal .constReg}
    (stands : Stands contexts Apart (Simple.define register).layout.leaves text rest values) :
    Accepts (.term owner (bare .defStmt)) contexts text (Simple.define register).layout.leaves
      values contexts rest := by
  have shape : (Simple.define register).layout.leaves =
      [defineOpcode.leaf] ++ ([register.leaf] ++ numeralLeaves 4) := rfl
  rw [shape] at stands ⊢
  obtain ⟨_, _, _, opcode, behindOpcode, rfl⟩ := stands.split
  obtain ⟨_, _, _, target, numerals, rfl⟩ := behindOpcode.split
  refine .composite (by decide) known (.chosen ?_)
  refine .andThen (.one (accepts_fixed (by decide) known opcode)) ?_
  refine .andThen (.one (accepts_fixed (by decide) known target)) ?_
  exact accepts_numerals known numerals

theorem refuses_defStmt (known : contexts ∈ dialects)
    (starts : StartsWith (passedOver .defOp) contexts text) :
    Refuses (.term owner (bare .defStmt)) contexts text :=
  refuses_rule (by decide) rfl (by decide) known starts

/-! ### Blocks -/

/-- A round that accepts something moves the reader. -/
theorem moved_of_gains {p q : Progress} {ls : List Leaf} {term : Term}
    (holds : Evaluates linked (.term owner term) p true q) (gains : p.Gains q ls values)
    (some : ls ≠ []) : q.reader.offset ≠ p.reader.offset := by
  have wellFormed := wellFormed_of_link grammar_eq_linked
  obtain ⟨depth, found⟩ := exists_attemptGoal wellFormed holds
  have reaches := matchTerm_moves linked (linked.matchRule_moves depth) owner term _ _ _ found
  have follows := matchTerm_keeps linked (linked.matchRule_keeps depth) owner term _ _ _ found
  rcases follows.moved with rfl | closer
  · have none := gains.tokens
    simp [some] at none
  · have same := reaches.1
    unfold Reader.remaining at closer
    omega

theorem Accepts.round {term : Term} {matched : Bool} {middle : List UInt8} {ls ks : List Leaf}
    {us ws : List Binary32} (some : ls ≠ [])
    (first : Accepts (.term owner term) contexts text ls us contexts middle)
    (again : Accepts (.rounds owner term true) contexts middle ks ws contexts rest) :
    Accepts (.rounds owner term matched) contexts text (ls ++ ks) (us ++ ws) contexts rest := by
  intro p here
  obtain ⟨q, holds, there, gains⟩ := first p here
  obtain ⟨r, rounds, arrived, more⟩ := again q there
  exact ⟨r, .round holds (moved_of_gains holds gains some) rounds, arrived, gains.trans more⟩

/-- The rule takes the statement wherever another one may follow, and the statement can be
told by the roles with which it starts. -/
structure IsTaken (item : Symbol) (rules : List Symbol) (contexts : UInt32) (s : Statement) :
    Prop where
  starts : ∀ {text rest values}, Stands contexts Apart s.leaves text rest values →
    StartsWith rules contexts text
  takes : ∀ {owner text rest values}, Stands contexts Apart s.leaves text rest values →
    StartsWith startRoles contexts rest →
      Accepts (.term owner (bare item)) contexts text s.leaves values contexts rest

theorem leaves_ne_nil (s : Statement) : s.leaves ≠ [] := by
  simp [Statement.leaves, Layout.leaves]

section

variable {item : Symbol} {rules : List Symbol} {statements : List Statement}

/-- Statements start like the first of them, or like what follows if there are none. -/
theorem startsWith_statements {others : List Symbol}
    (taken : ∀ s ∈ statements, IsTaken item rules contexts s)
    (active : Active contexts (statements.flatMap (·.leaves)))
    (reads : ReadsAll (statements.map (·.leaves)) text rest values)
    (next : StartsWith others contexts rest) (among : rules ⊆ others) :
    StartsWith others contexts text := by
  cases statements with
  | nil =>
    cases reads
    exact next
  | cons s statements =>
    cases reads with
    | next first _ =>
      have own : Active contexts s.leaves := fun l member => active l (by simp [member])
      exact ((taken s (List.mem_cons_self ..)).starts ⟨first, own⟩).mono among

theorem accepts_rounds (taken : ∀ s ∈ statements, IsTaken item rules contexts s)
    (active : Active contexts (statements.flatMap (·.leaves)))
    (reads : ReadsAll (statements.map (·.leaves)) text rest values) (among : rules ⊆ startRoles)
    (next : StartsWith startRoles contexts rest)
    (ends : Refuses (.term owner (bare item)) contexts rest) {matched : Bool}
    (some : matched = true ∨ statements ≠ []) :
    Accepts (.rounds owner (bare item) matched) contexts text (statements.flatMap (·.leaves))
      values contexts rest := by
  induction statements generalizing text values matched with
  | nil =>
    cases reads
    obtain rfl := some.resolve_right fun none => none rfl
    intro p here
    exact ⟨p, .lastRound (ends p here), here, .refl p⟩
  | cons s statements ih =>
    cases reads with
    | next first behind =>
      rw [List.flatMap_cons] at active ⊢
      have own : Active contexts s.leaves := fun l member =>
        active l (List.mem_append_left _ member)
      have later : Active contexts (statements.flatMap (·.leaves)) := fun l member =>
        active l (List.mem_append_right _ member)
      have laterTaken : ∀ s ∈ statements, IsTaken item rules contexts s := fun s member =>
        taken s (List.mem_cons_of_mem _ member)
      have follows := startsWith_statements laterTaken later behind next among
      refine .round (leaves_ne_nil s) ((taken s (List.mem_cons_self ..)).takes ⟨first, own⟩
        follows) ?_
      exact ih laterTaken later behind (.inl rfl)

/-- A block that may be missing. -/
theorem accepts_offered {block : Symbol} (composite : block ∈ composites ∧ block ∉ gatedRules)
    (among : rules ⊆ startRoles) (known : contexts ∈ dialects)
    (shape : (Alternatives.ofSteps (production block ++ [.done])).all = [[.several (bare item)]])
    (taken : ∀ s ∈ statements, IsTaken item rules contexts s)
    (active : Active contexts (statements.flatMap (·.leaves)))
    (reads : ReadsAll (statements.map (·.leaves)) text rest values)
    (next : StartsWith startRoles contexts rest)
    (ends : Refuses (.term block.id (bare item)) contexts rest) :
    Accepts (.piece owner (.optional (bare block))) contexts text (statements.flatMap (·.leaves))
      values contexts rest := by
  by_cases empty : statements = []
  · subst empty
    cases reads
    refine .absent (.composite composite.1 ?_)
    rw [shape]
    refine .passedOver (fun p here => ?_) .exhausted
    exact .stopped (.several (.lastRound (ends p here)))
  · refine .present (.composite composite known ?_)
    rw [shape]
    refine .chosen (.last fun p here => ?_)
    obtain ⟨q, rounds, arrived⟩ :=
      accepts_rounds taken active reads among next ends (.inr empty) p here
    exact ⟨q, .several rounds, arrived⟩

end

theorem isTaken_define (known : contexts ∈ dialects) (register : Terminal .constReg) :
    IsTaken .defStmt [.defOp] contexts (.simple (.define register)) where
  starts := startsWith_define
  takes stands _ := accepts_define known stands

theorem isTaken_texture (known : contexts ∈ dialects) (s : TextureStatement) :
    IsTaken .texStatement textureRoles contexts s.statement where
  starts := startsWith_textureStatement
  takes := accepts_textureStatement known

theorem isTaken_arithmetic (known : contexts ∈ dialects) (s : Arithmetic) :
    IsTaken .aluStatement arithmeticRoles contexts (.simple (.arithmetic s)) where
  starts := startsWith_arithmetic
  takes := accepts_arithmetic known

/-- Textures and arithmetic, in front of the phase marker or the end. -/
theorem accepts_block (known : contexts ∈ dialects) {b : Block}
    (active : Active contexts (b.statements.flatMap (·.leaves)))
    (reads : ReadsAll (b.statements.map (·.leaves)) text rest values)
    (next : StartsWith [.phaseMarker] contexts rest) {pieces : List Piece} {after : UInt32}
    {ending : List UInt8} {ls : List Leaf} {ws : List Binary32}
    (behind : Accepts (.sequence owner pieces) contexts rest ls ws after ending) :
    StartsWith (textureRoles ++ (arithmeticRoles ++ [.phaseMarker])) contexts text ∧
      Accepts (.sequence owner (.optional (bare .texBlock) :: .optional (bare .aluBlock) :: pieces))
        contexts text (b.statements.flatMap (·.leaves) ++ ls) (values ++ ws) after ending := by
  rw [Block.statements, List.map_append] at reads
  rw [Block.statements, List.flatMap_append] at active ⊢
  obtain ⟨middle, us, vs, textures, arithmetic, rfl⟩ := reads.split
  have activeTextures : Active contexts _ := fun l member =>
    active l (List.mem_append_left _ member)
  have activeArithmetic : Active contexts _ := fun l member =>
    active l (List.mem_append_right _ member)
  have textureTaken : ∀ s ∈ b.textures.map (·.statement),
      IsTaken .texStatement textureRoles contexts s := by
    intro s member
    obtain ⟨t, -, rfl⟩ := List.mem_map.mp member
    exact isTaken_texture known t
  have arithmeticTaken : ∀ s ∈ b.arithmetic.map (.simple <| .arithmetic ·),
      IsTaken .aluStatement arithmeticRoles contexts s := by
    intro s member
    obtain ⟨t, -, rfl⟩ := List.mem_map.mp member
    exact isTaken_arithmetic known t
  have atArithmetic : StartsWith (arithmeticRoles ++ [.phaseMarker]) contexts middle :=
    startsWith_statements arithmeticTaken activeArithmetic arithmetic
      (next.mono (List.subset_append_right _ _)) (List.subset_append_left _ _)
  refine ⟨startsWith_statements textureTaken activeTextures textures
    (atArithmetic.mono (List.subset_append_right _ _)) (List.subset_append_left _ _), ?_⟩
  rw [List.append_assoc, List.append_assoc]
  refine .andThen (accepts_offered (by decide) (by decide) known rfl textureTaken activeTextures
    textures (atArithmetic.mono (by decide)) (refuses_texStatement known atArithmetic)) ?_
  refine .andThen (accepts_offered (by decide) (by decide) known rfl arithmeticTaken
    activeArithmetic arithmetic (next.mono (by decide)) (refuses_aluStatement known next)) ?_
  exact behind

end

/-! ### Programs -/

def marker : Terminal .phaseMarker := { symbol := .phase, member := by decide }

/-- The marker stands in the first phase and ends it. -/
private theorem phase_known : ∀ contexts ∈ dialects, Symbol.phase.contextKey &&& contexts ≠ 0 →
    Symbol.phaseTwo.contextKey &&& contexts ≠ 0 ∧
    contexts &&& ~~~Context.phase1 ∈ dialects ∧
    Symbol.phase.definition.contextsAfter contexts = contexts &&& ~~~Context.phase1 :=
  forall_mem_of_all (by decide)

/-- The version opens its dialect. -/
private theorem version_known : ∀ t ∈ Symbol.terminals .programType,
    Context.base ||| t.contextSet ∈ dialects ∧ t.contextKey &&& Context.base ≠ 0 ∧
    t.definition.contextsAfter Context.base = Context.base ||| t.contextSet := by
  decide

theorem Shader.openContexts_known (p : Shader) : p.openContexts ∈ dialects :=
  (version_known p.version.symbol p.version.member).1

theorem accepts_phaseTwo {owner : SymbolId} {contexts : UInt32} (known : contexts ∈ dialects)
    (marked : Context.phase1 &&& contexts ≠ 0) {b : Block}
    (active : Active (contexts &&& ~~~Context.phase1) (b.statements.flatMap (·.leaves)))
    {text middle : List UInt8} {us ws : List Binary32}
    (first : Reads Apart [marker.leaf] text middle us)
    (behind : ReadsAll (b.statements.map (·.leaves)) middle [] ws) :
    StartsWith [.phaseMarker] contexts text ∧
      Accepts (.term owner (bare .phaseTwo)) contexts text
        ([marker.leaf] ++ b.statements.flatMap (·.leaves)) (us ++ ws)
        (contexts &&& ~~~Context.phase1) [] := by
  obtain ⟨rule, knownSecond, changes⟩ := phase_known _ known marked
  have stands : Stands contexts Apart [marker.leaf] text middle us := by
    refine ⟨first, fun l member => ?_⟩
    cases List.mem_singleton.mp member
    exact marked
  have blocks {owner : SymbolId} : Accepts (.sequence owner [.optional (bare .texBlock),
      .optional (bare .aluBlock)]) (contexts &&& ~~~Context.phase1) middle
        (b.statements.flatMap (·.leaves)) ws (contexts &&& ~~~Context.phase1) [] := by
    have accepts : Accepts (.sequence owner [.optional (bare .texBlock),
        .optional (bare .aluBlock)]) _ _ _ _ _ _ :=
      (accepts_block knownSecond active behind (.inl rfl) .finished).2
    rwa [List.append_nil, List.append_nil] at accepts
  refine ⟨stands.startsWith (by decide), .gated (by decide) rule (.chosen ?_)⟩
  refine .andThen (.one ?_) blocks
  exact accepts_terminal (by decide) (List.mem_cons_of_mem _ known) stands changes
    (.inl (by decide))

theorem accepts_secondStatements {owner : SymbolId} {p : Shader} (dialect : p.InDialect)
    {text : List UInt8} {values : List Binary32}
    (reads : ReadsAll (p.secondStatements.map (·.leaves)) text [] values) :
    StartsWith [.phaseMarker] p.openContexts text ∧
      Accepts (.piece owner (.optional (bare .phaseTwo))) p.openContexts text
        (p.secondStatements.flatMap (·.leaves)) values p.finalContexts [] := by
  have known := Shader.openContexts_known p
  cases second : p.second? with
  | none =>
    simp only [Shader.secondStatements, Shader.finalContexts, second] at reads ⊢
    cases reads
    have atEnd : StartsWith [] p.openContexts [] := .inl rfl
    exact ⟨.inl rfl, .absent (refuses_rule (by decide) rfl (by decide) known atEnd)⟩
  | some block =>
    simp only [Shader.secondStatements, Shader.finalContexts, second] at reads ⊢
    obtain ⟨marked, active⟩ := dialect.second block second
    rw [List.map_cons, leaves_marker] at reads
    rw [List.flatMap_cons, leaves_marker]
    cases reads with
    | next first behind =>
      obtain ⟨starts, accepts⟩ := accepts_phaseTwo known marked active first behind
      exact ⟨starts, .present accepts⟩

theorem accepts_program {p : Shader} (dialect : p.InDialect) {bytes text : List UInt8}
    {values : List Binary32} (named : Reads (fun _ => True) [p.version.leaf] bytes text [])
    (reads : ReadsAll (p.statements.map (·.leaves)) text [] values) :
    Accepts (.first Symbol.program.id (alternativesOf .program)) Context.base bytes p.leaves
      values p.finalContexts [] := by
  have known := Shader.openContexts_known p
  obtain ⟨-, active, changes⟩ := version_known p.version.symbol p.version.member
  have stands : Stands Context.base (fun _ => True) [p.version.leaf] bytes text [] := by
    refine ⟨named, fun l member => ?_⟩
    cases List.mem_singleton.mp member
    exact active
  rw [Shader.statements, List.map_append] at reads
  obtain ⟨behindFirst, us, ws, first, second, rfl⟩ := reads.split
  rw [Shader.firstStatements, List.map_append] at first
  obtain ⟨behindDefinitions, vs, us, definitions, block, rfl⟩ := first.split
  have activeFirst := dialect.first
  rw [Shader.firstStatements, List.flatMap_append] at activeFirst
  have activeDefinitions : Active p.openContexts _ := fun l member =>
    activeFirst l (List.mem_append_left _ member)
  have activeBlock : Active p.openContexts _ := fun l member =>
    activeFirst l (List.mem_append_right _ member)
  have taken : ∀ s ∈ p.definitions.map (.simple <| .define ·),
      IsTaken .defStmt [.defOp] p.openContexts s := by
    intro s member
    obtain ⟨t, -, rfl⟩ := List.mem_map.mp member
    exact isTaken_define known t
  -- what follows a block has to be known before the block is read
  obtain ⟨atSecond, acceptsSecond⟩ := accepts_secondStatements dialect second
  obtain ⟨atBlock, acceptsBlock⟩ := accepts_block known activeBlock block atSecond
    (.last acceptsSecond)
  have acceptsDefinitions : Accepts (.piece Symbol.program.id (.optional (bare .constants))) _ _ _
      _ _ _ :=
    accepts_offered (by decide) (by decide) known rfl taken activeDefinitions definitions
      (atBlock.mono (by decide)) (refuses_defStmt known (atBlock.mono (by decide)))
  have acceptsVersion : Accepts (.term Symbol.program.id (bare .programType)) _ _ _ _ _ _ :=
    accepts_terminal (by decide) (List.mem_cons_self ..) stands changes (.inl (by decide))
  have all := Accepts.andThen (.one acceptsVersion) (.andThen acceptsDefinitions acceptsBlock)
  rw [alternativesOf_composite (by decide), Shader.leaves, Shader.statements, List.flatMap_append,
    Shader.firstStatements, List.flatMap_append, List.append_assoc, List.append_assoc]
  exact .chosen all

/-! ### Legal programs -/

/-- What a dialect does not exclude is active in both of its phases. -/
private theorem active_of_not_excluded : ∀ version ∈ Symbol.terminals .programType,
    ∀ s ∈ neutralRoles, ∀ t ∈ s.terminals, t ∉ excluded version →
      t.contextKey &&& (Context.base ||| version.contextSet) ≠ 0 ∧
        t.contextKey &&& ((Context.base ||| version.contextSet) &&& ~~~Context.phase1) ≠ 0 := by
  decide

private theorem phase_of_not_excluded : ∀ version ∈ Symbol.terminals .programType,
    .phase ∉ excluded version → Context.phase1 &&& (Context.base ||| version.contextSet) ≠ 0 := by
  decide

/-- A legal program keeps to its dialect. -/
theorem Legal.inDialect {p : Shader} (legal : p.Legal) : p.InDialect := by
  have phases {l : Leaf} (member : l ∈ p.statements.flatMap (·.leaves))
      (role : l.rule ∈ neutralRoles ∧ l.symbol ∈ l.rule.terminals) :=
    active_of_not_excluded p.version.symbol p.version.member l.rule role.1 l.symbol role.2
      (legal l member)
  constructor
  · intro l member
    refine (phases ?_ ((yields_firstStatements p).roles l member)).1
    simp only [Shader.statements, List.flatMap_append, List.mem_append]
    exact .inl member
  · intro block second
    have inside : ∀ l ∈ ⟨.phase, .phaseMarker⟩ :: block.statements.flatMap (·.leaves),
        l ∈ p.statements.flatMap (·.leaves) := by
      intro l member
      rw [Shader.statements, List.flatMap_append, Shader.secondStatements, second,
        List.flatMap_cons, leaves_marker]
      exact List.mem_append_right _ member
    constructor
    · exact phase_of_not_excluded p.version.symbol p.version.member
        (legal _ (inside _ (List.mem_cons_self ..)))
    · intro l member
      exact (phases (inside l (List.mem_cons_of_mem _ member))
        ((yields_block block).roles l member)).2

/-- The root rule takes every text of a program that keeps to its dialect. -/
theorem evaluates_text {p : Shader} (dialect : p.InDialect) {bytes : List UInt8}
    {values : List Binary32} (text : p.Text bytes values) :
    ∃ q, Evaluates linked (.rule 0) (linked.start bytes) true q ∧
      q.At p.finalContexts [] ∧ (linked.start bytes).Gains q p.leaves values := by
  obtain ⟨lead, version, more, trivia, spelled, listed, rfl⟩ := text
  obtain ⟨behind, skips, settled, reads⟩ := listed.readsAll
  have here : (linked.start (lead ++ (version ++ more))).At Context.base (version ++ more) :=
    ⟨rfl, trivia.skips _, settled_of_head? spelled.head? more⟩
  have named : Reads (fun _ => True) [p.version.leaf] (version ++ more) behind [] :=
    .next spelled skips settled (fun _ => trivial) .nothing
  obtain ⟨q, chosen, arrived⟩ := accepts_program dialect named reads _ here
  obtain ⟨after, opens⟩ := drop_body ruleIndex?_program
  rw [alternativesOf, ← ofSteps_upToDone _ after] at chosen
  exact ⟨q, .rule opens chosen, arrived⟩

/-- Every text of a legal program that is not too long is accepted, with the terminals of the
program as tokens and the values of its literals as constants. -/
theorem read_complete {g : Grammar} (dialect : grammar = .ok g) {p : Shader} (legal : p.Legal)
    {source : String} {values : List Binary32} (text : p.Text (utf8 source) values)
    (fits : (utf8 source).length ≤ 65536) (previous : Reading) :
    ∃ r, g.read source previous = (.ok (), r) ∧
      r.tokens.map Token.key = p.leaves.map Leaf.key ∧ r.constants = values := by
  rw [grammar_eq_linked] at dialect
  cases dialect
  obtain ⟨q, evaluates, arrived, gains⟩ := evaluates_text (Legal.inDialect legal) text
  have matched := matchSource_of_evaluates (wellFormed_of_link grammar_eq_linked) evaluates
  have atEnd : verdict true q = .ok () := by
    have finished := arrived.skipTrivia.2
    cases skipped : q.reader.skipTrivia with
    | mk found next =>
      rw [skipped] at finished
      simp only [ne_eq, not_true_eq_false, iff_false, Bool.not_eq_true] at finished
      simp [verdict, skipped, finished]
  have notTooLong : ¬ sourceLimit < (utf8 source).length := Nat.not_lt.mpr fits
  refine ⟨q.reading, ?_, ?_, ?_⟩
  · simp [Grammar.read, notTooLong, matched, atEnd]
  · simpa [Progress.reading, Grammar.start] using gains.tokens
  · simpa [Progress.reading, Grammar.start] using gains.constants

/-- A program with its literals, spelled with different trivia between its terminals. -/
def paddedText : String :=
  "; scaled\n ps.1.4\ndef c0, 1.,-.5 ,2.25,0\nphase//\n+mov_x4_sat r0.xy, 1-c0\n"

def paddedLiterals : List Literal :=
  [{ negative := false, whole := [1], fraction? := some [], has_digit := by decide },
   { negative := true, whole := [], fraction? := some [5], has_digit := by decide },
   { negative := false, whole := [2], fraction? := some [2, 5], has_digit := by decide },
   { negative := false, whole := [0], fraction? := none, has_digit := by decide }]

def paddedProgram : Shader where
  version := .ps14
  definitions := [⟨.c0, by decide⟩]
  first := { textures := [], arithmetic := [] }
  second? := some
    { textures := []
      arithmetic := [
        { coIssue? := some ⟨.coIssue, by decide⟩, arity := .one, opcode := .mov
          target :=
            { scale? := some ⟨.x4, by decide⟩, saturate? := some ⟨.sat, by decide⟩
              register := .r0, mask? := some ⟨.maskRg, by decide⟩ }
          sources := [
            { before? := some ⟨.invert, by decide⟩, register := .constant ⟨.c0, by decide⟩
              behind? := none, replicate? := none }]
          length_sources := rfl }] }

private theorem text_padded :
    paddedProgram.Text (utf8 paddedText) (paddedLiterals.map (·.value)) := by
  have word (l : Leaf) (text : String) (member : text ∈ l.symbol.spellings) :
      Spelled l (utf8 text) [] := .text member
  have number (n : Literal) : Spelled numeral n.bytes [n.value] := .numeral rfl n
  have space : Trivia [0x20] := .blank (by decide) .nothing
  have newline : Trivia [0x0A] := .blank (by decide) .nothing
  have lead : Trivia (utf8 ";" ++ (utf8 " scaled" ++ [0x0A, 0x20])) :=
    .comment (by decide) (forall_mem_of_all (by decide)) (.inl rfl) space
  have comment : Trivia (utf8 "//" ++ ([] ++ [0x0A])) :=
    .comment (by decide) (forall_mem_of_all (by decide)) (.inl rfl) .nothing
  have definition :=
    SpelledOut.andThen (word ⟨.define, .defOp⟩ "def" (by decide)) space <|
    .andThen (word ⟨.c0, .constReg⟩ "c0" (by decide)) .nothing <|
    .andThen (word comma "," (by decide)) space <|
    .andThen (number paddedLiterals[0]) .nothing <|
    .andThen (word comma "," (by decide)) .nothing <|
    .andThen (number paddedLiterals[1]) space <|
    .andThen (word comma "," (by decide)) .nothing <|
    .andThen (number paddedLiterals[2]) .nothing <|
    .andThen (word comma "," (by decide)) .nothing <|
    .last (number paddedLiterals[3])
  have arithmetic :=
    SpelledOut.andThen (word ⟨.coIssue, .coIssueMark⟩ "+" (by decide)) .nothing <|
    .andThen (word ⟨.mov, .unaryOp⟩ "mov" (by decide)) .nothing <|
    .andThen (word ⟨.x4, .dstMod⟩ "_x4" (by decide)) .nothing <|
    .andThen (word ⟨.sat, .dstSat⟩ "_sat" (by decide)) space <|
    .andThen (word ⟨.r0, .tempReg⟩ "r0" (by decide)) .nothing <|
    .andThen (word ⟨.maskRg, .dstMask⟩ ".xy" (by decide)) .nothing <|
    .andThen (word comma "," (by decide)) space <|
    .andThen (word ⟨.invert, .preSrcMod⟩ "1-" (by decide)) .nothing <|
    .last (word ⟨.c0, .constReg⟩ "c0" (by decide))
  have marker := SpelledOut.last (word ⟨.phase, .phaseMarker⟩ "phase" (by decide))
  have listed := Listed.next newline (by simp) definition <| .next newline (by simp) marker <|
    .next comment (by simp) arithmetic <| .finished newline
  exact ⟨_, _, _, lead, word _ "ps.1.4" (by decide), listed, by decide⟩

/-- A program of two phases with a definition, between comments and without blanks. -/
theorem read_complete_padded :
    grammar = .ok linked ∧ paddedProgram.Legal ∧
      paddedProgram.Text (utf8 paddedText) (paddedLiterals.map (·.value)) ∧
      (utf8 paddedText).length ≤ 65536 ∧
      ∃ r, linked.read paddedText {} = (.ok (), r) ∧
        r.tokens.map Token.key = paddedProgram.leaves.map Leaf.key ∧
        r.constants = paddedLiterals.map (·.value) := by
  have legal : paddedProgram.Legal := by decide
  have fits : (utf8 paddedText).length ≤ 65536 := by decide
  exact ⟨grammar_eq_linked, legal, text_padded, fits,
    read_complete grammar_eq_linked legal text_padded fits {}⟩

end Dialect
end PixelAsm
