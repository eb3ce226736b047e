import PixelAsm.Proofs.Translation

/-!
# Stages in the order of the source

A program that keeps to its dialect contributes to the arithmetic stage of the second
pass only behind everything else. In a ps.1.4 program that is the arithmetic behind the
phase marker. The other dialects have no marker, and all their own arithmetic belongs to
the second pass and comes last.
-/
namespace PixelAsm.Syntax

/-! ### Dialects -/

/-- A program of a dialect before ps.1.4 has no phase marker. -/
theorem Shader.InDialect.second_legacy {p : Shader} (dialect : p.InDialect)
    (legacy : p.isLegacy = true) : p.second? = none := by
  -- the context in which the marker may stand is opened by ps.1.4 alone
  have closed : ∀ t ∈ Symbol.terminals .programType, (t != .ps14) = true →
      Context.phase1 &&& (Context.base ||| t.contextSet) = 0 := by decide
  cases second : p.second? with
  | none => rfl
  | some block =>
    have marked := (dialect.second block second).1
    exact absurd (closed p.version.symbol p.version.member legacy) marked

/-- A texture statement is in ps.1.4 only if it is one of ps.1.4. -/
theorem current_of_active {t : TextureStatement} {contexts : UInt32}
    (active : Active contexts t.statement.leaves) (modern : Context.ps11 &&& contexts = 0)
    (modern2 : Context.ps12 &&& contexts = 0) : ∃ s, t = .current s := by
  -- the opcode of a legacy statement may not stand in ps.1.4
  have opcode : t.statement.layout.opcode.symbol.contextKey &&& contexts ≠ 0 :=
    active _ (List.mem_append_right _ (List.mem_cons_self ..))
  have closed {rule : Symbol} (opcode : Terminal rule)
      (keys : ∀ s ∈ rule.terminals, s.contextKey = Context.ps11 ∨ s.contextKey = Context.ps12) :
      opcode.symbol.contextKey &&& contexts = 0 := by
    rcases keys opcode.symbol opcode.member with key | key <;> rw [key] <;> assumption
  cases t with
  | current s => exact ⟨s, rfl⟩
  | legacy s => exact absurd (closed s.opcode (by decide)) opcode
  | composite s =>
    cases s with
    | plain op x y => exact absurd (closed op (by decide)) opcode
    | reflection op x y z => exact absurd (closed op (by decide)) opcode

private theorem active_textures {contexts : UInt32} {statements : List Statement}
    (active : Active contexts (statements.flatMap (·.leaves))) {s : Statement}
    (member : s ∈ statements) : Active contexts s.leaves :=
  fun l leaf => active l (List.mem_flatMap.mpr ⟨s, member, leaf⟩)

private theorem version_ps14 {p : Shader} (modern : p.isLegacy = false) :
    p.openContexts = Context.base ||| (Context.ps14 ||| Context.phase1) := by
  have version : p.version.symbol = .ps14 := by simpa [Shader.isLegacy] using modern
  rw [Shader.openContexts, version]
  rfl

theorem Shader.InDialect.first_current {p : Shader} (dialect : p.InDialect)
    (modern : p.isLegacy = false) : ∀ t ∈ p.first.textures, ∃ s, t = .current s := by
  intro t member
  have active : Active p.openContexts t.statement.leaves :=
    active_textures dialect.first (List.mem_append_right _
      (List.mem_append_left _ (List.mem_map_of_mem member)))
  rw [version_ps14 modern] at active
  exact current_of_active active (by decide) (by decide)

theorem Shader.InDialect.second_current {p : Shader} (dialect : p.InDialect)
    (modern : p.isLegacy = false) {block : Block} (second : p.second? = some block) :
    ∀ t ∈ block.textures, ∃ s, t = .current s := by
  intro t member
  have active := active_textures (dialect.second block second).2
    (List.mem_append_left _ (List.mem_map_of_mem member))
  rw [version_ps14 modern] at active
  exact current_of_active active (by decide) (by decide)

/-! ### Contributions -/

theorem issuesBehind_append (legacy : Bool) (before ss ts : List Statement) :
    issuesBehind legacy before (ss ++ ts) =
      issuesBehind legacy before ss ++ issuesBehind legacy (before ++ ss) ts := by
  induction ss generalizing before with
  | nil => simp [issuesBehind]
  | cons s rest ih => simp [issuesBehind, ih]

/-- Statements without a marker contribute as if each stood behind what is in front of them
all, as far as the marker is concerned. -/
theorem mem_issuesBehind {legacy : Bool} {before ss : List Statement}
    (unmarked : ∀ s ∈ ss, s.isMarker = false) {i : Issue}
    (member : i ∈ issuesBehind legacy before ss) :
    ∃ s ∈ ss, ∃ seen : List Statement, seen.any (·.isMarker) = before.any (·.isMarker) ∧
      i ∈ s.issues legacy seen := by
  induction ss generalizing before with
  | nil => cases member
  | cons s rest ih =>
    have own := unmarked s (List.mem_cons_self ..)
    rw [issuesBehind, List.mem_append] at member
    rcases member with here | behind
    · exact ⟨s, List.mem_cons_self .., before, rfl, here⟩
    · obtain ⟨t, inside, seen, same, issued⟩ :=
        ih (fun t inside => unmarked t (List.mem_cons_of_mem s inside)) behind
      refine ⟨t, List.mem_cons_of_mem s inside, seen, ?_, issued⟩
      simpa [own] using same

/-- Arithmetic goes to the second pass in this setting. -/
def Setting.late (setting : Setting) : Bool :=
  (setting.legacy && !setting.expanding) || setting.marked

theorem stage_of_early {s : Simple} {setting : Setting}
    (early : setting.late = false ∨ ∀ t, s ≠ .arithmetic t) {i : Issue}
    (member : i ∈ s.issues setting) : i.stage ≠ .alu2 := by
  cases s with
  | define register =>
    rw [List.mem_singleton.mp member]
    exact Stage.noConfusion
  | texture t =>
    rw [List.mem_singleton.mp member]
    dsimp only
    split <;> exact Stage.noConfusion
  | legacyTexture t =>
    rw [List.mem_singleton.mp member]
    exact Stage.noConfusion
  | phaseMarker => cases member
  | arithmetic t =>
    have early : setting.late = false := early.resolve_right fun other => other t rfl
    obtain ⟨instruction, -, rfl⟩ := List.mem_map.mp member
    unfold Setting.late at early
    simp [early]

theorem stage_of_late {t : Arithmetic} {setting : Setting} (late : setting.late = true)
    {i : Issue} (member : i ∈ (Simple.arithmetic t).issues setting) : i.stage = .alu2 := by
  obtain ⟨instruction, -, rfl⟩ := List.mem_map.mp member
  exact if_pos late

theorem stage_of_current {legacy : Bool} {seen : List Statement} {t : Texture} {i : Issue}
    (member : i ∈ (Statement.simple (.texture t)).issues legacy seen) : i.stage ≠ .alu2 := by
  have other : ∀ u, Simple.texture t ≠ .arithmetic u := fun _ same => by cases same
  exact stage_of_early (.inr other) member

/-- In front of the marker, texture statements stay out of the last stage even if they stand
for arithmetic. -/
theorem stage_of_texture {legacy : Bool} {seen : List Statement} {t : TextureStatement}
    (unmarked : seen.any (·.isMarker) = false) {i : Issue}
    (member : i ∈ t.statement.issues legacy seen) : i.stage ≠ .alu2 := by
  cases t with
  | current s => exact stage_of_current member
  | legacy s =>
    have other : ∀ u, Simple.legacyTexture s ≠ .arithmetic u := fun _ same => by cases same
    have issued : i ∈ (Simple.legacyTexture s).issues (settingBehind legacy seen) := member
    exact stage_of_early (.inr other) issued
  | composite s =>
    obtain ⟨simple, -, issued⟩ := List.mem_flatMap.mp member
    -- inside an expansion arithmetic belongs to the first pass, even in a legacy dialect
    refine stage_of_early (.inl ?_) issued
    simp [Setting.late, settingBehind, unmarked]

theorem unmarked_map {α : Type} {f : α → Statement} (each : ∀ a, (f a).isMarker = false)
    (xs : List α) : ∀ s ∈ xs.map f, s.isMarker = false := by
  intro s member
  obtain ⟨a, -, rfl⟩ := List.mem_map.mp member
  exact each a

theorem TextureStatement.unmarked (t : TextureStatement) : t.statement.isMarker = false := by
  cases t <;> rfl

theorem Shader.unmarked_first (p : Shader) : ∀ s ∈ p.firstStatements, s.isMarker = false := by
  intro s member
  simp only [firstStatements, Block.statements, List.mem_append] at member
  rcases member with definition | texture | arithmetic
  · exact unmarked_map (fun _ => rfl) _ s definition
  · exact unmarked_map TextureStatement.unmarked _ s texture
  · exact unmarked_map (fun _ => rfl) _ s arithmetic

/-- The own arithmetic of a program, in a setting that sends it to the second pass. -/
theorem late_arithmetic {legacy : Bool} {before : List Statement} (ts : List Arithmetic)
    (late : (legacy || before.any (·.isMarker)) = true) :
    ∀ i ∈ issuesBehind legacy before (ts.map (.simple <| .arithmetic ·)), i.stage = .alu2 := by
  intro i member
  obtain ⟨s, inside, seen, same, issued⟩ := mem_issuesBehind (unmarked_map (fun _ => rfl) ts) member
  obtain ⟨t, -, rfl⟩ := List.mem_map.mp inside
  refine stage_of_late ?_ issued
  simpa [Setting.late, settingBehind, same] using late

private theorem early_definitions {legacy : Bool} {before : List Statement}
    (ts : List (Terminal .constReg)) :
    ∀ i ∈ issuesBehind legacy before (ts.map (.simple <| .define ·)), i.stage ≠ .alu2 := by
  intro i member
  obtain ⟨s, inside, seen, -, issued⟩ := mem_issuesBehind (unmarked_map (fun _ => rfl) ts) member
  obtain ⟨t, -, rfl⟩ := List.mem_map.mp inside
  have other : ∀ u, Simple.define t ≠ .arithmetic u := fun _ same => by cases same
  exact stage_of_early (.inr other) issued

private theorem early_textures {legacy : Bool} {before : List Statement}
    (ts : List TextureStatement)
    (harmless : before.any (·.isMarker) = false ∨ ∀ t ∈ ts, ∃ s, t = .current s) :
    ∀ i ∈ issuesBehind legacy before (ts.map (·.statement)), i.stage ≠ .alu2 := by
  intro i member
  obtain ⟨s, inside, seen, same, issued⟩ :=
    mem_issuesBehind (unmarked_map TextureStatement.unmarked ts) member
  obtain ⟨t, listed, rfl⟩ := List.mem_map.mp inside
  rcases harmless with unmarked | current
  · exact stage_of_texture (same.trans unmarked) issued
  · obtain ⟨u, rfl⟩ := current t listed
    exact stage_of_current issued

/-- In front of the marker a ps.1.4 program contributes nothing to the last stage. -/
private theorem early_first {p : Shader} (modern : p.isLegacy = false) :
    ∀ i ∈ issuesBehind p.isLegacy [] p.firstStatements, i.stage ≠ .alu2 := by
  intro i member
  obtain ⟨s, inside, seen, same, issued⟩ := mem_issuesBehind p.unmarked_first member
  have unmarked : seen.any (·.isMarker) = false := same
  cases s with
  | simple s =>
    refine stage_of_early (.inl ?_) issued
    simp [Setting.late, settingBehind, modern, unmarked]
  | composite s =>
    obtain ⟨simple, -, issued⟩ := List.mem_flatMap.mp issued
    refine stage_of_early (.inl ?_) issued
    simp [Setting.late, settingBehind, unmarked]

/-- A program ends in the arithmetic that goes to the last stage, and what is in front of it
contributes nothing there. -/
theorem Shader.statements_split (p : Shader) (dialect : p.InDialect) :
    ∃ (early : List Statement) (late : List Arithmetic),
      p.statements = early ++ late.map (.simple <| .arithmetic ·) ∧
        (∀ i ∈ issuesBehind p.isLegacy [] early, i.stage ≠ .alu2) ∧
        (late = [] ∨ (p.isLegacy || early.any (·.isMarker)) = true) := by
  cases legacy : p.isLegacy with
  | true =>
    have single : p.secondStatements = [] := by
      rw [secondStatements, dialect.second_legacy legacy]
    refine ⟨p.definitions.map (.simple <| .define ·) ++ p.first.textures.map (·.statement),
      p.first.arithmetic, ?_, ?_, .inr (Bool.true_or _)⟩
    · rw [statements, single, List.append_nil, firstStatements, Block.statements,
        List.append_assoc]
    · intro i member
      rw [issuesBehind_append] at member
      rcases List.mem_append.mp member with definition | texture
      · exact early_definitions _ i definition
      · refine early_textures _ (.inl ?_) i texture
        simpa [List.any_eq_false] using unmarked_map (fun _ => rfl) p.definitions
  | false =>
    have early := early_first legacy
    rw [legacy] at early
    rw [statements, secondStatements]
    cases second : p.second? with
    | none => exact ⟨p.firstStatements, [], by simp, early, .inl rfl⟩
    | some block =>
      refine ⟨p.firstStatements ++ .simple .phaseMarker :: block.textures.map (·.statement),
        block.arithmetic, by simp [Block.statements], ?_, .inr (by simp [Statement.isMarker])⟩
      intro i member
      -- the marker contributes nothing, and the textures behind it stay early
      have silent : (Statement.simple .phaseMarker).issues false p.firstStatements = [] := rfl
      rw [issuesBehind_append, List.nil_append, issuesBehind, silent, List.nil_append] at member
      rcases List.mem_append.mp member with first | texture
      · exact early i first
      · exact early_textures _ (.inr (dialect.second_current legacy second)) i texture

/-- The contributions to the last stage come last. -/
theorem Shader.issues_split (p : Shader) (dialect : p.InDialect) :
    ∃ front back, p.issues = front ++ back ∧ (∀ i ∈ front, i.stage ≠ .alu2) ∧
      ∀ i ∈ back, i.stage = .alu2 := by
  obtain ⟨early, late, divided, before, placed⟩ := p.statements_split dialect
  refine ⟨issuesBehind p.isLegacy [] early,
    issuesBehind p.isLegacy early (late.map (.simple <| .arithmetic ·)), ?_, before, ?_⟩
  · rw [issues, divided, issuesBehind_append, List.nil_append]
  · rcases placed with rfl | behind
    · simp [issuesBehind]
    · exact late_arithmetic late behind

end PixelAsm.Syntax
