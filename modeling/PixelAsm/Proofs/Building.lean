import PixelAsm.Assembler.Build
import PixelAsm.Proofs.IssueLog

/-!
# Building an instruction

The pending instruction that the leaves of a statement leave behind, and what building
it queues: the contribution of the statement, as the translation has it.
-/
namespace PixelAsm

open Syntax

/-! ### Slots -/

/-- What a leaf of an operand adds to its slot. -/
def Slot.take (slot : Slot) (l : Leaf) : Slot :=
  match l.rule.role? with
  | some .register => { slot with register? := some l.symbol.code }
  | some .selector => { slot with selector := l.symbol.code }
  | some .modifier => { slot with modifier := slot.modifier ||| l.symbol.code }
  | _ => slot

def slotOf (leaves : List Leaf) : Slot := leaves.foldl Slot.take {}

theorem slotOf_destination (d : Destination) :
    slotOf d.leaves =
      { register? := some d.register.code, selector := Terminal.codeOf d.mask?
        modifier := d.modifier } := by
  obtain ⟨scale, saturate, register, mask⟩ := d
  -- what was left out leaves its default in the slot
  cases scale <;> cases saturate <;> cases mask <;>
    simp [slotOf, Destination.leaves, Terminal.leaves, Terminal.leaf, Slot.take, Symbol.role?,
      Destination.modifier, Terminal.codeOf, Terminal.code]

theorem slotOf_source (s : Source) :
    slotOf s.leaves =
      { register? := some s.register.code, selector := Terminal.codeOf s.replicate?
        modifier := s.operand.modifier } := by
  obtain ⟨before, register, behind, replicate⟩ := s
  cases before <;> cases register <;> cases behind <;> cases replicate <;>
    simp [slotOf, Source.leaves, Terminal.leaves, Terminal.leaf, Slot.take, Symbol.role?,
      Source.operand, SourceRegister.leaf, SourceRegister.code, Terminal.codeOf, Terminal.code]

namespace Syntax.Layout

def slots (l : Layout) : List Slot := slotOf l.target :: l.others.map slotOf

/-- The pending instruction behind the leaves of a statement. -/
def pending (l : Layout) (token : Token) (firstConstant : Nat) : Pending :=
  { opcode? := some l.opcode.symbol, token, code := l.opcode.symbol.code
    slot := l.others.length
    slots := l.slots ++ List.replicate (slotLimit - l.slots.length) {}
    firstConstant }

theorem operand_pending (l : Layout) (token : Token) (n : Nat) {index : Nat}
    {register selector modifier : UInt32}
    (filled : l.slots[index]? = some { register? := some register, selector, modifier }) :
    (l.pending token n).operand index = .ok { register, channel := selector, modifier } := by
  obtain ⟨inside, -⟩ := List.getElem?_eq_some_iff.mp filled
  have found : (l.pending token n).slots[index]? =
      some { register? := some register, selector, modifier } := by
    rw [pending, List.getElem?_append_left inside, filled]
  simp only [Pending.operand, found]

end Syntax.Layout

/-! ### Arithmetic -/

private theorem mapM_range {f : Nat → Except CompileError Operand} {operands : List Operand}
    (each : ∀ i o, operands[i]? = some o → f i = .ok o) :
    (List.range operands.length).mapM f = .ok operands := by
  induction operands generalizing f with
  | nil => rfl
  | cons first rest ih =>
    -- the range is shifted by one behind its first index
    have others := ih fun i o found => each (i + 1) o found
    rw [List.length_cons, List.range_succ_eq_map, List.mapM_cons, each 0 first rfl,
      List.mapM_map]
    simp only [bind, Except.bind, Function.comp_def, Nat.succ_eq_add_one, others]
    rfl

theorem operands_arithmetic (s : Arithmetic) (token : Token) (n : Nat) :
    ((Simple.arithmetic s).layout.pending token n).operands 1 3 =
      .ok ({ register := s.target.register.code, channel := Terminal.codeOf s.target.mask?
             modifier := s.target.modifier }, s.sources.map (·.operand)) := by
  have target : ((Simple.arithmetic s).layout.pending token n).operand 0 =
      .ok { register := s.target.register.code, channel := Terminal.codeOf s.target.mask?
            modifier := s.target.modifier } :=
    Layout.operand_pending _ token n (by
      rw [← slotOf_destination]
      rfl)
  have sources (i : Nat) (o : Operand) (found : (s.sources.map (·.operand))[i]? = some o) :
      ((Simple.arithmetic s).layout.pending token n).operand (i + 1) = .ok o := by
    rw [List.getElem?_map] at found
    obtain ⟨source, position, rfl⟩ := Option.map_eq_some_iff.mp found
    refine Layout.operand_pending _ token n ?_
    simp [Layout.slots, Simple.layout, position, slotOf_source, Source.operand]
  have count : ((Simple.arithmetic s).layout.pending token n).slot =
      (s.sources.map (·.operand)).length := by
    simp [Layout.pending, Simple.layout]
  -- the arity of the opcode is the number of its sources, so the count is in range
  have bounds : 1 ≤ (s.sources.map (·.operand)).length ∧
      (s.sources.map (·.operand)).length ≤ 3 := by
    rw [List.length_map, s.length_sources]
    cases s.arity <;> decide
  unfold Pending.operands
  rw [if_neg (by omega), target, count, mapM_range sources]
  rfl

private theorem mask_codes : ∀ t ∈ Symbol.terminals .dstMask, t.code ≠ 0 := by decide

private theorem channels_eq (d : Destination) :
    (if Terminal.codeOf d.mask? = 0 then Code.rgba else Terminal.codeOf d.mask?) = d.channels := by
  unfold Destination.channels
  cases mask : d.mask? with
  | none => rfl
  -- zero stands for no mask, and no mask has the code zero
  | some t => exact if_neg (mask_codes t.symbol t.member)

theorem tagged_arithmetic (s : Arithmetic) {i : Instruction} (member : i ∈ s.instructions) :
    i.tag?.isSome = true := by
  have known : (Arity.ofCount? (s.sources.map (·.operand)).length).isSome = true := by
    rw [List.length_map, s.length_sources]
    cases s.arity <;> rfl
  unfold Arithmetic.instructions at member
  rcases List.mem_append.mp member with color | alpha
  · split at color
    · rw [List.mem_singleton.mp color]
      simpa [Arithmetic.color, Instruction.tag?] using known
    · cases color
  · split at alpha
    · rw [List.mem_singleton.mp alpha]
      simpa [Arithmetic.alpha, Instruction.tag?] using known
    · cases alpha

/-- The setting in which a statement is built. -/
def Control.setting (c : Control) (literals : Nat) : Setting :=
  { legacy := c.legacy, marked := c.phaseMarked, expanding := c.expanding, literals }

namespace Assembly

theorem ofExcept_ok_bind {α : Type} (value : α) (next : α → Assembly Unit) :
    (ofExcept (.ok value) >>= next) = next value := rfl

theorem buildAlu_follows (s : Arithmetic) (token : Token) (n : Nat) (c : Control) :
    Follows (buildAlu ((Simple.arithmetic s).layout.pending token n)) c c
      (((Simple.arithmetic s).issues (c.setting n)).map (token.place, ·)) := by
  have queued (i : Instruction) (member : i ∈ s.instructions) (stage : Stage) :
      Follows (commit stage i ((Simple.arithmetic s).layout.pending token n)) c c
        [(token.place, ⟨stage, i⟩)] :=
    commit_follows ⟨stage, i⟩ _ c (tagged_arithmetic s member)
  unfold buildAlu
  rw [operands_arithmetic, ofExcept_ok_bind]
  refine follows_get fun a same => ?_
  have legacy : a.legacy = c.legacy := congrArg Control.legacy same
  have expanding : a.expanding = c.expanding := congrArg Control.expanding same
  have marked : a.phaseMarked = c.phaseMarked := congrArg Control.phaseMarked same
  simp only [channels_eq, legacy, expanding, marked, Simple.issues, Control.setting,
    Arithmetic.instructions, bne_iff_ne]
  -- four cases: neither half, one of them, or colour before alpha
  by_cases color : s.target.channels &&& Code.rgb = 0 <;>
    by_cases alpha : s.target.channels &&& Code.alpha = 0 <;>
    simp only [color, alpha, ne_eq, not_true, not_false_iff, if_true, if_false, List.append_nil,
      List.nil_append, List.map_nil, List.map_cons, List.cons_append]
  · exact follows_pure c
  · exact queued s.alpha (by simp [Arithmetic.instructions, alpha]) _
  · exact (queued s.color (by simp [Arithmetic.instructions, color]) _).andThen (follows_pure c)
  · exact (queued s.color (by simp [Arithmetic.instructions, color]) _).andThen
      (queued s.alpha (by simp [Arithmetic.instructions, alpha]) _)

/-! ### Texture statements and constants -/

private theorem swizzle_codes : ∀ t ∈ Symbol.terminals .texSwizzle, t.code ≠ 0 := by decide

private theorem swizzle_eq (s : Texture) :
    (if Terminal.codeOf s.swizzle? = 0 then Code.swizzleStr else Terminal.codeOf s.swizzle?) =
      s.swizzle := by
  unfold Texture.swizzle
  cases swizzle : s.swizzle? with
  | none => rfl
  | some t => exact if_neg (swizzle_codes t.symbol t.member)

theorem isTemp_tempReg : ∀ t ∈ Symbol.terminals .tempReg, Code.isTemp t.code = true := by decide

private theorem not_isTemp_texCoordReg :
    ∀ t ∈ Symbol.terminals .texCoordReg, Code.isTemp t.code = false := by decide

/-- Only temp registers have the codes of temp registers. -/
theorem dependent_eq (s : Texture) :
    (s.samples && Code.isTemp s.coordinates.code) = s.dependent := by
  unfold Texture.dependent
  cases s.coordinates with
  | interpolator t =>
    have other : Code.isTemp (Coordinates.interpolator t).code = false :=
      not_isTemp_texCoordReg t.symbol t.member
    rw [other, Bool.and_false]
  | temp t =>
    have temp : Code.isTemp (Coordinates.temp t).code = true := isTemp_tempReg t.symbol t.member
    rw [temp, Bool.and_true]

private theorem slots_texture (s : Texture) :
    (Simple.texture s).layout.slots =
      [{ register? := some s.target.code, selector := Terminal.codeOf s.mask?, modifier := 0 },
       { register? := some s.coordinates.code, selector := Terminal.codeOf s.swizzle?
         modifier := 0 }] := by
  obtain ⟨opcode, target, mask, coordinates, swizzle⟩ := s
  cases mask <;> cases coordinates <;> cases swizzle <;>
    simp [Layout.slots, Simple.layout, slotOf, Terminal.leaves, Terminal.leaf, Slot.take,
      Symbol.role?, Coordinates.leaf, Coordinates.code, Terminal.codeOf, Terminal.code]

/-- One source, which both readers of the operands see. -/
theorem operands_texture (s : Texture) (token : Token) (n : Nat) :
    ((Simple.texture s).layout.pending token n).operands 1 1 =
        .ok (⟨s.target.code, Terminal.codeOf s.mask?, 0⟩,
          [⟨s.coordinates.code, Terminal.codeOf s.swizzle?, 0⟩]) ∧
      ((Simple.texture s).layout.pending token n).operand 1 =
        .ok ⟨s.coordinates.code, Terminal.codeOf s.swizzle?, 0⟩ := by
  have target : ((Simple.texture s).layout.pending token n).operand 0 =
      .ok ⟨s.target.code, Terminal.codeOf s.mask?, 0⟩ :=
    Layout.operand_pending _ token n (by rw [slots_texture]; rfl)
  have source : ((Simple.texture s).layout.pending token n).operand 1 =
      .ok ⟨s.coordinates.code, Terminal.codeOf s.swizzle?, 0⟩ :=
    Layout.operand_pending _ token n (by rw [slots_texture]; rfl)
  refine ⟨?_, source⟩
  have count : ((Simple.texture s).layout.pending token n).slot = 1 := rfl
  have single : List.range ((Simple.texture s).layout.pending token n).slot = [0] := rfl
  unfold Pending.operands
  rw [if_neg (by rw [count]; decide), target, single, List.mapM_cons, source]
  rfl

theorem buildTexture_follows (s : Texture) (token : Token) (n : Nat) (c : Control) :
    Follows (buildTexture s.samples ((Simple.texture s).layout.pending token n)) c c
      (((Simple.texture s).issues (c.setting n)).map (token.place, ·)) := by
  obtain ⟨operands, source⟩ := operands_texture s token n
  unfold buildTexture
  rw [operands, ofExcept_ok_bind]
  dsimp only
  rw [source, ofExcept_ok_bind]
  refine follows_get fun a same => ?_
  have marked : a.phaseMarked = c.phaseMarked := congrArg Control.phaseMarked same
  simp only [swizzle_eq, dependent_eq, marked, Simple.issues, Control.setting,
    Texture.instruction, List.map_cons, List.map_nil]
  -- the stage is the same for both kinds of instruction
  cases samples : s.samples with
  | true => exact commit_follows ⟨_, .sampleMap _ _ _⟩ _ c rfl
  | false => exact commit_follows ⟨_, .passTexCoord _ _ _⟩ _ c rfl

theorem interpolator_texRegPs11 : ∀ t ∈ Symbol.terminals .texRegPs11,
    (Code.ordinal? Code.tempRegisters t.code).bind (Code.textureUnits[·]?) =
      some (interpolatorOf t) := by
  decide

theorem buildLegacyTexture_follows (s : LegacyTexture) (token : Token) (n : Nat) (c : Control) :
    Follows (buildLegacyTexture (s.opcode.symbol == .tex)
      ((Simple.legacyTexture s).layout.pending token n)) c c
      (((Simple.legacyTexture s).issues (c.setting n)).map (token.place, ·)) := by
  have target : ((Simple.legacyTexture s).layout.pending token n).operand 0 =
      .ok ⟨s.target.code, 0, 0⟩ := Layout.operand_pending _ token n rfl
  have interpolator := interpolator_texRegPs11 s.target.symbol s.target.member
  unfold buildLegacyTexture
  rw [target, ofExcept_ok_bind]
  simp only [show s.target.code = s.target.symbol.code from rfl, interpolator, Simple.issues,
    LegacyTexture.instruction, List.map_cons, List.map_nil, beq_iff_eq]
  split
  · exact commit_follows ⟨_, .sampleMap _ _ _⟩ _ c rfl
  · exact commit_follows ⟨_, .passTexCoord _ _ _⟩ _ c rfl

theorem buildConstants_follows (register : Terminal .constReg) (token : Token) (n : Nat)
    (c : Control) (enough : n + 4 ≤ c.poolSize) :
    Follows (buildConstants ((Simple.define register).layout.pending token n)) c c
      (((Simple.define register).issues (c.setting n)).map (token.place, ·)) := by
  have target : ((Simple.define register).layout.pending token n).operand 0 =
      .ok ⟨register.code, 0, 0⟩ := Layout.operand_pending _ token n rfl
  unfold buildConstants
  rw [target, ofExcept_ok_bind]
  refine follows_get fun a same => ?_
  have pool : a.poolSize = c.poolSize := congrArg Control.poolSize same
  have first : ((Simple.define register).layout.pending token n).firstConstant = n := rfl
  simp only [pool, first]
  -- the pool holds a value for each numeral, so four are left
  rw [if_neg (by omega)]
  exact commit_follows ⟨_, .setConstants _ _⟩ _ c rfl

/-! ### Statements -/

theorem operation_arithmetic (arity : Arity) :
    ∀ t ∈ (opcodeRule arity).terminals, t.operation? = some .alu := by
  cases arity <;> simp [opcodeRule, Symbol.terminals, Symbol.operation?]

theorem operation_texture : ∀ t ∈ Symbol.terminals .texOpPs14,
    t.operation? = some (.texture (t == .texld)) := by
  simp [Symbol.terminals, Symbol.operation?]

theorem operation_legacyTexture : ∀ t ∈ Symbol.terminals .texOpPs11,
    t.operation? = some (.legacyTexture (t == .tex)) := by
  simp [Symbol.terminals, Symbol.operation?]

/-- Building the pending instruction of a statement queues what the statement contributes. -/
theorem build_follows (expand : Expander) (s : Simple) (token : Token) (n : Nat) (c : Control)
    (enough : n + (Statement.simple s).literals ≤ c.poolSize) :
    Follows (build expand s.layout.opcode.symbol (s.layout.pending token n)) c
      { c with phaseMarked := c.phaseMarked || (Statement.simple s).isMarker }
      ((s.issues (c.setting n)).map (token.place, ·)) := by
  have unmarked (notMarker : (Statement.simple s).isMarker = false) :
      { c with phaseMarked := c.phaseMarked || (Statement.simple s).isMarker } = c := by
    rw [notMarker, Bool.or_false]
  unfold build
  cases s with
  | arithmetic s =>
    have operation : (Simple.arithmetic s).layout.opcode.symbol.operation? = some .alu :=
      operation_arithmetic s.arity s.opcode.symbol s.opcode.member
    rw [unmarked rfl, operation]
    exact buildAlu_follows s token n c
  | texture s =>
    have operation : (Simple.texture s).layout.opcode.symbol.operation? =
        some (.texture s.samples) :=
      operation_texture s.opcode.symbol s.opcode.member
    rw [unmarked rfl, operation]
    exact buildTexture_follows s token n c
  | legacyTexture s =>
    have operation : (Simple.legacyTexture s).layout.opcode.symbol.operation? =
        some (.legacyTexture (s.opcode.symbol == .tex)) :=
      operation_legacyTexture s.opcode.symbol s.opcode.member
    rw [unmarked rfl, operation]
    exact buildLegacyTexture_follows s token n c
  | define register =>
    rw [unmarked rfl]
    -- a definition has four numerals of its own
    refine buildConstants_follows register token n c (Nat.le_trans ?_ enough)
    have numerals : 4 ≤ (Statement.simple (.define register)).literals := by
      simp [Statement.literals, Statement.leaves, Statement.layout, Simple.layout, Layout.leaves,
        Layout.operandLeaves, numeral, comma, List.countP_cons]
    omega
  | phaseMarker =>
    have marked : (c.phaseMarked || (Statement.simple .phaseMarker).isMarker) = true :=
      Bool.or_true _
    rw [marked]
    exact follows_modify fun a same => ⟨rfl, rfl, rfl, by rw [← same]; rfl⟩

end Assembly
end PixelAsm
