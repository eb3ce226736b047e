import PixelAsm.Proofs.Building
import PixelAsm.Proofs.Linking

/-!
# Scanning a program

The assembler takes tokens one at a time and completes an instruction only when the next
opcode arrives. Seen from its statements, a program is scanned by loading one statement
after the other into an empty pending instruction and flushing it.
-/
namespace PixelAsm

open Syntax

/-! ### Loading a statement -/

/-- The leaf is part of an operand and fills its slot. -/
def Leaf.isPart (l : Leaf) : Bool :=
  match l.rule.role? with
  | some .register | some .selector | some .modifier => l.symbol != .value
  | _ => false

/-- How many numerals there are among leaves. -/
def numerals (leaves : List Leaf) : Nat := leaves.countP (·.symbol == .value)

theorem numerals_append (ls ms : List Leaf) :
    numerals (ls ++ ms) = numerals ls + numerals ms := List.countP_append

theorem numerals_eq_zero {leaves : List Leaf} (parts : ∀ l ∈ leaves, l.isPart = true) :
    numerals leaves = 0 := by
  refine List.countP_eq_zero.mpr fun l member value => ?_
  have part := parts l member
  unfold Leaf.isPart at part
  split at part
  all_goals simp_all

/-- The leaves of a statement have the roles that loading it relies on. -/
structure Syntax.Layout.Loads (l : Layout) : Prop where
  mark : ∀ x ∈ l.mark, x.rule.role? = some .ignored ∧ x.symbol ≠ .value
  opcode : l.opcode.rule.role? = some .opcode ∧ l.opcode.symbol ≠ .value
  target : ∀ x ∈ l.target, x.isPart = true
  others : ∀ leaves ∈ l.others, ∀ x ∈ leaves, x.isPart = true ∨ x = numeral
  count : l.others.length < slotLimit

/-- The token starts a statement. -/
def Token.isOpcode (t : Token) : Bool :=
  (Symbol.ofId? t.rule).bind Symbol.role? == some .opcode

/-- The tokens that start statements, one for each statement. -/
def opcodes (tokens : List Token) : List Token := tokens.filter (·.isOpcode)

/-- No operand is a numeral. -/
def Syntax.Layout.Unvalued (l : Layout) : Prop :=
  ∀ leaves ∈ l.others, ∀ x ∈ leaves, x.isPart = true

section Parts

private theorem part_leaf {rule : Symbol} (t : Terminal rule)
    (each : ∀ s ∈ rule.terminals, (⟨s, rule⟩ : Leaf).isPart = true) : t.leaf.isPart = true :=
  each t.symbol t.member

private theorem parts_leaves {rule : Symbol} (t? : Option (Terminal rule))
    (each : ∀ s ∈ rule.terminals, (⟨s, rule⟩ : Leaf).isPart = true) :
    ∀ x ∈ Terminal.leaves t?, x.isPart = true := by
  intro x member
  cases t? with
  | none => cases member
  | some t =>
    rw [List.mem_singleton.mp member]
    exact part_leaf t each

private theorem parts_destination (d : Destination) : ∀ x ∈ d.leaves, x.isPart = true := by
  intro x member
  simp only [Destination.leaves, List.mem_append, List.mem_singleton] at member
  rcases member with ((scale | saturate) | rfl) | mask
  · exact parts_leaves d.scale? (by decide) x scale
  · exact parts_leaves d.saturate? (by decide) x saturate
  · exact part_leaf d.register (by decide)
  · exact parts_leaves d.mask? (by decide) x mask

private theorem parts_source (s : Source) : ∀ x ∈ s.leaves, x.isPart = true := by
  have register : s.register.leaf.isPart = true := by
    cases s.register with
    | temp r => exact part_leaf r (by decide)
    | constant r => exact part_leaf r (by decide)
    | color r => exact part_leaf r (by decide)
  intro x member
  simp only [Source.leaves, List.mem_append, List.mem_singleton] at member
  rcases member with ((before | rfl) | behind) | replicate
  · exact parts_leaves s.before? (by decide) x before
  · exact register
  · exact parts_leaves s.behind? (by decide) x behind
  · exact parts_leaves s.replicate? (by decide) x replicate

private theorem opcode_roles {rule : Symbol} (t : Terminal rule)
    (role : rule.role? = some .opcode) (known : Symbol.value ∉ rule.terminals) :
    t.leaf.rule.role? = some .opcode ∧ t.leaf.symbol ≠ .value :=
  ⟨role, fun same => known (same ▸ t.member)⟩

private theorem unvalued_arithmetic (s : Arithmetic) : (Simple.arithmetic s).layout.Unvalued := by
  intro leaves member
  obtain ⟨source, -, rfl⟩ := List.mem_map.mp member
  exact parts_source source

private theorem loads_arithmetic (s : Arithmetic) : (Simple.arithmetic s).layout.Loads where
  mark := by
    intro x member
    cases mark : s.coIssue? with
    | none => simp [Simple.layout, mark, Terminal.leaves] at member
    | some t =>
      have same : x = t.leaf := by simpa [Simple.layout, mark, Terminal.leaves] using member
      have known : t.symbol ≠ .value := by
        intro value
        have member := t.member
        rw [value] at member
        exact absurd member (by decide)
      rw [same]
      exact ⟨rfl, known⟩
  opcode := by
    obtain ⟨coIssue, arity, opcode, target, sources, length⟩ := s
    cases arity <;> exact opcode_roles opcode rfl (by decide)
  target := parts_destination s.target
  others := fun leaves member x inside => .inl (unvalued_arithmetic s leaves member x inside)
  count := by
    have few : s.arity.count < slotLimit := by cases s.arity <;> decide
    simpa [Simple.layout, s.length_sources] using few

private theorem unvalued_texture (s : Texture) : (Simple.texture s).layout.Unvalued := by
  have coordinates : s.coordinates.leaf.isPart = true := by
    cases s.coordinates with
    | interpolator r => exact part_leaf r (by decide)
    | temp r => exact part_leaf r (by decide)
  intro leaves member x inside
  rw [List.mem_singleton.mp member] at inside
  rcases List.mem_cons.mp inside with rfl | swizzle
  · exact coordinates
  · exact parts_leaves s.swizzle? (by decide) x swizzle

private theorem loads_texture (s : Texture) : (Simple.texture s).layout.Loads where
  mark := by simp [Simple.layout]
  opcode := opcode_roles s.opcode rfl (by decide)
  target := by
    intro x member
    rcases List.mem_cons.mp member with rfl | mask
    · exact part_leaf s.target (by decide)
    · exact parts_leaves s.mask? (by decide) x mask
  others := fun leaves member x inside => .inl (unvalued_texture s leaves member x inside)
  count := by simp [Simple.layout, slotLimit]

theorem Syntax.Simple.loads (s : Simple) : s.layout.Loads := by
  cases s with
  | arithmetic s => exact loads_arithmetic s
  | texture s => exact loads_texture s
  | legacyTexture s =>
    refine ⟨by simp [Simple.layout], opcode_roles s.opcode rfl (by decide), ?_, ?_, ?_⟩
    · simpa [Simple.layout] using part_leaf s.target (by decide)
    · simp [Simple.layout]
    · simp [Simple.layout, slotLimit]
  | define register =>
    refine ⟨by simp [Simple.layout], by simp [Simple.layout, Symbol.role?], ?_, ?_, ?_⟩
    · simpa [Simple.layout] using part_leaf register (by decide)
    · simp [Simple.layout]
    · simp [Simple.layout, slotLimit]
  | phaseMarker =>
    exact ⟨by simp [Simple.layout], by simp [Simple.layout, Symbol.role?],
      by simp [Simple.layout], by simp [Simple.layout], by simp [Simple.layout, slotLimit]⟩

theorem Syntax.Composite.loads (s : Composite) : s.layout.Loads := by
  cases s with
  | plain opcode x y =>
    refine ⟨by simp [Composite.layout], opcode_roles opcode rfl (by decide), ?_, ?_, ?_⟩
    · simpa [Composite.layout] using part_leaf x (by decide)
    · simpa [Composite.layout] using Or.inl (part_leaf y (by decide))
    · simp [Composite.layout, slotLimit]
  | reflection opcode x y z =>
    refine ⟨by simp [Composite.layout], opcode_roles opcode rfl (by decide), ?_, ?_, ?_⟩
    · simpa [Composite.layout] using part_leaf x (by decide)
    · simpa [Composite.layout] using
        ⟨Or.inl (part_leaf y (by decide)), Or.inl (part_leaf z (by decide))⟩
    · simp [Composite.layout, slotLimit]

theorem Syntax.Statement.loads (s : Statement) : s.layout.Loads := by
  cases s with
  | simple s => exact s.loads
  | composite s => exact s.loads

/-- The numerals of a statement are those of its sources. -/
theorem Syntax.Layout.Loads.numerals_eq {l : Layout} (loads : l.Loads) :
    numerals l.leaves = numerals (l.others.flatMap (comma :: ·)) := by
  have marks : numerals l.mark = 0 :=
    List.countP_eq_zero.mpr fun x member => by simpa using (loads.mark x member).2
  have opcode : numerals (l.opcode :: l.operandLeaves) = numerals l.operandLeaves :=
    List.countP_cons_of_neg (by simpa using loads.opcode.2)
  rw [Layout.leaves, numerals_append, marks, opcode, Layout.operandLeaves, numerals_append,
    numerals_eq_zero loads.target, Nat.zero_add, Nat.zero_add]

theorem Syntax.Layout.Unvalued.numerals_others {l : Layout} (unvalued : l.Unvalued) :
    numerals (l.others.flatMap (comma :: ·)) = 0 := by
  refine List.countP_eq_zero.mpr fun x member => ?_
  obtain ⟨leaves, operand, inside⟩ := List.mem_flatMap.mp member
  rcases List.mem_cons.mp inside with rfl | inside
  · decide
  · exact List.countP_eq_zero.mp (numerals_eq_zero (unvalued leaves operand)) x inside

/-- Only definitions hold numerals. -/
theorem Syntax.Simple.literals_eq_zero (s : Simple) (other : ∀ r, s ≠ .define r) :
    (Statement.simple s).literals = 0 := by
  have unvalued : s.layout.Unvalued := by
    cases s with
    | arithmetic s => exact unvalued_arithmetic s
    | texture s => exact unvalued_texture s
    | legacyTexture s => simp [Layout.Unvalued, Simple.layout]
    | define register => exact absurd rfl (other register)
    | phaseMarker => simp [Layout.Unvalued, Simple.layout]
  exact s.loads.numerals_eq.trans unvalued.numerals_others

theorem Syntax.Composite.literals_eq_zero (s : Composite) :
    (Statement.composite s).literals = 0 := by
  have unvalued : s.layout.Unvalued := by
    cases s with
    | plain opcode x y =>
      simpa [Layout.Unvalued, Composite.layout] using part_leaf y (by decide)
    | reflection opcode x y z =>
      simpa [Layout.Unvalued, Composite.layout] using
        ⟨part_leaf y (by decide), part_leaf z (by decide)⟩
  exact s.loads.numerals_eq.trans unvalued.numerals_others

end Parts

namespace Assembler

/-- The leaves of an operand go to the slot at hand. -/
def fill (a : Assembler) (leaves : List Leaf) : Assembler :=
  { a with
    pending := a.pending.modifySlot (leaves.foldl Slot.take ·)
    constantsSeen := a.constantsSeen + numerals leaves }

theorem fill_nil (a : Assembler) : a.fill [] = a := by
  have same : a.pending.modifySlot (fun slot => slot) = a.pending := by
    simp only [Pending.modifySlot]
    rw [show (fun slot : Slot => slot) = id from rfl, List.modify_id]
  simp only [fill, List.foldl_nil, same]
  rfl

theorem fill_cons (a : Assembler) (l : Leaf) (rest : List Leaf) :
    a.fill (l :: rest) = (a.fill [l]).fill rest := by
  simp [fill, Pending.modifySlot, numerals, List.countP_cons, List.modify_modify_eq,
    Function.comp_def, Nat.add_assoc, Nat.add_comm]

/-- The statement has been loaded. -/
def load (a : Assembler) (l : Layout) (token : Token) : Assembler :=
  { a with
    pending := l.pending token a.constantsSeen
    constantsSeen := a.constantsSeen + numerals l.leaves }

/-- The first slots of a statement have been loaded, and `seen` numerals were seen so far. -/
def loading (a : Assembler) (l : Layout) (token : Token) (slots : List Slot) (slot seen : Nat) :
    Assembler :=
  { a with
    pending :=
      { l.pending token a.constantsSeen with
        slot, slots := slots ++ List.replicate (slotLimit - slots.length) ({} : Slot) }
    constantsSeen := seen }

end Assembler

namespace Assembly

variable {expand : Expander} {codeOf : SymbolId → UInt32}

theorem processAll_append (ts us : List Token) :
    processAll expand codeOf (ts ++ us) =
      (do processAll expand codeOf ts; processAll expand codeOf us) := by
  induction ts with
  | nil => rfl
  | cons t rest ih =>
    simp only [List.cons_append, processAll, ih, bind_assoc]

private theorem known_of_key {token : Token} {l : Leaf} (key : token.key = l.key) :
    Symbol.ofId? token.id = some l.symbol ∧
      (Symbol.ofId? token.rule).bind Symbol.role? = l.rule.role? := by
  obtain ⟨id, rule⟩ := Prod.mk.inj key
  rw [id, rule, Symbol.ofId?_id, Symbol.ofId?_id]
  exact ⟨rfl, rfl⟩

private theorem opcodes_eq_nil {tokens : List Token} {leaves : List Leaf}
    (keys : tokens.map Token.key = leaves.map Leaf.key)
    (others : ∀ x ∈ leaves, x.rule.role? ≠ some .opcode) : opcodes tokens = [] := by
  refine List.filter_eq_nil_iff.mpr fun token member => ?_
  have listed : token.key ∈ leaves.map Leaf.key := keys ▸ List.mem_map_of_mem member
  obtain ⟨l, inside, key⟩ := List.mem_map.mp listed
  have role := (known_of_key key.symm).2
  simpa [Token.isOpcode, role] using others l inside

private theorem role_of_fills {l : Leaf} (fills : l.isPart = true ∨ l = numeral) :
    l.rule.role? ≠ some .opcode := by
  rcases fills with part | rfl
  · intro opcode
    simp [Leaf.isPart, opcode] at part
  · decide

/-- A leaf of an operand only touches the slot at hand. -/
private theorem process_part (coded : ∀ s : Symbol, codeOf s.id = s.code) {token : Token}
    {l : Leaf} (key : token.key = l.key) (part : l.isPart = true) :
    process expand codeOf token = modify (·.fill [l]) := by
  obtain ⟨symbol, role⟩ := known_of_key key
  have code : codeOf token.id = l.symbol.code := by
    rw [(Prod.mk.inj key).1, coded]
  unfold Leaf.isPart at part
  unfold process
  rw [symbol, role, code]
  funext a
  -- a part is a register, a selector or a modifier; each changes the slot at hand and no more
  cases filled : l.rule.role? with
  | none => simp [filled] at part
  | some r =>
    cases r <;> simp only [filled, Bool.false_eq_true, bne_iff_ne] at part
    all_goals
      simp [modifyPending, modify_apply, Assembler.fill, numerals, part, Slot.take, filled]

/-- A numeral is only counted. -/
private theorem process_numeral {token : Token} (key : token.key = numeral.key) :
    process expand codeOf token = modify (·.fill [numeral]) := by
  obtain ⟨symbol, role⟩ := known_of_key key
  -- taking a numeral changes no slot, so filling with it only counts
  have kept (p : Pending) : p.modifySlot (fun slot => slot.take numeral) = p := by
    rw [show (fun slot : Slot => slot.take numeral) = id from rfl, Pending.modifySlot,
      List.modify_id]
  unfold process
  rw [symbol, role]
  funext a
  simp [numeral, Symbol.role?, modify_apply, Assembler.fill, numerals]
  exact (kept a.pending).symm

theorem processAll_fills (coded : ∀ s : Symbol, codeOf s.id = s.code) {tokens : List Token}
    {leaves : List Leaf} (keys : tokens.map Token.key = leaves.map Leaf.key)
    (fills : ∀ x ∈ leaves, x.isPart = true ∨ x = numeral) (a : Assembler) :
    processAll expand codeOf tokens a = .ok () (a.fill leaves) := by
  induction leaves generalizing tokens a with
  | nil =>
    obtain rfl := List.map_eq_nil_iff.mp keys
    rw [a.fill_nil]
    rfl
  | cons l rest ih =>
    obtain ⟨token, others, rfl, key, keys⟩ := List.map_eq_cons_iff.mp keys
    -- tokens and leaves correspond one to one, so the first token fills with the first leaf
    have first : process expand codeOf token = modify (·.fill [l]) := by
      rcases fills l (List.mem_cons_self ..) with part | rfl
      · exact process_part coded key part
      · exact process_numeral key
    rw [processAll, bind_apply, first, a.fill_cons]
    exact ih keys (fun x member => fills x (List.mem_cons_of_mem l member)) (a.fill [l])

private theorem modify_append {α : Type} (before behind : List α) (x : α) (f : α → α) :
    (before ++ x :: behind).modify before.length f = before ++ f x :: behind :=
  List.modifyTailIdx_add (List.modifyHead f) 0 before (x :: behind)

/-- Filling the first slot that is free. -/
private theorem fill_loading (a : Assembler) (l : Layout) (token : Token) (slots : List Slot)
    (seen : Nat) (leaves : List Leaf) (free : slots.length < slotLimit) :
    (a.loading l token slots slots.length seen).fill leaves =
      a.loading l token (slots ++ [slotOf leaves]) slots.length (seen + numerals leaves) := by
  -- the slot at hand is the first of the empty ones behind those that are done
  have room : slotLimit - slots.length = slotLimit - (slots ++ [slotOf leaves]).length + 1 := by
    rw [List.length_append, List.length_singleton]
    omega
  have filled : (slots ++ List.replicate (slotLimit - slots.length) ({} : Slot)).modify
        slots.length (leaves.foldl Slot.take ·) =
      (slots ++ [slotOf leaves])
        ++ List.replicate (slotLimit - (slots ++ [slotOf leaves]).length) ({} : Slot) := by
    rw [room, List.replicate_succ, modify_append, List.append_assoc]
    rfl
  simp only [Assembler.fill, Assembler.loading, Pending.modifySlot, filled]

private theorem process_comma {token : Token} (key : token.key = comma.key) (a : Assembler)
    (free : a.pending.slot + 1 < slotLimit) :
    process expand codeOf token a =
      .ok () { a with pending := { a.pending with slot := a.pending.slot + 1 } } := by
  obtain ⟨symbol, role⟩ := known_of_key key
  unfold process
  rw [symbol, role]
  -- the check for too many operands does not fire
  have full : ¬ slotLimit ≤ a.pending.slot + 1 := by omega
  simp [comma, Symbol.role?, bind_apply, get_apply, full, modifyPending, modify_apply]

/-- The sources of a statement go to its slots from left to right. -/
private theorem processAll_others (coded : ∀ s : Symbol, codeOf s.id = s.code) (l : Layout)
    (token : Token) (a : Assembler) (others : List (List Leaf))
    (fills : ∀ leaves ∈ others, ∀ x ∈ leaves, x.isPart = true ∨ x = numeral) (first : Slot)
    (done : List Slot) (seen : Nat) (free : done.length + others.length < slotLimit)
    {tokens : List Token}
    (keys : tokens.map Token.key = (others.flatMap (comma :: ·)).map Leaf.key) :
    processAll expand codeOf tokens (a.loading l token (first :: done) done.length seen) =
      .ok () (a.loading l token (first :: done ++ others.map slotOf)
        (done.length + others.length) (seen + numerals (others.flatMap (comma :: ·)))) := by
  induction others generalizing done seen tokens with
  | nil =>
    obtain rfl := List.map_eq_nil_iff.mp keys
    simp only [List.map_nil, List.append_nil]
    rfl
  | cons leaves rest ih =>
    rw [List.flatMap_cons, List.cons_append, List.map_cons, List.map_append] at keys
    obtain ⟨separator, operand, rfl, key, operandKeys⟩ := List.map_eq_cons_iff.mp keys
    obtain ⟨ts, us, rfl, tsKeys, usKeys⟩ := List.map_eq_append_iff.mp operandKeys
    rw [List.length_cons] at free
    -- the separator moves on to the free slot, the operand fills it
    have moved : process expand codeOf separator
          (a.loading l token (first :: done) done.length seen) =
        .ok () (a.loading l token (first :: done) (first :: done).length seen) :=
      process_comma key _ (by simp only [Assembler.loading]; omega)
    have filled : processAll expand codeOf ts
          (a.loading l token (first :: done) (first :: done).length seen) =
        .ok () (a.loading l token (first :: done ++ [slotOf leaves]) (first :: done).length
          (seen + numerals leaves)) := by
      rw [processAll_fills coded tsKeys (fills leaves (List.mem_cons_self ..)),
        fill_loading _ _ _ _ _ _ (by rw [List.length_cons]; omega)]
    have others := ih (fun ls member => fills ls (List.mem_cons_of_mem leaves member))
      (done ++ [slotOf leaves]) (seen + numerals leaves)
      (by rw [List.length_append, List.length_singleton]; omega) usKeys
    rw [List.length_append, List.length_singleton] at others
    rw [processAll, bind_apply, moved]
    simp only [processAll_append, bind_apply, filled]
    refine others.trans ?_
    have count : numerals ((leaves :: rest).flatMap (comma :: ·)) =
        numerals leaves + numerals (rest.flatMap (comma :: ·)) := by
      rw [List.flatMap_cons, numerals_append]
      rfl
    rw [count, List.map_cons, List.length_cons]
    simp only [List.append_assoc, List.cons_append, List.nil_append, Nat.add_assoc,
      Nat.add_comm 1]

private theorem processAll_marks {tokens : List Token} {leaves : List Leaf}
    (keys : tokens.map Token.key = leaves.map Leaf.key)
    (ignored : ∀ x ∈ leaves, x.rule.role? = some .ignored) :
    processAll expand codeOf tokens = pure () := by
  induction leaves generalizing tokens with
  | nil =>
    obtain rfl := List.map_eq_nil_iff.mp keys
    rfl
  | cons l rest ih =>
    obtain ⟨token, others, rfl, key, keys⟩ := List.map_eq_cons_iff.mp keys
    obtain ⟨symbol, role⟩ := known_of_key key
    have skipped : process expand codeOf token = pure () := by
      unfold process
      rw [symbol, role, ignored l (List.mem_cons_self ..)]
    rw [processAll, skipped, pure_bind]
    exact ih keys fun x member => ignored x (List.mem_cons_of_mem l member)

private theorem process_opcode (coded : ∀ s : Symbol, codeOf s.id = s.code) (l : Layout)
    (loads : l.Loads) {token : Token} (key : token.key = l.opcode.key) :
    process expand codeOf token =
      (do flush expand; modify fun a => a.loading l token [] 0 a.constantsSeen) := by
  obtain ⟨symbol, role⟩ := known_of_key key
  have code : codeOf token.id = l.opcode.symbol.code := by
    rw [(Prod.mk.inj key).1, coded]
  unfold process
  rw [symbol, role, loads.opcode.1, code]
  rfl

private theorem processAll_operands (coded : ∀ s : Symbol, codeOf s.id = s.code) (l : Layout)
    (loads : l.Loads) {tokens : List Token}
    (keys : tokens.map Token.key = l.operandLeaves.map Leaf.key) (token : Token)
    (a : Assembler) :
    processAll expand codeOf tokens (a.loading l token [] 0 a.constantsSeen) =
      .ok () (a.load l token) := by
  rw [Layout.operandLeaves, List.map_append] at keys
  obtain ⟨ts, us, rfl, tsKeys, usKeys⟩ := List.map_eq_append_iff.mp keys
  -- no separator stands in front of the destination: it fills slot zero
  have target : processAll expand codeOf ts (a.loading l token [] 0 a.constantsSeen) =
      .ok () (a.loading l token [slotOf l.target] 0 a.constantsSeen) := by
    have filled := fill_loading a l token [] a.constantsSeen l.target (by decide)
    rw [numerals_eq_zero loads.target] at filled
    rw [processAll_fills coded tsKeys fun x member => .inl (loads.target x member)]
    exact congrArg _ filled
  have others : processAll expand codeOf us _ = .ok () _ :=
    processAll_others coded l token a l.others loads.others (slotOf l.target) []
      a.constantsSeen (by simpa using loads.count) usKeys
  rw [processAll_append, bind_apply, target]
  refine others.trans ?_
  simp only [Assembler.load, Assembler.loading, loads.numerals_eq, List.length_nil, Nat.zero_add]
  rfl

/-- The tokens of a statement first complete the statement before it, then load this one. -/
theorem processAll_statement (coded : ∀ s : Symbol, codeOf s.id = s.code) (l : Layout)
    (loads : l.Loads) {tokens : List Token}
    (keys : tokens.map Token.key = l.leaves.map Leaf.key) :
    ∃ token, opcodes tokens = [token] ∧ token.key = l.opcode.key ∧
      processAll expand codeOf tokens = (do flush expand; modify (·.load l token)) := by
  rw [Layout.leaves, List.map_append] at keys
  obtain ⟨marks, behind, rfl, marksKeys, behindKeys⟩ := List.map_eq_append_iff.mp keys
  obtain ⟨token, operands, rfl, key, operandKeys⟩ := List.map_eq_cons_iff.mp behindKeys
  refine ⟨token, ?_, key, ?_⟩
  · have opens : token.isOpcode = true := by
      simp [Token.isOpcode, (known_of_key key).2, loads.opcode.1]
    have front : opcodes marks = [] :=
      opcodes_eq_nil marksKeys fun x member => by simp [(loads.mark x member).1]
    have back : opcodes operands = [] := by
      refine opcodes_eq_nil operandKeys fun x member => ?_
      rcases List.mem_append.mp member with target | other
      · exact role_of_fills (.inl (loads.target x target))
      · obtain ⟨leaves, inside, other⟩ := List.mem_flatMap.mp other
        rcases List.mem_cons.mp other with rfl | operand
        · decide
        · exact role_of_fills (loads.others leaves inside x operand)
    unfold opcodes at front back ⊢
    rw [List.filter_append, List.filter_cons_of_pos opens, front, back, List.nil_append]
  -- the mark is skipped, the opcode flushes and opens, the operands load
  rw [processAll_append, processAll_marks marksKeys fun x member => (loads.mark x member).1,
    pure_bind, processAll, process_opcode coded l loads key, bind_assoc]
  congr
  funext _ a
  rw [bind_apply]
  exact processAll_operands coded l loads operandKeys token a

/-! ### One statement after the other -/

/-- Loads a statement and completes it. -/
def enact (expand : Expander) (l : Layout) (token : Token) : Assembly Unit := do
  modify (·.load l token)
  flush expand

def enactAll (expand : Expander) : List (Layout × Token) → Assembly Unit
  | [] => pure ()
  | (l, token) :: rest => do
    enact expand l token
    enactAll expand rest

theorem scanWith_statements (coded : ∀ s : Symbol, codeOf s.id = s.code)
    (statements : List Layout) (loads : ∀ l ∈ statements, l.Loads) {tokens : List Token}
    (keys : tokens.map Token.key = (statements.flatMap (·.leaves)).map Leaf.key) :
    ∃ loaded : List (Layout × Token), loaded.map (·.1) = statements ∧
      loaded.map (·.2) = opcodes tokens ∧ (∀ x ∈ loaded, x.2.key = x.1.opcode.key) ∧
      scanWith expand codeOf tokens = (do flush expand; enactAll expand loaded) := by
  induction statements generalizing tokens with
  | nil =>
    obtain rfl := List.map_eq_nil_iff.mp keys
    refine ⟨[], rfl, rfl, by simp, ?_⟩
    simp only [scanWith, processAll, enactAll, pure_bind]
    exact (bind_pure (flush expand)).symm
  | cons l rest ih =>
    rw [List.flatMap_cons, List.map_append] at keys
    obtain ⟨ts, us, rfl, tsKeys, usKeys⟩ := List.map_eq_append_iff.mp keys
    -- the flush that the opcode of a statement asks for is the one that completes the statement
    -- before it; regrouping moves each flush to the statement that it completes
    obtain ⟨token, opens, key, loaded⟩ : ∃ token, opcodes ts = [token] ∧
        token.key = l.opcode.key ∧ processAll expand codeOf ts = _ :=
      processAll_statement coded l (loads l (List.mem_cons_self ..)) tsKeys
    obtain ⟨others, same, tokens, named, scanned⟩ :=
      ih (fun m member => loads m (List.mem_cons_of_mem l member)) usKeys
    refine ⟨(l, token) :: others, by rw [List.map_cons, same], ?_, ?_, ?_⟩
    · rw [opcodes] at opens tokens
      rw [opcodes, List.map_cons, tokens, List.filter_append, opens, List.singleton_append]
    · simpa [key] using named
    unfold scanWith at scanned ⊢
    rw [processAll_append, loaded]
    simp only [bind_assoc, enactAll, enact, scanned]

/-- Completing a pending instruction is building it. -/
theorem flush_follows {opcode : Symbol} {before after : Control}
    {issues : List (Place × Issue)} (pending : before.pending.opcode? = some opcode)
    (idle : after.pending.opcode? = none)
    (built : Follows (build expand opcode before.pending) { before with pending := {} } after
      issues) :
    Follows (flush expand) before after issues := by
  unfold flush
  refine follows_get fun a same => ?_
  have known : a.pending = before.pending := congrArg Control.pending same
  simp only [known, pending]
  -- the pending instruction is cleared, built, and found cleared at the end
  have cleared : Follows (modify ({ · with pending := {} })) before
      { before with pending := {} } [] :=
    follows_modify fun b sameB => ⟨rfl, rfl, rfl, by rw [← sameB]; rfl⟩
  have done : Follows (do
      let left := (← get).pending
      if left.opcode?.isSome then throw (.pipeNotCleared left.place)) after after [] := by
    refine follows_get fun b sameB => ?_
    have empty : b.pending.opcode? = none := by
      rw [show b.pending = after.pending from congrArg Control.pending sameB, idle]
    simp only [empty, Option.isSome_none, Bool.false_eq_true, if_false]
    exact follows_pure after
  simpa using cleared.andThen (built.andThen done)

theorem flush_idle {c : Control} (idle : c.pending.opcode? = none) :
    Follows (flush expand) c c [] := by
  unfold flush
  refine follows_get fun a same => ?_
  have empty : a.pending.opcode? = none := by
    rw [show a.pending = c.pending from congrArg Control.pending same, idle]
  simp only [empty]
  refine follows_get fun b sameB => ?_
  have stillEmpty : b.pending.opcode? = none := by
    rw [show b.pending = c.pending from congrArg Control.pending sameB, idle]
  simp only [stillEmpty, Option.isSome_none, Bool.false_eq_true, if_false]
  exact follows_pure c

theorem enact_follows {l : Layout} {token : Token} {before after : Control}
    {issues : List (Place × Issue)} (idle : after.pending.opcode? = none)
    (built : Follows (build expand l.opcode.symbol (l.pending token before.constantsSeen))
      { before with
        pending := {}, constantsSeen := before.constantsSeen + numerals l.leaves } after issues) :
    Follows (enact expand l token) before after issues := by
  have loaded : Follows (modify (·.load l token)) before
      { before with
        pending := l.pending token before.constantsSeen
        constantsSeen := before.constantsSeen + numerals l.leaves } [] :=
    follows_modify fun a same => ⟨rfl, rfl, rfl, by rw [← same]; rfl⟩
  exact loaded.andThen (flush_follows rfl idle built)

end Assembly

/-- The control data behind a statement. -/
def Control.behind (c : Control) (s : Statement) : Control :=
  { c with
    phaseMarked := c.phaseMarked || s.isMarker
    constantsSeen := c.constantsSeen + s.literals
    secondRow := c.secondRow ^^ s.isRow }

namespace Assembly

/-- Enacting statements that stand for themselves queues their contributions. -/
theorem enact_simple (s : Simple) (token : Token) (c : Control) (idle : c.pending = {})
    (enough : c.constantsSeen + (Statement.simple s).literals ≤ c.poolSize) :
    Follows (enact expand s.layout token) c (c.behind (.simple s))
      ((s.issues (c.setting c.constantsSeen)).map (token.place, ·)) := by
  refine enact_follows (by simp [Control.behind, idle]) ?_
  have built := build_follows expand s token c.constantsSeen
    { c with constantsSeen := c.constantsSeen + (Statement.simple s).literals } enough
  -- only composite statements are matrix rows
  have row : (c.secondRow ^^ (Statement.simple s).isRow) = c.secondRow := Bool.xor_false _
  obtain ⟨pending, marked, expanding, legacy, seen, pool, second⟩ := c
  subst idle
  simp only [Control.behind, row]
  exact built

/-- Statements that hold no numerals and no marker leave the control data alone. -/
theorem enactAll_simples (loaded : List (Layout × Token)) (ss : List Simple)
    (same : loaded.map (·.1) = ss.map (·.layout)) {place : Place}
    (placed : ∀ x ∈ loaded, x.2.place = place) (c : Control) (idle : c.pending = {})
    (inert : ∀ s ∈ ss, c.behind (.simple s) = c) (enough : c.constantsSeen ≤ c.poolSize) :
    Follows (enactAll expand loaded) c c
      ((ss.flatMap (·.issues (c.setting c.constantsSeen))).map (place, ·)) := by
  induction ss generalizing loaded with
  | nil =>
    obtain rfl := List.map_eq_nil_iff.mp same
    exact follows_pure c
  | cons s rest ih =>
    obtain ⟨⟨l, token⟩, others, rfl, rfl, sameOthers⟩ := List.map_eq_cons_iff.mp same
    have follows := ih others sameOthers
      (fun x member => placed x (List.mem_cons_of_mem _ member))
      fun t member => inert t (List.mem_cons_of_mem s member)
    -- the control data do not change, so the rest starts where the first started
    have still := inert s (List.mem_cons_self ..)
    have none : c.constantsSeen + (Statement.simple s).literals = c.constantsSeen :=
      congrArg Control.constantsSeen still
    have first : Follows (enact expand s.layout token) c (c.behind (.simple s))
        ((s.issues (c.setting c.constantsSeen)).map (token.place, ·)) :=
      enact_simple s token c idle (by omega)
    have here : token.place = place := placed _ (List.mem_cons_self ..)
    rw [still, here] at first
    rw [List.flatMap_cons, List.map_append]
    exact first.andThen follows

/-! ### Expansions -/

/-- The operands of a composite statement. -/
def operandAt (s : Composite) (bank : Bank) (index : Nat) : Option Leaf :=
  match s, bank, index with
  | .plain _ x _, .temp, 0 => some (tempOf x).leaf
  | .plain _ _ y, .temp, 1 => some (tempOf y).leaf
  | .plain _ x _, .legacyTexture, 0 => some x.leaf
  | .reflection _ x _ _, .temp, 0 => some (tempOf x).leaf
  | .reflection _ _ y _, .temp, 1 => some (tempOf y).leaf
  | .reflection _ x _ _, .legacyTexture, 0 => some x.leaf
  | .reflection _ _ _ z, .constant, 2 => some z.leaf
  | _, _, _ => none

/-- What the places of a template stand for. -/
def leafAt (rowMask : Symbol) (s : Composite) : TemplateItem → Option Leaf
  | .token symbol rule => some ⟨symbol, rule⟩
  | .rowMask => some ⟨rowMask, .dstMask⟩
  | .operand bank index => operandAt s bank index

private theorem symbolFor_temp (t : Terminal .texRegPs11) :
    Bank.symbolFor? .temp t.code = some (tempOf t).symbol := by
  obtain ⟨symbol, member⟩ := t
  simp only [Symbol.terminals, List.mem_cons, List.not_mem_nil, or_false] at member
  rcases member with rfl | rfl | rfl | rfl <;> rfl

private theorem symbolFor_legacyTexture : ∀ t ∈ Symbol.terminals .texRegPs11,
    Bank.symbolFor? .legacyTexture t.code = some t := by
  decide

private theorem symbolFor_constant : ∀ t ∈ Symbol.terminals .constReg,
    Bank.symbolFor? .constant t.code = some t := by
  decide

private theorem resolve_operand (s : Composite) (rowMask : Symbol) (token : Token) (n : Nat)
    (bank : Bank) (index : Nat) {l : Leaf} (known : operandAt s bank index = some l) :
    Template.resolve (s.layout.pending token n).register? rowMask token.place
        (.operand bank index) =
      .ok { id := l.symbol.id, rule := l.rule.id, place := token.place } := by
  have filled {register : UInt32} {symbol : Symbol}
      (slot : (s.layout.pending token n).register? index = some register)
      (found : bank.symbolFor? register = some symbol) :
      Template.resolve (s.layout.pending token n).register? rowMask token.place
          (.operand bank index) =
        .ok { id := symbol.id, rule := bank.rule.id, place := token.place } := by
    simp only [Template.resolve, slot, found]
  unfold operandAt at known
  -- each register is found again in the bank that its operand names
  split at known <;> cases known
  · exact filled rfl (symbolFor_temp _)
  · exact filled rfl (symbolFor_temp _)
  · exact filled rfl (symbolFor_legacyTexture _ (Terminal.member _))
  · exact filled rfl (symbolFor_temp _)
  · exact filled rfl (symbolFor_temp _)
  · exact filled rfl (symbolFor_legacyTexture _ (Terminal.member _))
  · exact filled rfl (symbolFor_constant _ (Terminal.member _))

/-- Filling a template puts the leaves in its places. -/
private theorem resolve_leafAt (s : Composite) (rowMask : Symbol) (token : Token) (n : Nat)
    (item : TemplateItem) {l : Leaf} (known : leafAt rowMask s item = some l) :
    Template.resolve (s.layout.pending token n).register? rowMask token.place item =
      .ok { id := l.symbol.id, rule := l.rule.id, place := token.place } := by
  cases item with
  | token symbol rule =>
    cases known
    rfl
  | rowMask =>
    cases known
    rfl
  | operand bank index => exact resolve_operand s rowMask token n bank index known

private theorem expand_leaves (s : Composite) (rowMask : Symbol) (token : Token) (n : Nat)
    (template : Template) {leaves : List Leaf}
    (known : template.mapM (leafAt rowMask s) = some leaves) :
    ∃ tokens, template.expand (s.layout.pending token n).register? rowMask token.place =
      .ok tokens ∧ tokens.map Token.key = leaves.map Leaf.key ∧
        ∀ t ∈ tokens, t.place = token.place := by
  induction template generalizing leaves with
  | nil =>
    cases known
    exact ⟨[], rfl, rfl, by simp⟩
  | cons item rest ih =>
    rw [List.mapM_cons] at known
    obtain ⟨l, first, known⟩ := Option.bind_eq_some_iff.mp known
    obtain ⟨ls, others, known⟩ := Option.bind_eq_some_iff.mp known
    cases known
    obtain ⟨tokens, expanded, keys, placed⟩ := ih others
    refine ⟨⟨l.symbol.id, l.rule.id, token.place⟩ :: tokens, ?_, ?_, by simpa using placed⟩
    · rw [Template.expand, List.mapM_cons, resolve_leafAt s rowMask token n item first]
      rw [Template.expand] at expanded
      simp only [bind, Except.bind, expanded]
      rfl
    · rw [List.map_cons, List.map_cons, keys]
      rfl

/-- The mask of a matrix row. -/
def rowMaskOf (secondRow : Bool) : Symbol := if secondRow then .maskG else .maskR

/-- The template of a composite statement, filled, is its expansion. -/
private theorem template_expansion (s : Composite) (secondRow : Bool) :
    ∃ template, s.layout.opcode.symbol.operation? = some (.template template) ∧
      template.hasRow = (Statement.composite s).isRow ∧
      ∀ mask, (template.hasRow = true → mask = rowMaskOf secondRow) →
        template.mapM (leafAt mask s) =
          some ((s.expansion secondRow).flatMap (·.layout.leaves)) := by
  cases s with
  | reflection opcode x y z =>
    obtain ⟨symbol, member⟩ := opcode
    obtain rfl : symbol = .texm3x3spec := by simpa [Symbol.terminals] using member
    exact ⟨_, rfl, rfl, fun _ _ => rfl⟩
  | plain opcode x y =>
    obtain ⟨symbol, member⟩ := opcode
    simp only [Symbol.terminals, List.mem_cons, List.not_mem_nil, or_false] at member
    rcases member with rfl | rfl | rfl | rfl | rfl | rfl | rfl | rfl
    -- only the template of a three-row pad asks for the mask of its row
    case inr.inr.inr.inr.inr.inr.inl =>
      refine ⟨_, rfl, rfl, fun mask row => ?_⟩
      rw [row rfl]
      cases secondRow <;> rfl
    all_goals exact ⟨_, rfl, rfl, fun _ _ => rfl⟩

theorem whileExpanding_follows {step : Assembly Unit} {before after : Control}
    {issues : List (Place × Issue)}
    (steps : Follows step { before with expanding := true } after issues) :
    Follows (whileExpanding step) before { after with expanding := before.expanding } issues := by
  intro a log shown same
  have inner := steps { a with expanding := true } log (shown.of_same rfl rfl rfl)
    (by rw [← same]; rfl)
  -- the flag is put back, whatever the step has done to it
  have kept : a.expanding = before.expanding := congrArg Control.expanding same
  unfold whileExpanding
  cases recorded : Log.recordAll log issues with
  | error fault =>
    rw [recorded] at inner
    obtain ⟨b, failed⟩ := inner
    simp only [failed]
    exact ⟨_, rfl⟩
  | ok next =>
    rw [recorded] at inner
    obtain ⟨b, passed, shownB, sameB⟩ := inner
    simp only [passed]
    exact ⟨_, rfl, shownB.of_same rfl rfl rfl, by rw [← sameB, ← kept]; rfl⟩

theorem nextRowMask_follows {template : Template} {next : Symbol → Assembly Unit}
    {before after : Control} {issues : List (Place × Issue)}
    (rest : Follows (next (if template.hasRow then rowMaskOf before.secondRow else .maskR))
      { before with secondRow := before.secondRow ^^ template.hasRow } after issues) :
    Follows (nextRowMask template >>= next) before after issues := by
  intro a log shown same
  have kept : a.secondRow = before.secondRow := congrArg Control.secondRow same
  have given : nextRowMask template a =
      .ok (if template.hasRow then rowMaskOf before.secondRow else .maskR)
        { a with secondRow := a.secondRow ^^ template.hasRow } := by
    cases row : template.hasRow <;> simp [nextRowMask, row, rowMaskOf, ← kept]
  rw [bind_apply, given]
  exact rest _ log (shown.of_same rfl rfl rfl) (by rw [← same]; rfl)

/-- The statement holds no numerals and is no marker. -/
def isInstruction : Simple → Bool
  | .define _ | .phaseMarker => false
  | .texture _ | .legacyTexture _ | .arithmetic _ => true

theorem behind_instruction (c : Control) {s : Simple} (instruction : isInstruction s = true) :
    c.behind (.simple s) = c := by
  have other : ∀ r, s ≠ .define r := by
    rintro r rfl
    cases instruction
  have unmarked : (Statement.simple s).isMarker = false := by
    cases s <;> first | rfl | cases instruction
  have row : (Statement.simple s).isRow = false := rfl
  simp only [Control.behind, s.literals_eq_zero other, unmarked, row, Bool.or_false,
    Bool.xor_false, Nat.add_zero]

theorem expansion_instructions (s : Composite) (secondRow : Bool) :
    ∀ t ∈ s.expansion secondRow, isInstruction t = true := by
  rw [← List.all_eq_true]
  cases s with
  | reflection opcode x y z => rfl
  | plain opcode x y =>
    simp only [Composite.expansion]
    split <;> rfl

theorem behind_composite (c : Control) (s : Composite) :
    c.behind (.composite s) =
      { c with secondRow := c.secondRow ^^ (Statement.composite s).isRow } := by
  have unmarked : (Statement.composite s).isMarker = false := rfl
  simp only [Control.behind, s.literals_eq_zero, unmarked, Bool.or_false, Nat.add_zero]

/-- Enacting a composite statement queues the contributions of its expansion. -/
theorem enact_composite (coded : ∀ s : Symbol, codeOf s.id = s.code) (s : Composite)
    (token : Token) (c : Control) (idle : c.pending = {})
    (enough : c.constantsSeen ≤ c.poolSize) :
    Follows (enact (expandWith (scan codeOf 0)) s.layout token) c (c.behind (.composite s))
      (((s.expansion c.secondRow).flatMap
        (·.issues { c.setting c.constantsSeen with expanding := true })).map (token.place, ·)) := by
  obtain ⟨template, operation, hasRow, leaves⟩ := template_expansion s c.secondRow
  let mask : Symbol := if template.hasRow then rowMaskOf c.secondRow else .maskR
  obtain ⟨tokens, expanded, keys, placed⟩ := expand_leaves s mask token c.constantsSeen template
    (leaves mask fun row => if_pos row)
  rw [← List.flatMap_map] at keys
  -- scanning the expansion enacts its statements with the control data `inside`
  let inside : Control :=
    { c with expanding := true, secondRow := c.secondRow ^^ (Statement.composite s).isRow }
  obtain ⟨loaded, layouts, opening, -, scanned⟩ : ∃ loaded : List (Layout × Token),
      loaded.map (·.1) = (s.expansion c.secondRow).map (·.layout) ∧
        loaded.map (·.2) = opcodes tokens ∧ _ ∧ scan codeOf 0 tokens = _ :=
    scanWith_statements coded _ (fun l member => by
      obtain ⟨t, -, rfl⟩ := List.mem_map.mp member
      exact t.loads) keys
  let located := ((s.expansion c.secondRow).flatMap
    (·.issues (inside.setting inside.constantsSeen))).map (token.place, ·)
  have here : ∀ x ∈ loaded, x.2.place = token.place := by
    intro x member
    have listed : x.2 ∈ opcodes tokens := opening ▸ List.mem_map_of_mem member
    exact placed x.2 (List.mem_filter.mp listed).1
  have enacted : Follows (enactAll (fun _ p => throw (.unexpectedToken p.token)) loaded) inside
      inside located :=
    enactAll_simples loaded (s.expansion c.secondRow) layouts here inside idle
      (fun t member => behind_instruction inside (expansion_instructions s c.secondRow t member))
      enough
  have scans : Follows (scan codeOf 0 tokens) inside inside located := by
    rw [scanned]
    exact (flush_idle (by simp [inside, idle])).andThen enacted
  -- the flag for expansions is the only difference between inside and outside
  let outside : Control := { c with secondRow := c.secondRow ^^ (Statement.composite s).isRow }
  have wrapped : Follows (whileExpanding (scan codeOf 0 tokens)) outside
      { inside with expanding := outside.expanding } located := whileExpanding_follows scans
  refine enact_follows (by simp [Control.behind, idle]) ?_
  have none : numerals s.layout.leaves = 0 := s.literals_eq_zero
  unfold build
  rw [operation, none, Nat.add_zero, ← idle, behind_composite, ← hasRow]
  refine nextRowMask_follows ?_
  show Follows (ofExcept (template.expand (s.layout.pending token c.constantsSeen).register? mask
    token.place) >>= fun tokens => whileExpanding (scan codeOf 0 tokens)) _ _ _
  rw [expanded, ofExcept_ok_bind]
  rw [hasRow]
  exact wrapped

/-! ### Programs -/

end Assembly

/-- The control data are those behind statements of a program. -/
structure Control.Behind (c : Control) (legacy : Bool) (before : List Statement) : Prop where
  idle : c.pending = {}
  legacy : c.legacy = legacy
  expanding : c.expanding = false
  marked : c.phaseMarked = before.any (·.isMarker)
  literals : c.constantsSeen = literalsIn before
  rows : c.secondRow = secondRowBehind before

theorem literalsIn_cons (s : Statement) (rest : List Statement) :
    literalsIn (s :: rest) = s.literals + literalsIn rest := by
  rw [literalsIn, List.flatMap_cons, List.countP_append]
  rfl

theorem literalsIn_append (before : List Statement) (s : Statement) :
    literalsIn (before ++ [s]) = literalsIn before + s.literals := by
  rw [literalsIn, List.flatMap_append, List.countP_append, List.flatMap_singleton]
  rfl

theorem secondRowBehind_append (before : List Statement) (s : Statement) :
    secondRowBehind (before ++ [s]) = (secondRowBehind before ^^ s.isRow) := by
  unfold secondRowBehind
  rw [List.countP_append, List.countP_singleton]
  cases s.isRow with
  | false => simp
  | true =>
    -- one more row flips the parity
    rcases Nat.mod_two_eq_zero_or_one (before.countP (·.isRow)) with even | odd
    · simp [even, Nat.add_mod]
    · simp [odd, Nat.add_mod]

namespace Control.Behind

variable {c : Control} {legacy : Bool} {before : List Statement}

theorem step (behind : c.Behind legacy before) (s : Statement) :
    (c.behind s).Behind legacy (before ++ [s]) where
  idle := behind.idle
  legacy := behind.legacy
  expanding := behind.expanding
  marked := by simp [Control.behind, behind.marked]
  literals := by rw [literalsIn_append, ← behind.literals]; rfl
  rows := by rw [secondRowBehind_append, ← behind.rows]; rfl

theorem setting_eq (behind : c.Behind legacy before) :
    c.setting c.constantsSeen = settingBehind legacy before := by
  unfold Control.setting settingBehind
  rw [behind.legacy, behind.marked, behind.expanding, behind.literals]

end Control.Behind

/-- The contributions of statements behind others, each at the place of its opcode. -/
def Syntax.locatedBehind (legacy : Bool) (before : List Statement) :
    List (Statement × Token) → List (Place × Issue)
  | [] => []
  | (s, token) :: rest =>
    (s.issues legacy before).map (token.place, ·) ++ locatedBehind legacy (before ++ [s]) rest

theorem Syntax.map_locatedBehind (legacy : Bool) (before : List Statement)
    (placed : List (Statement × Token)) :
    (locatedBehind legacy before placed).map (·.2) =
      issuesBehind legacy before (placed.map (·.1)) := by
  induction placed generalizing before with
  | nil => rfl
  | cons x rest ih => simp [locatedBehind, issuesBehind, ih, Function.comp_def]

namespace Assembly

variable {codeOf : SymbolId → UInt32}

theorem enact_statement (coded : ∀ s : Symbol, codeOf s.id = s.code) (s : Statement)
    (token : Token) {c : Control} {legacy : Bool} {before : List Statement}
    (behind : c.Behind legacy before) (enough : c.constantsSeen + s.literals ≤ c.poolSize) :
    Follows (enact (expandWith (scan codeOf 0)) s.layout token) c (c.behind s)
      ((s.issues legacy before).map (token.place, ·)) := by
  cases s with
  | simple s =>
    have follows : Follows (enact (expandWith (scan codeOf 0)) s.layout token) c _ _ :=
      enact_simple s token c behind.idle enough
    rw [behind.setting_eq] at follows
    exact follows
  | composite s =>
    have follows :=
      enact_composite coded s token c behind.idle (Nat.le_trans (Nat.le_add_right ..) enough)
    rw [behind.setting_eq, behind.rows] at follows
    exact follows

theorem enactAll_statements (coded : ∀ s : Symbol, codeOf s.id = s.code)
    (statements : List Statement) (loaded : List (Layout × Token))
    (layouts : loaded.map (·.1) = statements.map (·.layout)) {c : Control} {legacy : Bool}
    {before : List Statement} (behind : c.Behind legacy before)
    (enough : c.constantsSeen + literalsIn statements ≤ c.poolSize) :
    ∃ after : Control, Follows (enactAll (expandWith (scan codeOf 0)) loaded) c after
        (locatedBehind legacy before (statements.zip (loaded.map (·.2)))) ∧
      after.Behind legacy (before ++ statements) := by
  induction statements generalizing loaded c before with
  | nil =>
    obtain rfl := List.map_eq_nil_iff.mp layouts
    exact ⟨c, follows_pure c, by simpa using behind⟩
  | cons s rest ih =>
    obtain ⟨⟨l, token⟩, others, rfl, rfl, otherLayouts⟩ := List.map_eq_cons_iff.mp layouts
    rw [literalsIn_cons] at enough
    have enacted := enact_statement coded s token behind (by omega)
    obtain ⟨after, follows, behindAll⟩ :=
      ih others otherLayouts (behind.step s) (by simp only [Control.behind]; omega)
    exact ⟨after, enacted.andThen follows, by simpa using behindAll⟩

/-- Scanning the tokens of statements behind the version queues their contributions. -/
theorem scan_follows (coded : ∀ s : Symbol, codeOf s.id = s.code) (version : Leaf)
    (ignored : version.rule.role? = some .ignored) (statements : List Statement)
    {tokens : List Token}
    (keys : tokens.map Token.key =
      (version :: statements.flatMap (·.leaves)).map Leaf.key) {c : Control} {legacy : Bool}
    (behind : c.Behind legacy [])
    (enough : literalsIn statements ≤ c.poolSize) :
    (opcodes tokens).map Token.key = statements.map (·.layout.opcode.key) ∧
      ∃ after : Control, Follows (scan codeOf Assembler.templateDepth tokens) c after
          (locatedBehind legacy [] (statements.zip (opcodes tokens))) ∧
        after.Behind legacy statements := by
  obtain ⟨first, others, rfl, firstKey, othersKeys⟩ := List.map_eq_cons_iff.mp keys
  have single : [first].map Token.key = [version].map Leaf.key := by simpa using firstKey
  -- the version is a mark like any other: it leaves no trace in the assembler
  have skipped : processAll (expandWith (scan codeOf 0)) codeOf [first] = pure () :=
    processAll_marks single (by simpa using ignored)
  have silent : opcodes (first :: others) = opcodes others := by
    have none : opcodes [first] = [] := opcodes_eq_nil single (by simp [ignored])
    rw [opcodes, ← List.singleton_append, List.filter_append]
    exact congrArg (· ++ opcodes others) none
  obtain ⟨loaded, layouts, opening, named, scanned⟩ : ∃ loaded : List (Layout × Token),
      loaded.map (·.1) = statements.map (·.layout) ∧ loaded.map (·.2) = opcodes others ∧
        (∀ x ∈ loaded, x.2.key = x.1.opcode.key) ∧ scanWith (expandWith (scan codeOf 0)) codeOf others = _ :=
    scanWith_statements coded _ (fun l member => by
      obtain ⟨s, -, rfl⟩ := List.mem_map.mp member
      exact s.loads) (by rw [List.flatMap_map]; exact othersKeys)
  obtain ⟨after, follows, behindAll⟩ :=
    enactAll_statements coded statements loaded layouts behind
      (by rw [behind.literals, show literalsIn [] = 0 from rfl, Nat.zero_add]; exact enough)
  rw [silent, ← opening]
  refine ⟨?_, after, ?_, behindAll⟩
  · calc (loaded.map (·.2)).map Token.key
        = loaded.map (·.1.opcode.key) := by simpa using named
      _ = (loaded.map (·.1)).map (·.opcode.key) := by simp
      _ = statements.map (·.layout.opcode.key) := by rw [layouts, List.map_map]; rfl
  have whole : scan codeOf Assembler.templateDepth (first :: others) =
      scanWith (expandWith (scan codeOf 0)) codeOf others := by
    show scanWith (expandWith (scan codeOf 0)) codeOf ([first] ++ others) = _
    unfold scanWith
    rw [processAll_append, skipped, pure_bind]
  rw [whole, scanned]
  exact (flush_idle (by rw [behind.idle])).andThen follows

end Assembly
end PixelAsm
