import PixelAsm.Assembler.Build

/-!
# Invariants of the queues

Tokens reach the queues in two ways only: an instruction that suits its stage is queued, or a
register is handed on to the second pass. A property that survives both, and does not look at
the data of the statement at hand, holds in every state that any tokens can lead to, whether
they are accepted or not.
-/
namespace PixelAsm

def Stage.isAlu : Stage → Bool
  | alu1 | alu2 => true
  | texture1 | texture2 => false

/-- What the queue of a stage is made for, with a pool of so many constants: arithmetic in the
arithmetic stages, and constants that are in the pool in the first texture stage. -/
def Instruction.Suits (pool : Nat) (stage : Stage) : Instruction → Prop
  | color _ target _ =>
    stage.isAlu = true ∧ target.mask ≠ 0 ∧ target.mask &&& Code.rgb = target.mask
  | alpha _ _ _ => stage.isAlu = true
  | setConstants _ index => stage = .texture1 ∧ index.toNat + 4 ≤ pool
  | passTexCoord _ _ _ | sampleMap _ _ _ => stage.isAlu = false

namespace Assembler

/-- Queues the record of an instruction. -/
def enqueue (a : Assembler) (stage : Stage) (i : Instruction) (record : List UInt32) : Assembler :=
  ((a.noteRecord stage).appendRecord stage record).noteWrite stage i.destination

@[simp]
theorem poolSize_noteWrite (a : Assembler) (stage : Stage) (register : UInt32) :
    (a.noteWrite stage register).poolSize = a.poolSize := by
  unfold noteWrite
  split
  · rfl
  · split <;> rfl

@[simp]
theorem poolSize_enqueue (a : Assembler) (stage : Stage) (i : Instruction)
    (record : List UInt32) : (a.enqueue stage i record).poolSize = a.poolSize := by
  rw [enqueue, poolSize_noteWrite, appendRecord, noteRecord]
  split <;> rfl

@[simp]
theorem poolSize_route (a : Assembler) (register : UInt32) :
    (a.route register).poolSize = a.poolSize := poolSize_noteWrite _ _ _

/-- Two states agree on everything but the data of the statement at hand. -/
structure SameQueues (a b : Assembler) : Prop where
  schedule : b.schedule = a.schedule
  written1 : b.written1 = a.written1
  written2 : b.written2 = a.written2
  lastAlu? : b.lastAlu? = a.lastAlu?
  secondLastAlu? : b.secondLastAlu? = a.secondLastAlu?
  poolSize : b.poolSize = a.poolSize
  legacy : b.legacy = a.legacy

end Assembler

/-- A property of the queues, beside a pool of the given size, that every way of queueing
keeps. -/
structure QueueInvariant (pool : Nat) (holds : Assembler → Prop) : Prop where
  beside : ∀ {a : Assembler}, holds a → a.poolSize = pool
  same : ∀ {a b : Assembler}, holds a → a.SameQueues b → holds b
  routed : ∀ {a : Assembler} (register : UInt32), holds a → holds (a.route register)
  queued : ∀ {a : Assembler} (stage : Stage) (i : Instruction) {record : List UInt32},
    holds a → i.record? = some record → i.Suits pool stage → holds (a.enqueue stage i record)

/-- Such a property that may also look at control data, except for those that change from
statement to statement. -/
structure BuildInvariant (pool : Nat) (holds : Assembler → Prop) : Prop where
  beside : ∀ {a : Assembler}, holds a → a.poolSize = pool
  aside : ∀ {a : Assembler} (pending : Pending) (seen : Nat) (marked : Bool), holds a →
    holds { a with pending, constantsSeen := seen, phaseMarked := marked }
  routed : ∀ {a : Assembler} (register : UInt32), holds a → holds (a.route register)
  queued : ∀ {a : Assembler} (stage : Stage) (i : Instruction) {record : List UInt32},
    holds a → i.record? = some record → i.Suits pool stage → holds (a.enqueue stage i record)

theorem QueueInvariant.build {pool : Nat} {holds : Assembler → Prop}
    (invariant : QueueInvariant pool holds) : BuildInvariant pool holds where
  beside := invariant.beside
  aside _ _ _ held := invariant.same held ⟨rfl, rfl, rfl, rfl, rfl, rfl, rfl⟩
  routed := invariant.routed
  queued := invariant.queued

namespace Assembly

/-- The step keeps a property of the state, also if it fails. -/
def Keeps {α : Type} (holds : Assembler → Prop) (step : Assembly α) : Prop :=
  ∀ a, holds a →
    match step a with
    | .ok _ b => holds b
    | .error _ b => holds b

variable {α β : Type} {pool : Nat} {holds : Assembler → Prop}

theorem keeps_pure (value : α) : Keeps holds (pure value) := fun _ held => held

theorem keeps_throw (fault : CompileError) : Keeps holds (throw fault : Assembly α) :=
  fun _ held => held

theorem keeps_ofExcept (value : Except CompileError α) : Keeps holds (ofExcept value) := by
  cases value with
  | ok value => exact keeps_pure value
  | error fault => exact keeps_throw fault

theorem Keeps.bind {step : Assembly α} {next : α → Assembly β} (first : Keeps holds step)
    (second : ∀ value, Keeps holds (next value)) : Keeps holds (step >>= next) := by
  intro a held
  have between := first a held
  simp only [Bind.bind, EStateM.bind]
  cases outcome : step a with
  | ok value b =>
    rw [outcome] at between
    exact second value b between
  | error fault b =>
    rw [outcome] at between
    exact between

/-- What comes behind an error is not run. -/
theorem keeps_throw_bind (fault : CompileError) (next : α → Assembly β) :
    Keeps holds ((throw fault : Assembly α) >>= next) := fun _ held => held

theorem keeps_get {next : Assembler → Assembly β}
    (second : ∀ a, holds a → Keeps holds (next a)) : Keeps holds (get >>= next) :=
  fun a held => second a held a held

theorem keeps_ite {condition : Prop} [Decidable condition] {yes no : Assembly α}
    (first : condition → Keeps holds yes) (second : ¬ condition → Keeps holds no) :
    Keeps holds (if condition then yes else no) := by
  split
  next met => exact first met
  next failed => exact second failed

/-! ### Steps that change the queues -/

/-- A read is in order, or hands the register on, or finds it undefined. -/
theorem checkRead_cases (place : Place) (register : UInt32) (a : Assembler) :
    checkRead place register a = .ok () a ∨
      checkRead place register a = .ok () (a.route register) ∨
      checkRead place register a = .error (.undefinedRead register place) a := by
  unfold checkRead
  cases !Code.isTemp register || a.written2.contains register with
  | true => exact .inl rfl
  | false =>
    cases !a.written1.contains register with
    | true => exact .inr (.inr rfl)
    | false =>
      cases a.schedule.alu1.isEmpty with
      | true => exact .inl rfl
      | false => exact .inr (.inl rfl)

section Invariant

variable (invariant : BuildInvariant pool holds)
include invariant

theorem keeps_modify {change : Assembler → Assembler}
    (same : ∀ a : Assembler, ∃ pending seen marked,
      change a = { a with pending, constantsSeen := seen, phaseMarked := marked }) :
    Keeps holds (modify change) := by
  intro a held
  obtain ⟨pending, seen, marked, changed⟩ := same a
  show holds (change a)
  rw [changed]
  exact invariant.aside pending seen marked held

theorem checkRead_keeps (place : Place) (register : UInt32) :
    Keeps holds (checkRead place register) := by
  intro a held
  obtain same | same | same := checkRead_cases place register a
  · rw [same]
    exact held
  · rw [same]
    exact invariant.routed register held
  · rw [same]
    exact held

theorem checkReads_keeps (place : Place) (registers : List UInt32) :
    Keeps holds (checkReads place registers) := by
  induction registers with
  | nil => exact keeps_pure ()
  | cons register rest ih => exact (checkRead_keeps invariant place register).bind fun _ => ih

theorem commit_keeps {stage : Stage} {i : Instruction} (suits : i.Suits pool stage)
    (p : Pending) : Keeps holds (commit stage i p) := by
  unfold commit
  -- with or without reads to check, the record is queued at the end
  refine keeps_ite (fun _ => (checkReads_keeps invariant _ _).bind fun _ => ?_) fun _ => ?_
  all_goals
    cases recorded : i.record? with
    | none => exact keeps_throw _
    | some record => exact fun a held => invariant.queued stage i held recorded suits

/-! ### Building instructions -/

theorem buildAlu_keeps (p : Pending) : Keeps holds (buildAlu p) := by
  refine (keeps_ofExcept _).bind fun (target, sources) => keeps_get fun a _ => ?_
  have arithmetic (later : Bool) : (if later then Stage.alu2 else .alu1).isAlu = true := by
    cases later <;> rfl
  -- the alpha half comes behind the colour half or alone
  refine keeps_ite (fun colored => (commit_keeps invariant ?_ _).bind fun _ => ?_) fun _ => ?_
  · exact ⟨arithmetic _, by simpa using colored, by rw [UInt32.and_assoc, UInt32.and_self]⟩
  all_goals
    refine keeps_ite (fun _ => commit_keeps invariant ?_ _) fun _ => keeps_pure ()
    exact arithmetic _

theorem buildTexture_keeps (samples : Bool) (p : Pending) :
    Keeps holds (buildTexture samples p) := by
  refine (keeps_ofExcept _).bind fun _ => (keeps_ofExcept _).bind fun _ => keeps_get fun _ _ => ?_
  have texture (later : Bool) : (if later then Stage.texture2 else .texture1).isAlu = false := by
    cases later <;> rfl
  refine keeps_ite (fun _ => commit_keeps invariant ?_ _) fun _ => commit_keeps invariant ?_ _
  · exact texture _
  · exact texture _

theorem buildLegacyTexture_keeps (samples : Bool) (p : Pending) :
    Keeps holds (buildLegacyTexture samples p) := by
  refine (keeps_ofExcept _).bind fun target => ?_
  split
  · exact keeps_throw _
  · refine keeps_ite (fun _ => commit_keeps invariant ?_ _) fun _ => commit_keeps invariant ?_ _
    · rfl
    · rfl

theorem buildConstants_keeps (p : Pending) : Keeps holds (buildConstants p) := by
  refine (keeps_ofExcept _).bind fun _ => keeps_get fun a held => ?_
  refine keeps_ite (fun _ => keeps_throw_bind _ _) fun enough => commit_keeps invariant ?_ _
  rw [invariant.beside held] at enough
  -- a number that does not fit a word is only made smaller
  have fits : (UInt32.ofNat p.firstConstant).toNat ≤ p.firstConstant := by
    rw [UInt32.toNat_ofNat']
    exact Nat.mod_le _ _
  exact ⟨rfl, by omega⟩

variable {expand : Expander}
  (expands : ∀ template p, Keeps holds (expand template p))
include expands

theorem build_keeps (opcode : Symbol) (p : Pending) : Keeps holds (build expand opcode p) := by
  unfold build
  split
  · exact buildAlu_keeps invariant p
  · exact buildTexture_keeps invariant _ p
  · exact buildLegacyTexture_keeps invariant _ p
  · exact buildConstants_keeps invariant p
  · exact keeps_modify invariant fun _ => ⟨_, _, _, rfl⟩
  · exact expands _ p
  · exact keeps_throw _

theorem flush_keeps : Keeps holds (flush expand) := by
  refine keeps_get fun a _ => ?_
  have checks : Keeps holds (do
      let left := (← get).pending
      if left.opcode?.isSome then throw (.pipeNotCleared left.place) : Assembly Unit) :=
    keeps_get fun _ _ => keeps_ite (fun _ => keeps_throw _) fun _ => keeps_pure ()
  dsimp only
  split
  · refine Keeps.bind ?_ fun _ => (build_keeps invariant expands _ _).bind fun _ => checks
    exact keeps_modify invariant fun _ => ⟨_, _, _, rfl⟩
  · exact checks

/-! ### Tokens -/

theorem process_keeps (codeOf : SymbolId → UInt32) (token : Token) :
    Keeps holds (process expand codeOf token) := by
  have modifies (change : Pending → Pending) : Keeps holds (modifyPending change) :=
    keeps_modify invariant fun _ => ⟨_, _, _, rfl⟩
  unfold process
  split
  · split
    · exact (flush_keeps invariant expands).bind fun _ =>
        keeps_modify invariant fun _ => ⟨_, _, _, rfl⟩
    · exact keeps_get fun _ _ => keeps_ite (fun _ => keeps_throw_bind _ _) fun _ => modifies _
    · exact modifies _
    · exact modifies _
    · exact modifies _
    · exact keeps_modify invariant fun _ => ⟨_, _, _, rfl⟩
    · exact keeps_pure ()
  · exact keeps_throw _

theorem processAll_keeps (codeOf : SymbolId → UInt32) (tokens : List Token) :
    Keeps holds (processAll expand codeOf tokens) := by
  induction tokens with
  | nil => exact keeps_pure ()
  | cons token rest ih => exact (process_keeps invariant expands codeOf token).bind fun _ => ih

theorem scanWith_keeps (codeOf : SymbolId → UInt32) (tokens : List Token) :
    Keeps holds (scanWith expand codeOf tokens) :=
  (processAll_keeps invariant expands codeOf tokens).bind fun _ => flush_keeps invariant expands

end Invariant

/-! ### Expansions -/

theorem expandWith_keeps (invariant : QueueInvariant pool holds)
    {scan : List Token → Assembly Unit} (scans : ∀ tokens, Keeps holds (scan tokens))
    (template : Template) (p : Pending) : Keeps holds (expandWith scan template p) := by
  have rows : Keeps holds (nextRowMask template) := by
    intro a held
    unfold nextRowMask
    cases template.hasRow with
    | true => exact invariant.same held ⟨rfl, rfl, rfl, rfl, rfl, rfl, rfl⟩
    | false => exact held
  refine rows.bind fun _ => (keeps_ofExcept _).bind fun tokens a held => ?_
  -- the flag for expansions is control data
  have inside := scans tokens { a with expanding := true }
    (invariant.same held ⟨rfl, rfl, rfl, rfl, rfl, rfl, rfl⟩)
  unfold whileExpanding
  cases outcome : scan tokens { a with expanding := true } with
  | ok value b | error fault b =>
    rw [outcome] at inside
    exact invariant.same inside ⟨rfl, rfl, rfl, rfl, rfl, rfl, rfl⟩

/-- Whatever the tokens and their codes are, and however deep templates may be nested. -/
theorem scan_keeps (invariant : QueueInvariant pool holds) (codeOf : SymbolId → UInt32)
    (depth : Nat) (tokens : List Token) : Keeps holds (scan codeOf depth tokens) := by
  -- what a template stands for is scanned one level below
  induction depth generalizing tokens with
  | zero => exact scanWith_keeps invariant.build (fun _ _ => keeps_throw _) codeOf tokens
  | succ depth ih =>
    exact scanWith_keeps invariant.build (expandWith_keeps invariant ih) codeOf tokens

end Assembly
end PixelAsm
