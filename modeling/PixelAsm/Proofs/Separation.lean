import PixelAsm.Proofs.Invariants
import PixelAsm.Proofs.Robustness

/-!
# Statements are assembled apart

An instruction is built one token late, by the opcode behind it or by the end of the scan. So an
opcode finds the instruction before it still pending or, where a scan has ended in between,
built already. Both come to the same, since completing twice is completing once. What is built
for a statement is described by its own tokens, beside the number of numerals in front. This
goes for the statements of an expansion, too, and the last of them is completed inside of it.
-/
namespace PixelAsm

/-- The opcode of the instruction that the token starts, if it starts one. -/
def Token.starts? (t : Token) : Option Symbol :=
  if t.isOpcode then Symbol.ofId? t.id else none

/-- The state with the instruction at hand and the number of numerals of another. -/
def Assembler.adopt (a own : Assembler) : Assembler :=
  { a with pending := own.pending, constantsSeen := own.constantsSeen }

namespace Assembly

/-- How templates are assembled where they may be nested up to a depth. -/
def expander (codeOf : SymbolId → UInt32) : (depth : Nat) → Expander
  | 0 => fun _ p => throw (.unexpectedToken p.token)
  | depth + 1 => expandWith (scan codeOf depth)

/-- Collects the instruction that the tokens of one statement describe. They are processed in
an assembler of their own, which knows the number of numerals in front and nothing else. -/
def gather (codeOf : SymbolId → UInt32) (statement : List Token) : Assembly Pending := fun a =>
  match processAll (expander codeOf 0) codeOf statement { constantsSeen := a.constantsSeen } with
  | .ok () own => .ok own.pending { a with pending := {}, constantsSeen := own.constantsSeen }
  | .error fault own => .error fault (a.adopt own)

variable {expand : Expander} {codeOf : SymbolId → UInt32}

theorem scan_eq_scanWith (codeOf : SymbolId → UInt32) (depth : Nat) :
    scan codeOf depth = scanWith (expander codeOf depth) codeOf := by
  cases depth with
  | zero => rfl
  | succ depth => rfl

/-! ### Completing twice -/

theorem idle_of_flush {a b : Assembler} (passed : flush expand a = .ok () b) :
    b.pending.opcode? = none := by
  cases pending : a.pending.opcode? with
  | none =>
    rw [flush_of_none pending] at passed
    cases passed
    exact pending
  | some opcode =>
    rw [flush_of_some pending] at passed
    cases built : build expand opcode a.pending { a with pending := {} } with
    | error fault c =>
      rw [built] at passed
      cases passed
    | ok value c =>
      -- an instruction that is left is reported
      rw [built] at passed
      cases left : c.pending.opcode? with
      | some other => simp [left] at passed
      | none =>
        obtain rfl : c = b := by simpa [left] using passed
        exact left

theorem flush_flush : (do flush expand; flush expand) = flush expand := by
  funext a
  rw [bind_apply]
  cases passed : flush expand a with
  | error fault b => rfl
  | ok value b => exact flush_of_none (idle_of_flush passed)

theorem process_of_starts {token : Token} {opcode : Symbol} (starts : token.starts? = some opcode) :
    process expand codeOf token =
      (do flush expand; modify (startWith opcode token (codeOf token.id))) := by
  unfold Token.starts? at starts
  split at starts
  next isOpcode =>
    have role : (Symbol.ofId? token.rule).bind Symbol.role? = some .opcode := by
      simpa [Token.isOpcode] using isOpcode
    unfold process
    rw [starts, role]
    rfl
  · cases starts

/-- The opcode at the beginning completes what is pending itself. -/
theorem flush_scanWith {tokens : List Token}
    (boundary : ∀ token ∈ tokens.head?, token.starts?.isSome = true) :
    (do flush expand; scanWith expand codeOf tokens) = scanWith expand codeOf tokens := by
  cases tokens with
  | nil => exact flush_flush
  | cons opening rest =>
    obtain ⟨opcode, starts⟩ := Option.isSome_iff_exists.mp (boundary opening rfl)
    simp only [scanWith, processAll, process_of_starts starts, bind_assoc]
    rw [← bind_assoc, flush_flush]

theorem scanWith_append (before : List Token) {after : List Token}
    (boundary : ∀ token ∈ after.head?, token.starts?.isSome = true) :
    scanWith expand codeOf (before ++ after) =
      (do scanWith expand codeOf before; scanWith expand codeOf after) := by
  calc scanWith expand codeOf (before ++ after)
    _ = (do processAll expand codeOf before; scanWith expand codeOf after) := by
      simp only [scanWith, processAll_append, bind_assoc]
    _ = (do processAll expand codeOf before; flush expand; scanWith expand codeOf after) := by
      rw [flush_scanWith boundary]
    _ = (do scanWith expand codeOf before; scanWith expand codeOf after) := by
      simp only [scanWith, bind_assoc]

theorem idle_of_scanWith {tokens : List Token} {a b : Assembler}
    (passed : scanWith expand codeOf tokens a = .ok () b) : b.pending.opcode? = none := by
  rw [scanWith, bind_apply] at passed
  cases processed : processAll expand codeOf tokens a with
  | error fault c =>
    rw [processed] at passed
    cases passed
  | ok value c =>
    rw [processed] at passed
    exact idle_of_flush passed

/-! ### The tokens of one statement -/

/-- Whatever state it runs in, the step does to the instruction at hand and to the number of
numerals what another step does, and nothing else. -/
def Local (step other : Assembly Unit) : Prop :=
  ∀ a own : Assembler, step (a.adopt own) = match other own with
    | .ok () next => .ok () (a.adopt next)
    | .error fault next => .error fault (a.adopt next)

theorem Local.andThen {step next other following : Assembly Unit} (first : Local step other)
    (second : Local next following) : Local (do step; next) (do other; following) := by
  intro a own
  rw [bind_apply, bind_apply, first a own]
  cases other own with
  | ok value own' => exact second a own'
  | error fault own' => rfl

/-- A token that starts no instruction adds to the one at hand, or is refused. -/
theorem process_local (expand other : Expander) {token : Token} (inside : token.starts? = none) :
    Local (process expand codeOf token) (process other codeOf token) := by
  unfold process
  cases known : Symbol.ofId? token.id with
  | none => exact fun _ _ => rfl
  | some symbol =>
    cases role : (Symbol.ofId? token.rule).bind Symbol.role? with
    | none => exact fun _ _ => rfl
    | some r =>
      cases r with
      | opcode => simp [Token.starts?, Token.isOpcode, role, known] at inside
      | separator =>
        -- whether there is a slot left is a matter of the instruction at hand
        intro a own
        by_cases full : slotLimit ≤ own.pending.slot + 1
        · simp only [bind_apply, get_apply, Assembler.adopt, if_pos full]
          rfl
        · simp only [bind_apply, get_apply, Assembler.adopt, if_neg full]
          rfl
      | register | selector | modifier | value | ignored => exact fun _ _ => rfl

theorem processAll_local (expand other : Expander) {operands : List Token}
    (inside : ∀ token ∈ operands, token.starts? = none) :
    Local (processAll expand codeOf operands) (processAll other codeOf operands) := by
  induction operands with
  | nil => exact fun _ _ => rfl
  | cons token rest ih =>
    exact (process_local expand other (inside token (List.mem_cons_self ..))).andThen
      (ih fun t member => inside t (List.mem_cons_of_mem token member))

theorem opcode_of_processAll {operands : List Token}
    (inside : ∀ token ∈ operands, token.starts? = none) {a b : Assembler}
    (passed : processAll expand codeOf operands a = .ok () b) :
    b.pending.opcode? = a.pending.opcode? := by
  induction operands generalizing a with
  | nil =>
    cases passed
    rfl
  | cons token rest ih =>
    have later := fun t member => inside t (List.mem_cons_of_mem token member)
    rw [processAll, bind_apply] at passed
    obtain ⟨symbol, isOpcode, known, -⟩ | ⟨c, kept, -, same⟩ | ⟨fault, -, same⟩ :=
      process_cases codeOf token a
    · -- an opcode with a known symbol would have started an instruction
      have none := inside token (List.mem_cons_self ..)
      simp [Token.starts?, isOpcode, known] at none
    · rw [same] at passed
      exact (ih later passed).trans kept
    · rw [same] at passed
      cases passed

/-! ### Building a statement -/

theorem expander_clears (codeOf : SymbolId → UInt32) (depth : Nat) :
    ClearsAll (expander codeOf depth) := by
  induction depth with
  | zero => exact fun _ _ _ _ _ range _ => ⟨range, fun place left => by cases left⟩
  | succ depth ih =>
    intro opcode template known p
    refine expandWith_clears (fun tokens => ?_) template p
    rw [scan_eq_scanWith]
    exact scanWith_clears ih codeOf tokens

/-- Nothing is left in the pipe, so completing is building. -/
theorem flush_of_pending (codeOf : SymbolId → UInt32) (depth : Nat) {a : Assembler}
    {opcode : Symbol} (pending : a.pending.opcode? = some opcode) :
    flush (expander codeOf depth) a =
      build (expander codeOf depth) opcode a.pending { a with pending := {} } := by
  have cleared := build_clears (expander_clears codeOf depth) opcode a.pending
    { a with pending := {} } Pending.inRange_empty rfl
  rw [flush_of_some pending]
  cases built : build (expander codeOf depth) opcode a.pending { a with pending := {} } with
  | error fault b => rfl
  | ok value b =>
    rw [built] at cleared
    have idle : b.pending.opcode? = none := cleared.2
    simp [idle]

section Statement

variable {opening : Token} {operands : List Token} {opcode : Symbol}
  (starts : opening.starts? = some opcode)
include starts

/-- Where nothing is pending, the opcode replaces whatever stands in the slots. -/
theorem processAll_opening (expand : Expander) {a : Assembler}
    (idle : a.pending.opcode? = none) :
    processAll expand codeOf (opening :: operands) a =
      processAll expand codeOf operands (startWith opcode opening (codeOf opening.id) a) := by
  rw [processAll, process_of_starts starts, bind_assoc, bind_apply, flush_of_none idle]
  rfl

variable (inside : ∀ token ∈ operands, token.starts? = none)
include inside

theorem scan_statement (depth : Nat) {a : Assembler} (idle : a.pending.opcode? = none) :
    scan codeOf depth (opening :: operands) a =
      (do
        let own ← gather codeOf (opening :: operands)
        build (expander codeOf depth) opcode own) a := by
  -- of the state, the instruction that the opcode starts takes the number of numerals only
  have opened : startWith opcode opening (codeOf opening.id) a =
      a.adopt (startWith opcode opening (codeOf opening.id) { constantsSeen := a.constantsSeen }) :=
    rfl
  rw [scan_eq_scanWith, scanWith, bind_apply, bind_apply, processAll_opening starts _ idle, opened,
    processAll_local _ (expander codeOf 0) inside, gather, processAll_opening starts _ rfl]
  cases ran : processAll (expander codeOf 0) codeOf operands
      (startWith opcode opening (codeOf opening.id) { constantsSeen := a.constantsSeen }) with
  | error fault own => rfl
  | ok value own =>
    have pending : (a.adopt own).pending.opcode? = some opcode := opcode_of_processAll inside ran
    exact flush_of_pending codeOf depth pending

/-- What stands in front of a statement has been completed when its instruction is built. -/
theorem scan_append_statement (depth : Nat) (before : List Token) :
    scan codeOf depth (before ++ opening :: operands) = (do
      scan codeOf depth before
      let own ← gather codeOf (opening :: operands)
      build (expander codeOf depth) opcode own) := by
  funext a
  have boundary : ∀ token ∈ (opening :: operands).head?, token.starts?.isSome = true := by
    simp [starts]
  rw [scan_eq_scanWith, scanWith_append before boundary, ← scan_eq_scanWith, bind_apply, bind_apply]
  cases scanned : scan codeOf depth before a with
  | error fault b => rfl
  | ok value b =>
    rw [scan_eq_scanWith] at scanned
    exact scan_statement starts inside depth (idle_of_scanWith scanned)

end Statement

/-! ### The flag for expansions -/

/-- Building an instruction looks at the flag, but does not change it. The size of the pool is
carried along because constants are checked against it. -/
theorem flag_invariant (pool : Nat) (flag : Bool) :
    BuildInvariant pool fun a => a.poolSize = pool ∧ a.expanding = flag where
  beside := And.left
  aside _ _ _ held := held
  routed := by
    rintro a register ⟨size, expanding⟩
    have same := a.control_route register
    exact ⟨(congrArg Control.poolSize same).trans size,
      (congrArg Control.expanding same).trans expanding⟩
  queued := by
    rintro a stage i record ⟨size, expanding⟩ - -
    have same := a.control_queued stage record i.destination
    exact ⟨(congrArg Control.poolSize same).trans size,
      (congrArg Control.expanding same).trans expanding⟩

theorem scan_keeps_flag (codeOf : SymbolId → UInt32) (depth : Nat) (tokens : List Token)
    {pool : Nat} {flag : Bool} :
    Keeps (fun a => a.poolSize = pool ∧ a.expanding = flag) (scan codeOf depth tokens) := by
  -- inside of an expansion the flag is set whatever it is outside, and put back at the end
  induction depth generalizing tokens flag with
  | zero =>
    exact scanWith_keeps (flag_invariant pool flag) (fun _ _ => keeps_throw _) codeOf tokens
  | succ depth ih =>
    refine scanWith_keeps (flag_invariant pool flag) (fun template p a held => ?_) codeOf tokens
    obtain ⟨mask, second, -, same⟩ := expandWith_apply (scan codeOf depth) template p a
    rw [same]
    cases template.expand p.register? mask p.place with
    | error fault => exact held
    | ok inner =>
      have inside := ih inner { a with secondRow := second, expanding := true } ⟨held.1, rfl⟩
      simp only [whileExpanding]
      cases outcome : scan codeOf depth inner { a with secondRow := second, expanding := true } with
      | ok value b | error fault b =>
        rw [outcome] at inside
        exact ⟨inside.1, held.2⟩

/-- Setting the flag for two steps is setting it for each, if the first one leaves it set. -/
theorem whileExpanding_andThen {first second : Assembly Unit}
    (keeps : ∀ pool, Keeps (fun a => a.poolSize = pool ∧ a.expanding = true) first) :
    whileExpanding (do first; second) = (do whileExpanding first; whileExpanding second) := by
  funext a
  have kept := keeps a.poolSize { a with expanding := true } ⟨rfl, rfl⟩
  simp only [bind_apply, whileExpanding]
  cases ran : first { a with expanding := true } with
  | error fault b => rfl
  | ok value b =>
    rw [ran] at kept
    have same : { b with expanding := true } = b := by rw [← kept.2]
    simp only [same]

/-- Collecting an instruction has nothing to do with the flag. -/
theorem whileExpanding_gather (statement : List Token) (next : Pending → Assembly Unit) :
    whileExpanding (do let own ← gather codeOf statement; next own) =
      (do let own ← gather codeOf statement; whileExpanding (next own)) := by
  funext a
  simp only [bind_apply, whileExpanding, gather]
  cases processAll (expander codeOf 0) codeOf statement { constantsSeen := a.constantsSeen } with
  | ok value own => rfl
  | error fault own => rfl

/-! ### The last statement of an expansion -/

theorem exists_last_statement {tokens : List Token}
    (starts : ∃ token ∈ tokens, token.starts?.isSome = true) :
    ∃ front opening operands last, tokens = front ++ opening :: operands ∧
      opening.starts? = some last ∧ ∀ token ∈ operands, token.starts? = none := by
  have found : (tokens.reverse.find? (·.starts?.isSome)).isSome = true := by
    simpa [List.find?_isSome] using starts
  obtain ⟨opening, found⟩ := Option.isSome_iff_exists.mp found
  obtain ⟨starts, behind, front, split, inside⟩ := List.find?_eq_some_iff_append.mp found
  obtain ⟨last, starts⟩ := Option.isSome_iff_exists.mp starts
  refine ⟨front.reverse, opening, behind.reverse, last, ?_, starts, fun token member => ?_⟩
  · rw [List.reverse_eq_iff.mp split, List.reverse_append, List.reverse_cons, List.append_assoc,
      List.singleton_append]
  · simpa using inside token (List.mem_reverse.mp member)

theorem template_begins {opcode : Symbol} {template : Template}
    (known : Template.ofOpcode? opcode = some template) :
    ∃ symbol rule rest, template = .token symbol rule :: rest ∧ rule.role? = some .opcode := by
  unfold Template.ofOpcode? at known
  split at known <;> cases known <;> exact ⟨_, _, _, rfl, rfl⟩

/-- Whatever fills a template, the first token starts an instruction. -/
theorem expand_begins {opcode : Symbol} {template : Template}
    (known : Template.ofOpcode? opcode = some template) {register? : Nat → Option UInt32}
    {mask : Symbol} {place : Place} {tokens : List Token}
    (filled : template.expand register? mask place = .ok tokens) :
    ∃ token ∈ tokens, token.starts?.isSome = true := by
  obtain ⟨symbol, rule, rest, rfl, role⟩ := template_begins known
  cases forall₂_of_mapM filled with
  | @cons _ token _ others resolved =>
    cases resolved
    refine ⟨_, List.mem_cons_self .., ?_⟩
    simp [Token.starts?, Token.isOpcode, Symbol.ofId?_id, role]

/-- Boundaries of statements do not matter. Tokens may be scanned in one go or, cut in front of
an opcode, in two, with the same result and the same state, whatever the state before is and
also where they fail. The instruction of a statement is built from what its own tokens describe
in an assembler that has seen nothing but the numerals in front, so nothing that an earlier
statement has left in the slots reaches it. The last statement of an expansion is no exception,
and it is still built with the flag for expansions set. -/
theorem scan_separates_statements (codeOf : SymbolId → UInt32) (depth : Nat) :
    (∀ before after : List Token, (∀ token ∈ after.head?, token.starts?.isSome = true) →
      scan codeOf depth (before ++ after) =
        (do scan codeOf depth before; scan codeOf depth after)) ∧
    (∀ (before : List Token) (opening : Token) (operands : List Token) (opcode : Symbol),
      opening.starts? = some opcode → (∀ token ∈ operands, token.starts? = none) →
        scan codeOf depth (before ++ opening :: operands) = (do
          scan codeOf depth before
          let own ← gather codeOf (opening :: operands)
          build (expander codeOf depth) opcode own)) ∧
    ∀ opcode template, Template.ofOpcode? opcode = some template →
      ∀ (p : Pending) a mask b tokens, nextRowMask template a = .ok mask b →
        template.expand p.register? mask p.place = .ok tokens →
          ∃ front opening operands last, tokens = front ++ opening :: operands ∧
            opening.starts? = some last ∧ (∀ token ∈ operands, token.starts? = none) ∧
            build (expander codeOf (depth + 1)) opcode p a = (do
              whileExpanding (scan codeOf depth front)
              let own ← gather codeOf (opening :: operands)
              whileExpanding (build (expander codeOf depth) last own)) b := by
  refine ⟨fun before after boundary => ?_, fun before opening operands opcode starts inside =>
    scan_append_statement starts inside depth before, ?_⟩
  · rw [scan_eq_scanWith]
    exact scanWith_append before boundary
  · intro opcode template known p a mask b tokens row filled
    obtain ⟨front, opening, operands, last, rfl, starts, inside⟩ :=
      exists_last_statement (expand_begins known filled)
    refine ⟨front, opening, operands, last, rfl, starts, inside, ?_⟩
    have expanded : build (expander codeOf (depth + 1)) opcode p a =
        whileExpanding (scan codeOf depth (front ++ opening :: operands)) b := by
      rw [build_template known, expander, expandWith, bind_apply, row]
      simp only [filled, ofExcept, pure_bind]
    rw [expanded, scan_append_statement starts inside depth front,
      whileExpanding_andThen fun _ => scan_keeps_flag codeOf depth front, whileExpanding_gather]

private def item (symbol rule : Symbol) : Token := { id := symbol.id, rule := rule.id }

/-- A dot product of texture coordinates, which stands for a template. -/
def dotStatement : List Token :=
  [item .texdp3 .texCiscOp, item .ps11T1 .texRegPs11, item .comma .separator,
    item .ps11T0 .texRegPs11]

/-- A move of the product. -/
def moveStatement : List Token :=
  [item .mov .unaryOp, item .ps11R0 .tempReg, item .comma .separator, item .ps11T1 .tempReg]

/-- A program before ps.1.4 with a sampling instruction in the pipe. -/
def sampling : Assembler :=
  { legacy := true
    pending := { opcode? := some .tex, slots := [{ register? := some Code.r0 }, {}, {}, {}, {}] } }

/-- The dot product as it is handed to the expander. -/
def dotPending : Pending :=
  { opcode? := some .texdp3, slot := 1
    slots := [{ register? := some Code.r1 }, { register? := some Code.r0 }, {}, {}, {}] }

/-- The product is computed in the first pass, since the flag is set, and the move in the
second. -/
private theorem scan_dotStatement_moveStatement :
    ∃ a, scan Dialect.linked.code 1 (dotStatement ++ moveStatement) sampling = .ok () a ∧
      a.schedule.alu1.instructions.map (·.destination) = [Code.r1, Code.r1] ∧
      a.schedule.alu2.instructions.map (·.destination) = [Code.r4, Code.r4] := by
  have ran : EStateM.run' (do
      (fun _ => scan Dialect.linked.code 1 (dotStatement ++ moveStatement) sampling : Assembly Unit)
      let schedule := (← get).schedule
      return (schedule.alu1.instructions.map (·.destination),
        schedule.alu2.instructions.map (·.destination))) sampling =
        some ([Code.r1, Code.r1], [Code.r4, Code.r4]) := by
    decide +kernel
  cases scanned : scan Dialect.linked.code 1 (dotStatement ++ moveStatement) sampling with
  | ok value a =>
    rw [scanned] at ran
    obtain ⟨first, second⟩ := Prod.mk.inj (Option.some.inj ran)
    exact ⟨a, rfl, first, second⟩
  | error fault a =>
    rw [scanned] at ran
    cases ran

theorem scan_separates_statements_dotThenMove :
    (∃ a, scan Dialect.linked.code 1 (dotStatement ++ moveStatement) sampling = .ok () a ∧
      (do
        scan Dialect.linked.code 1 dotStatement
        scan Dialect.linked.code 1 moveStatement) sampling = .ok () a ∧
      (do
        scan Dialect.linked.code 1 dotStatement
        let own ← gather Dialect.linked.code moveStatement
        build (expander Dialect.linked.code 1) .mov own) sampling = .ok () a ∧
      a.schedule.alu1.instructions.map (·.destination) = [Code.r1, Code.r1] ∧
      a.schedule.alu2.instructions.map (·.destination) = [Code.r4, Code.r4]) ∧
    ∃ template tokens, Template.ofOpcode? .texdp3 = some template ∧
      template.expand dotPending.register? .maskR dotPending.place = .ok tokens ∧
      ∃ front opening operands last, tokens = front ++ opening :: operands ∧
        opening.starts? = some last ∧ (∀ token ∈ operands, token.starts? = none) ∧
        build (expander Dialect.linked.code 1) .texdp3 dotPending { legacy := true } = (do
          whileExpanding (scan Dialect.linked.code 0 front)
          let own ← gather Dialect.linked.code (opening :: operands)
          whileExpanding (build (expander Dialect.linked.code 0) last own)) { legacy := true } := by
  obtain ⟨cut, statement, -⟩ := scan_separates_statements Dialect.linked.code 1
  obtain ⟨-, -, expansion⟩ := scan_separates_statements Dialect.linked.code 0
  refine ⟨?_, ?_⟩
  · obtain ⟨a, scanned, first, second⟩ := scan_dotStatement_moveStatement
    refine ⟨a, scanned, ?_, ?_, first, second⟩
    · rw [← cut dotStatement moveStatement (by decide)]
      exact scanned
    · rw [moveStatement, ← statement dotStatement _ _ .mov (by decide) (by decide)]
      exact scanned
  · exact ⟨_, _, rfl, rfl, expansion .texdp3 _ rfl dotPending _ .maskR _ _ rfl rfl⟩

end Assembly
end PixelAsm
