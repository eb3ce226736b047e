import PixelAsm.Proofs.Filling

/-!
# Assembling arbitrary tokens

Nothing is assumed about the tokens here, nor about the codes of their symbols: separators may
stand in front of any opcode, ids may be unknown, rules may not fit. An expansion is scanned
like a program, so in principle it could hold opcodes that are expanded in turn. It holds none,
which is why one level of nesting is enough and why the recursion has one solution.
-/
namespace PixelAsm

namespace Pending

/-- The slot being filled is one of the slots. -/
structure InRange (p : Pending) : Prop where
  slot : p.slot < slotLimit
  slots : p.slots.length = slotLimit

theorem inRange_empty : InRange {} := ⟨by decide, List.length_replicate⟩

theorem InRange.modifySlot {p : Pending} (range : p.InRange) (change : Slot → Slot) :
    (p.modifySlot change).InRange :=
  ⟨range.slot, (List.length_modify ..).trans range.slots⟩

end Pending

namespace Assembly

variable {expand : Expander} {codeOf : SymbolId → UInt32}

/-! ### One token -/

/-- The instruction that an opcode starts. -/
def startWith (symbol : Symbol) (token : Token) (code : UInt32) (a : Assembler) : Assembler :=
  { a with
    pending := { opcode? := some symbol, token, code, firstConstant := a.constantsSeen } }

/-- A token completes the pending instruction and starts the next one, or adds to it, or is
refused. -/
theorem process_cases (codeOf : SymbolId → UInt32) (token : Token) (a : Assembler) :
    (∃ symbol, token.isOpcode = true ∧ Symbol.ofId? token.id = some symbol ∧
      ∀ expand, process expand codeOf token =
        (do flush expand; modify (startWith symbol token (codeOf token.id)))) ∨
    (∃ b, b.pending.opcode? = a.pending.opcode? ∧ (a.pending.InRange → b.pending.InRange) ∧
      ∀ expand, process expand codeOf token a = .ok () b) ∨
    ∃ fault, (fault = .operandOverflow token.place ∨ fault = .unexpectedToken token) ∧
      ∀ expand, process expand codeOf token a = .error fault a := by
  cases known : Symbol.ofId? token.id with
  | none => exact .inr (.inr ⟨_, .inr rfl, fun expand => by simp only [process, known]; rfl⟩)
  | some symbol =>
    cases role : (Symbol.ofId? token.rule).bind Symbol.role? with
    | none =>
      exact .inr (.inr ⟨_, .inr rfl, fun expand => by simp only [process, known, role]; rfl⟩)
    | some r =>
      have eq (expand : Expander) := show process expand codeOf token = _ by
        unfold process
        rw [known, role]
      -- registers, selectors and modifiers change the slot at hand and nothing else
      have fills (change : Slot → Slot)
          (same : ∀ expand, process expand codeOf token = modifyPending (·.modifySlot change)) :
          ∃ b : Assembler, b.pending.opcode? = a.pending.opcode? ∧
            (a.pending.InRange → b.pending.InRange) ∧
            ∀ expand, process expand codeOf token a = .ok () b :=
        ⟨{ a with pending := a.pending.modifySlot change }, rfl, (·.modifySlot change),
          fun expand => congrFun (same expand) a⟩
      cases r with
      | opcode => exact .inl ⟨symbol, by simp [Token.isOpcode, role], rfl, eq⟩
      | separator =>
        by_cases full : slotLimit ≤ a.pending.slot + 1
        · refine .inr (.inr ⟨_, .inl rfl, fun expand => ?_⟩)
          rw [eq]
          simp only [bind_apply, get_apply, if_pos full]
          rfl
        · refine .inr (.inl ⟨{ a with pending := { a.pending with slot := a.pending.slot + 1 } },
            rfl, fun range => ⟨by simp only; omega, range.slots⟩, fun expand => ?_⟩)
          rw [eq]
          simp only [bind_apply, get_apply, if_neg full, modifyPending, modify_apply]
      | register => exact .inr (.inl (fills _ eq))
      | selector => exact .inr (.inl (fills _ eq))
      | modifier => exact .inr (.inl (fills _ eq))
      | value =>
        exact .inr (.inl ⟨{ a with constantsSeen := a.constantsSeen + 1 }, rfl, id,
          fun expand => congrFun (eq expand) a⟩)
      | ignored => exact .inr (.inl ⟨a, rfl, id, fun expand => congrFun (eq expand) a⟩)

theorem nextRowMask_apply (template : Template) (a : Assembler) :
    ∃ mask second, nextRowMask template a = .ok mask { a with secondRow := second } := by
  unfold nextRowMask
  split
  · exact ⟨_, _, rfl⟩
  · exact ⟨_, a.secondRow, rfl⟩

/-- An expansion fails where its template cannot be filled, and otherwise as its tokens do. -/
theorem expandWith_apply (scan : List Token → Assembly Unit) (template : Template) (p : Pending)
    (a : Assembler) :
    ∃ mask second, nextRowMask template a = .ok mask { a with secondRow := second } ∧
      expandWith scan template p a =
        match template.expand p.register? mask p.place with
        | .ok tokens => whileExpanding (scan tokens) { a with secondRow := second }
        | .error fault => .error fault { a with secondRow := second } := by
  obtain ⟨mask, second, row⟩ := nextRowMask_apply template a
  refine ⟨mask, second, row, ?_⟩
  rw [expandWith, bind_apply, row]
  dsimp only
  cases template.expand p.register? mask p.place with
  | ok tokens => rfl
  | error fault => rfl

/-! ### No instruction is left in the pipe -/

/-- Started with a pending instruction as `before` says, the step ends with one as `after` says.
The slot stays in range, also if the step fails, and no error is about the pipe. -/
def Clears (before after : Pending → Prop) (step : Assembly Unit) : Prop :=
  ∀ a, a.pending.InRange → before a.pending →
    match step a with
    | .ok _ b => b.pending.InRange ∧ after b.pending
    | .error fault b => b.pending.InRange ∧ ∀ place, fault ≠ .pipeNotCleared place

/-- Nothing is pending. -/
def Idle (p : Pending) : Prop := p.opcode? = none

def Any (_ : Pending) : Prop := True

theorem Clears.andThen {before between after : Pending → Prop} {first second : Assembly Unit}
    (left : Clears before between first) (right : Clears between after second) :
    Clears before after (do first; second) := by
  intro a range held
  have middle := left a range held
  rw [bind_apply]
  cases passed : first a with
  | error fault b =>
    rw [passed] at middle
    exact middle
  | ok value b =>
    rw [passed] at middle
    exact right b middle.1 middle.2

/-- Expansions of opcodes start with nothing pending and leave nothing pending. -/
def ClearsAll (expand : Expander) : Prop :=
  ∀ opcode template, Template.ofOpcode? opcode = some template →
    ∀ p, Clears (· = {}) Idle (expand template p)

private theorem refuses_ne_pipeNotCleared {operation : Operation} {p : Pending}
    {fault : CompileError} (refused : operation.Refuses p fault) (place : Place) :
    fault ≠ .pipeNotCleared place := by
  rintro rfl
  have operands {least most : Nat}
      (error : p.operands least most = .error (.pipeNotCleared place)) : False := by
    obtain ⟨-, fault⟩ | ⟨index, fault⟩ := p.operands_error error
    · cases fault
    · cases fault
  cases operation with
  | alu => exact operands refused
  | texture samples =>
    obtain error | error := refused
    · exact operands error
    · cases p.operand_error error
  | legacyTexture samples => cases refused.1
  | constants =>
    obtain fault | ⟨available, fault⟩ := refused
    · cases fault
    · cases fault
  | phaseMarker => cases refused
  | template template => cases refused

theorem build_clears (expands : ClearsAll expand) (opcode : Symbol) (p : Pending) :
    Clears (· = {}) Idle (build expand opcode p) := by
  cases known : Template.ofOpcode? opcode with
  | some template =>
    rw [build_template known]
    exact expands opcode template known p
  | none =>
    intro a range empty
    have outcome := build_builds expand known p a
    cases built : build expand opcode p a with
    | ok value b =>
      rw [built] at outcome
      have cleared : b.pending = {} := outcome.trans empty
      exact ⟨cleared ▸ Pending.inRange_empty, by rw [Idle, cleared]⟩
    | error fault b =>
      rw [built] at outcome
      obtain ⟨same, ⟨register, other, read⟩ | ⟨-, refused⟩⟩ := outcome
      · refine ⟨same ▸ range, fun place left => ?_⟩
        cases read.symm.trans left
      · refine ⟨same ▸ range, fun place left => ?_⟩
        cases operation : opcode.operation? with
        | none =>
          rw [operation] at refused
          cases refused.symm.trans left
        | some known =>
          rw [operation] at refused
          exact refuses_ne_pipeNotCleared refused place left

theorem flush_clears (expands : ClearsAll expand) : Clears Any Idle (flush expand) := by
  intro a range _
  cases pending : a.pending.opcode? with
  | none =>
    rw [flush_of_none pending]
    exact ⟨range, pending⟩
  | some opcode =>
    -- the pending instruction is taken out before it is built
    have outcome := build_clears expands opcode a.pending { a with pending := {} }
      Pending.inRange_empty rfl
    rw [flush_of_some pending]
    cases built : build expand opcode a.pending { a with pending := {} } with
    | error fault b =>
      rw [built] at outcome
      exact outcome
    | ok value b =>
      rw [built] at outcome
      have idle : b.pending.opcode? = none := outcome.2
      simpa [idle] using outcome

theorem process_clears (expands : ClearsAll expand) (codeOf : SymbolId → UInt32)
    (token : Token) : Clears Any Any (process expand codeOf token) := by
  intro a range _
  obtain ⟨symbol, -, -, same⟩ | ⟨b, -, kept, same⟩ | ⟨fault, refused, same⟩ :=
    process_cases codeOf token a
  · have starts : Clears Idle Any (modify (startWith symbol token (codeOf token.id))) :=
      fun b _ _ => ⟨⟨by simp [startWith, slotLimit], by simp [startWith]⟩, trivial⟩
    rw [same]
    exact (flush_clears expands).andThen starts a range trivial
  · rw [same]
    exact ⟨kept range, trivial⟩
  · rw [same]
    refine ⟨range, fun place cleared => ?_⟩
    obtain rfl | rfl := refused
    · cases cleared
    · cases cleared

theorem processAll_clears (expands : ClearsAll expand) (codeOf : SymbolId → UInt32)
    (tokens : List Token) : Clears Any Any (processAll expand codeOf tokens) := by
  induction tokens with
  | nil => exact fun a range _ => ⟨range, trivial⟩
  | cons token rest ih => exact (process_clears expands codeOf token).andThen ih

theorem scanWith_clears (expands : ClearsAll expand) (codeOf : SymbolId → UInt32)
    (tokens : List Token) : Clears Any Idle (scanWith expand codeOf tokens) :=
  (processAll_clears expands codeOf tokens).andThen (flush_clears expands)

private theorem expand_ne_pipeNotCleared {template : Template} {register? : Nat → Option UInt32}
    {mask : Symbol} {place : Place} {fault : CompileError}
    (failed : template.expand register? mask place = .error fault) (other : Place) :
    fault ≠ .pipeNotCleared other := by
  rintro rfl
  obtain ⟨item, -, failed⟩ := exists_of_mapM_error failed
  unfold Template.resolve at failed
  split at failed
  · cases failed
  · cases failed
  · split at failed
    · cases failed
    · split at failed
      · cases failed
      · cases failed

theorem expandWith_clears {scan : List Token → Assembly Unit}
    (scans : ∀ tokens, Clears Any Idle (scan tokens)) (template : Template) (p : Pending) :
    Clears (· = {}) Idle (expandWith scan template p) := by
  intro a range _
  obtain ⟨mask, second, -, same⟩ := expandWith_apply scan template p a
  rw [same]
  cases filled : template.expand p.register? mask p.place with
  | error fault => exact ⟨range, expand_ne_pipeNotCleared filled⟩
  | ok tokens =>
    have inside := scans tokens { a with secondRow := second, expanding := true } range trivial
    unfold whileExpanding
    dsimp only
    cases outcome : scan tokens { a with secondRow := second, expanding := true } with
    | ok value b =>
      rw [outcome] at inside
      exact inside
    | error fault b =>
      rw [outcome] at inside
      exact inside

/-! ### Nesting -/

/-- The opcode that the token starts an instruction with, if any, is one of the given ones. -/
def Opens (opcodes : Symbol → Prop) (token : Token) : Prop :=
  token.isOpcode = true → ∀ symbol, Symbol.ofId? token.id = some symbol → opcodes symbol

/-- The opcode of the pending instruction, if any, is one of the given ones. -/
def Holds (opcodes : Symbol → Prop) (p : Pending) : Prop :=
  ∀ opcode, p.opcode? = some opcode → opcodes opcode

/-- The opcode stands for no template. -/
def IsPlain (opcode : Symbol) : Prop := Template.ofOpcode? opcode = none

/-- For these opcodes two expanders do the same. -/
def Agree (opcodes : Symbol → Prop) (expand other : Expander) : Prop :=
  ∀ opcode template, opcodes opcode → Template.ofOpcode? opcode = some template →
    ∀ p a, a.pending = {} → expand template p a = other template p a

theorem agree_plain (expand other : Expander) : Agree IsPlain expand other := by
  intro opcode template plain known
  rw [IsPlain, known] at plain
  cases plain

section Agree

variable {opcodes : Symbol → Prop} {other : Expander}

theorem flush_agree (agree : Agree opcodes expand other) {a : Assembler}
    (held : Holds opcodes a.pending) : flush expand a = flush other a := by
  cases pending : a.pending.opcode? with
  | none => rw [flush_of_none pending, flush_of_none pending]
  | some opcode =>
    rw [flush_of_some pending, flush_of_some pending]
    cases known : Template.ofOpcode? opcode with
    | some template =>
      rw [build_template known, build_template known,
        agree opcode template (held opcode pending) known a.pending { a with pending := {} } rfl]
    | none =>
      -- the expander is not asked
      have same : build expand opcode a.pending = build other opcode a.pending := by
        unfold build
        cases operation : opcode.operation? with
        | none => rfl
        | some o =>
          cases o with
          | template template =>
            rw [(opcode.operation?_eq_template_iff template).mp operation] at known
            cases known
          | alu => rfl
          | texture samples => rfl
          | legacyTexture samples => rfl
          | constants => rfl
          | phaseMarker => rfl
      rw [same]

theorem process_holds {token : Token} (opens : Opens opcodes token) {a b : Assembler}
    (held : Holds opcodes a.pending) (passed : process expand codeOf token a = .ok () b) :
    Holds opcodes b.pending := by
  obtain ⟨symbol, isOpcode, known, same⟩ | ⟨c, kept, -, same⟩ | ⟨fault, -, same⟩ :=
    process_cases codeOf token a
  · rw [same, bind_apply] at passed
    cases flushed : flush expand a with
    | error fault c =>
      rw [flushed] at passed
      cases passed
    | ok value c =>
      rw [flushed] at passed
      cases passed
      rintro opcode ⟨⟩
      exact opens isOpcode symbol known
  · rw [same] at passed
    cases passed
    rw [Holds, kept]
    exact held
  · rw [same] at passed
    cases passed

theorem process_agree (agree : Agree opcodes expand other) (token : Token) {a : Assembler}
    (held : Holds opcodes a.pending) :
    process expand codeOf token a = process other codeOf token a := by
  obtain ⟨symbol, -, -, same⟩ | ⟨b, -, -, same⟩ | ⟨fault, -, same⟩ := process_cases codeOf token a
  · rw [same, same, bind_apply, bind_apply, flush_agree agree held]
  · rw [same, same]
  · rw [same, same]

/-- Two expanders that agree on the opcodes of the tokens scan them alike. -/
theorem scanWith_agree (agree : Agree opcodes expand other) {tokens : List Token}
    (opens : ∀ token ∈ tokens, Opens opcodes token) {a : Assembler}
    (held : Holds opcodes a.pending) :
    scanWith expand codeOf tokens a = scanWith other codeOf tokens a := by
  unfold scanWith
  induction tokens generalizing a with
  | nil => exact flush_agree agree held
  | cons token rest ih =>
    simp only [processAll, bind_assoc]
    rw [bind_apply, bind_apply, process_agree agree token held]
    cases passed : process other codeOf token a with
    | error fault b => rfl
    | ok value b =>
      exact ih (fun t member => opens t (List.mem_cons_of_mem token member))
        (process_holds (opens token (List.mem_cons_self ..)) held passed)

end Agree

private def plainItem : TemplateItem → Bool
  | .token symbol rule => rule.role? != some .opcode || (Template.ofOpcode? symbol).isNone
  | .operand _ _ | .rowMask => true

private theorem templates_plain {opcode : Symbol} {template : Template}
    (known : Template.ofOpcode? opcode = some template) : template.all plainItem = true := by
  unfold Template.ofOpcode? at known
  split at known <;> cases known <;> decide

/-- The places left open in a template take registers and a mask, and its other tokens start no
instruction that stands for a template. -/
theorem opens_expand {opcode : Symbol} {template : Template}
    (known : Template.ofOpcode? opcode = some template) {register? : Nat → Option UInt32}
    {mask : Symbol} {place : Place} {tokens : List Token}
    (filled : template.expand register? mask place = .ok tokens) :
    ∀ token ∈ tokens, Opens IsPlain token := by
  intro token member isOpcode symbol named
  have pairs := forall₂_of_mapM filled
  obtain ⟨n, rfl⟩ := List.mem_iff_get.mp member
  have inside : n.1 < template.length := Nat.lt_of_lt_of_eq n.2 pairs.length_eq.symm
  have resolved := pairs.get inside n.2
  have plain := List.all_eq_true.mp (templates_plain known) _ (List.get_mem template ⟨n, inside⟩)
  generalize template.get ⟨n, inside⟩ = item at resolved plain
  generalize tokens.get n = token at resolved isOpcode named
  cases item with
  | token s rule =>
    cases resolved
    rw [Symbol.ofId?_id] at named
    cases named
    have role : rule.role? = some .opcode := by simpa [Token.isOpcode] using isOpcode
    simpa [plainItem, role, IsPlain] using plain
  | rowMask =>
    cases resolved
    simp [Token.isOpcode, Symbol.role?] at isOpcode
  | operand bank index =>
    simp only [Template.resolve] at resolved
    split at resolved
    · cases resolved
    · split at resolved
      · cases resolved
      · cases resolved
        cases bank <;> simp [Token.isOpcode, Bank.rule, Symbol.role?] at isOpcode

/-- The recursion of the assembler without a bound on nesting: an expansion is scanned with
the expander itself. -/
def Unbounded (codeOf : SymbolId → UInt32) (expand : Expander) : Prop :=
  ∀ opcode template, Template.ofOpcode? opcode = some template →
    ∀ p a, a.pending = {} →
      expand template p a = expandWith (scanWith expand codeOf) template p a

private theorem holds_empty (opcodes : Symbol → Prop) : Holds opcodes {} := nofun

/-- What happens to templates inside of expansions is never asked. -/
theorem expandWith_plain (codeOf : SymbolId → UInt32) (expand other : Expander)
    {opcode : Symbol} {template : Template} (known : Template.ofOpcode? opcode = some template)
    (p : Pending) {a : Assembler} (empty : a.pending = {}) :
    expandWith (scanWith expand codeOf) template p a =
      expandWith (scanWith other codeOf) template p a := by
  obtain ⟨mask, second, row, left⟩ := expandWith_apply (scanWith expand codeOf) template p a
  obtain ⟨mask', second', row', right⟩ := expandWith_apply (scanWith other codeOf) template p a
  obtain ⟨rfl, same⟩ := EStateM.Result.ok.inj (row.symm.trans row')
  rw [left, right, ← same]
  cases filled : template.expand p.register? mask p.place with
  | error fault => rfl
  | ok tokens =>
    simp only [whileExpanding]
    rw [scanWith_agree (agree_plain expand other) (opens_expand known filled)]
    exact empty ▸ holds_empty IsPlain

/-- There is a solution. -/
theorem unbounded_scan (codeOf : SymbolId → UInt32) :
    Unbounded codeOf (expandWith (scan codeOf 0)) := fun _ _ known p _ empty =>
  expandWith_plain codeOf _ _ known p empty

/-- Every solution scans as one level of nesting does. -/
theorem Unbounded.scanWith_eq (unbounded : Unbounded codeOf expand) (tokens : List Token) :
    scanWith expand codeOf tokens = scan codeOf Assembler.templateDepth tokens := by
  funext a
  have agree : Agree (fun _ => True) expand (expandWith (scan codeOf 0)) := by
    intro opcode template _ known p b empty
    rw [unbounded opcode template known p b empty]
    exact expandWith_plain codeOf _ _ known p empty
  exact scanWith_agree agree (fun _ _ _ _ _ => trivial) fun _ _ => trivial

theorem Unbounded.clearsAll (unbounded : Unbounded codeOf expand) : ClearsAll expand := by
  intro opcode template known p a range empty
  -- one level down no expander is asked, so one that refuses everything will do
  have refusing : ClearsAll fun _ q => throw (.unexpectedToken q.token) :=
    fun _ _ _ _ _ inRange _ => ⟨inRange, fun place left => by cases left⟩
  rw [unbounded opcode template known p a empty, expandWith_plain codeOf _ _ known p empty]
  exact expandWith_clears (scanWith_clears refusing codeOf) template p a range empty

/-! ### Reachable states -/

/-- The states that scanning tokens goes through: between two tokens, behind the last one, and
inside of the expansions that are begun. The number says how many expansions the state is
inside of. -/
inductive Visits (expand : Expander) (codeOf : SymbolId → UInt32) :
    List Token → Assembler → Nat → Assembler → Prop where
  | here (tokens : List Token) (a : Assembler) : Visits expand codeOf tokens a 0 a
  | onward {token : Token} {rest : List Token} {a b c : Assembler} {level : Nat}
      (passed : process expand codeOf token a = .ok () b)
      (later : Visits expand codeOf rest b level c) :
      Visits expand codeOf (token :: rest) a level c
  | refused {token : Token} {rest : List Token} {a b : Assembler} {fault : CompileError}
      (failed : process expand codeOf token a = .error fault b) :
      Visits expand codeOf (token :: rest) a 0 b
  | finished {a b : Assembler} (passed : flush expand a = .ok () b) :
      Visits expand codeOf [] a 0 b
  | aborted {a b : Assembler} {fault : CompileError}
      (failed : flush expand a = .error fault b) : Visits expand codeOf [] a 0 b
  | inside {tokens inner : List Token} {a b c : Assembler} {level : Nat} {opcode mask : Symbol}
      {template : Template}
      (completes : ∀ token ∈ tokens.head?,
        token.isOpcode = true ∧ (Symbol.ofId? token.id).isSome = true)
      (pending : a.pending.opcode? = some opcode)
      (known : Template.ofOpcode? opcode = some template)
      (row : nextRowMask template { a with pending := {} } = .ok mask b)
      (filled : template.expand a.pending.register? mask a.pending.place = .ok inner)
      (visits : Visits expand codeOf inner { b with expanding := true } level c) :
      Visits expand codeOf tokens a (level + 1) c

private theorem pending_of_row {template : Template} {a b : Assembler} {mask : Symbol}
    (row : nextRowMask template a = .ok mask b) : b.pending = a.pending := by
  obtain ⟨other, second, same⟩ := nextRowMask_apply template a
  obtain ⟨-, rfl⟩ := EStateM.Result.ok.inj (row.symm.trans same)
  rfl

namespace Visits

variable {tokens : List Token} {a b : Assembler} {level : Nat}

theorem inRange (expands : ClearsAll expand) (visits : Visits expand codeOf tokens a level b)
    (range : a.pending.InRange) : b.pending.InRange := by
  induction visits with
  | here tokens a => exact range
  | @onward token rest a b c level passed later ih =>
    have step := process_clears expands codeOf token a range trivial
    rw [passed] at step
    exact ih step.1
  | @refused token rest a b fault failed =>
    have step := process_clears expands codeOf token a range trivial
    rw [failed] at step
    exact step.1
  | @finished a b passed =>
    have step := flush_clears expands a range trivial
    rw [passed] at step
    exact step.1
  | @aborted a b fault failed =>
    have step := flush_clears expands a range trivial
    rw [failed] at step
    exact step.1
  | @inside tokens inner a b c level opcode mask template completes pending known row filled
      visits ih =>
    have empty : b.pending = {} := pending_of_row row
    apply ih
    show b.pending.InRange
    rw [empty]
    exact Pending.inRange_empty

/-- Where no opcode stands for a template, no expansion is begun. -/
theorem level_of_plain (visits : Visits expand codeOf tokens a level b)
    (opens : ∀ token ∈ tokens, Opens IsPlain token) (held : Holds IsPlain a.pending) :
    level = 0 := by
  induction visits with
  | here | refused | finished | aborted => rfl
  | @onward token rest a b c level passed later ih =>
    exact ih (fun t member => opens t (List.mem_cons_of_mem token member))
      (process_holds (opens token (List.mem_cons_self ..)) held passed)
  | inside completes pending known row filled visits ih =>
    have plain : Template.ofOpcode? _ = none := held _ pending
    rw [known] at plain
    cases plain

theorem level_le_one (visits : Visits expand codeOf tokens a level b) : level ≤ 1 := by
  induction visits with
  | here | refused | finished | aborted => exact Nat.zero_le 1
  | onward passed later ih => exact ih
  | @inside tokens inner a b c level opcode mask template completes pending known row filled
      visits ih =>
    have empty : b.pending = {} := pending_of_row row
    have held : Holds IsPlain b.pending := by
      rw [empty]
      exact holds_empty IsPlain
    have flat : level = 0 := visits.level_of_plain (opens_expand known filled) held
    omega

end Visits

end Assembly

namespace Assembler

open Assembly

/-- Assembling is safe on any tokens, with any codes, pool and contexts. The recursion through
expansions has a solution without a bound on nesting, and each one gives what one level of
nesting gives. No state on the way has more than one expansion around it or a slot out of
range, and nothing is left in the pipe. The number of operands is refused by the checks in
front only, never by queueing. With the codes of the dialect an expansion whose template could
be filled fails at undefined reads only. -/
theorem assemble_safe (g : Grammar) (r : Reading) :
    (∃ expand, Unbounded g.code expand) ∧
    ∀ expand, Unbounded g.code expand →
      scanWith expand g.code r.tokens (start r) =
        Assembly.scan g.code templateDepth r.tokens (start r) ∧
      (∀ level a, Visits expand g.code r.tokens (start r) level a →
        level ≤ 1 ∧ a.pending.slot ≤ 4 ∧ a.pending.slots.length = 5) ∧
      (∀ before place a, assemble g r before ≠ .error (.pipeNotCleared place) a) ∧
      (∀ opcode, Template.ofOpcode? opcode = none → ∀ p a count place b,
        build expand opcode p a = .error (.badOperandCount count place) b ↔
          opcode.Miscounts p ∧ count = p.slot ∧ place = p.place ∧ b = a) ∧
      ((∀ s : Symbol, g.code s.id = s.code) →
        ∀ opcode template, Template.ofOpcode? opcode = some template →
          ∀ (p : Pending) a mask b tokens, a.pending = {} →
            nextRowMask template a = .ok mask b →
            template.expand p.register? mask p.place = .ok tokens →
              ∀ fault c,
                scanWith expand g.code tokens { b with expanding := true } = .error fault c →
                  ∃ register place, fault = .undefinedRead register place) := by
  refine ⟨⟨_, unbounded_scan g.code⟩, fun expand unbounded => ⟨?_, ?_, ?_, ?_, ?_⟩⟩
  · rw [unbounded.scanWith_eq]
  · intro level a visits
    have range := visits.inRange unbounded.clearsAll Pending.inRange_empty
    exact ⟨visits.level_le_one, Nat.le_of_lt_succ range.slot, range.slots⟩
  · intro before place a failed
    have cleared := scanWith_clears unbounded.clearsAll g.code r.tokens (start r)
      Pending.inRange_empty trivial
    rw [unbounded.scanWith_eq] at cleared
    rw [assemble_apply] at failed
    cases outcome : Assembly.scan g.code templateDepth r.tokens (start r) with
    | ok value b =>
      rw [outcome] at failed
      cases failed
    | error fault b =>
      rw [outcome] at failed cleared
      cases failed
      exact cleared.2 place rfl
  · intro opcode plain p a count place b
    exact build_eq_badOperandCount_iff expand plain p a b count place
  · intro coded opcode template known p a mask b tokens empty given filled fault c failed
    obtain ⟨row, rfl⟩ := exists_rowMask given
    have cleared : ({ b with expanding := true } : Assembler).pending = {} :=
      (pending_of_row given).trans empty
    exact scanWith_expansion coded known filled cleared failed

/-- Separators without an instruction. -/
def separators : Reading :=
  { tokens := List.replicate 6 { id := Symbol.comma.id, rule := Symbol.separator.id } }

/-- A reflection with a scratch register in place of a texture register. -/
def oddReflection : Pending :=
  { opcode? := some .texm3x3spec, slot := 2
    slots := [{ register? := some Code.r0 }, { register? := some Code.r5 },
      { register? := some Code.c7 }, {}, {}] }

theorem assemble_safe_separators :
    ∃ expand, Unbounded Dialect.linked.code expand ∧
      (∃ a, Visits expand Dialect.linked.code separators.tokens (start separators) 0 a ∧
        a.pending.slot = 4 ∧ a.pending.slots.length = 5) ∧
      ∃ template tokens, Template.ofOpcode? .texm3x3spec = some template ∧
        template.expand oddReflection.register? .maskR oddReflection.place = .ok tokens ∧
        ∀ fault c, scanWith expand Dialect.linked.code tokens { expanding := true } =
          .error fault c → ∃ register place, fault = .undefinedRead register place := by
  obtain ⟨⟨expand, unbounded⟩, safe⟩ := assemble_safe Dialect.linked separators
  obtain ⟨-, states, -, -, expansions⟩ := safe expand unbounded
  refine ⟨expand, unbounded, ?_, ?_⟩
  · have visits : Visits expand Dialect.linked.code separators.tokens (start separators) 0
        { start separators with pending := { slot := 4 } } :=
      .onward rfl (.onward rfl (.onward rfl (.onward rfl (.here _ _))))
    exact ⟨_, visits, rfl, (states 0 _ visits).2.2⟩
  · exact ⟨_, _, rfl, rfl, expansions Dialect.code_id .texm3x3spec _ rfl oddReflection {} .maskR {}
      _ rfl rfl rfl⟩

end Assembler
end PixelAsm
