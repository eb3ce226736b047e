import Mathlib.Data.List.Forall2
import PixelAsm.Proofs.Invariants
import PixelAsm.Proofs.IssueLog

/-!
# What building refuses

Before it changes anything, an operation looks at the pending instruction and may refuse it.
Once it has begun to queue, only a read of a register that was never written can stop it: the
number of operands has been checked, and for every number that passes there is a record.
-/
namespace PixelAsm

section MapM

variable {α β ε : Type} {f : α → Except ε β}

theorem forall₂_of_mapM {xs : List α} {ys : List β} (done : xs.mapM f = .ok ys) :
    List.Forall₂ (fun x y => f x = .ok y) xs ys := by
  induction xs generalizing ys with
  | nil =>
    cases done
    exact .nil
  | cons x rest ih =>
    rw [List.mapM_cons] at done
    cases first : f x with
    | error fault =>
      rw [first] at done
      cases done
    | ok y =>
      rw [first] at done
      cases others : rest.mapM f with
      | error fault => simp [bind, Except.bind, others] at done
      | ok zs =>
        obtain rfl : y :: zs = ys := by
          simpa [bind, Except.bind, others, pure, Except.pure] using done
        exact .cons first (ih others)

theorem exists_of_mapM_error {xs : List α} {fault : ε}
    (failed : xs.mapM f = .error fault) : ∃ x ∈ xs, f x = .error fault := by
  induction xs with
  | nil => cases failed
  | cons x rest ih =>
    rw [List.mapM_cons] at failed
    cases first : f x with
    | error other =>
      rw [first] at failed
      cases failed
      exact ⟨x, List.mem_cons_self .., first⟩
    | ok y =>
      rw [first] at failed
      cases others : rest.mapM f with
      | ok zs => simp [bind, Except.bind, others, pure, Except.pure] at failed
      | error other =>
        obtain rfl : other = fault := by simpa [bind, Except.bind, others] using failed
        obtain ⟨z, member, found⟩ := ih others
        exact ⟨z, List.mem_cons_of_mem x member, found⟩

end MapM

/-! ### Operands -/

namespace Pending

theorem operand_error {p : Pending} {index : Nat} {fault : CompileError}
    (failed : p.operand index = .error fault) : fault = .missingOperand index p.place := by
  unfold operand at failed
  split at failed
  · cases failed
  · exact (Except.error.inj failed).symm

/-- The sources are counted before any slot is looked at. -/
theorem operands_error {p : Pending} {least most : Nat} {fault : CompileError}
    (failed : p.operands least most = .error fault) :
    (p.slot < least ∨ most < p.slot) ∧ fault = .badOperandCount p.slot p.place ∨
      ∃ index, fault = .missingOperand index p.place := by
  unfold operands at failed
  split at failed
  next miscounted => exact .inl ⟨miscounted, (Except.error.inj failed).symm⟩
  · cases target : p.operand 0 with
    | error other =>
      rw [target] at failed
      cases failed
      exact .inr ⟨0, operand_error target⟩
    | ok value =>
      rw [target] at failed
      cases sources : (List.range p.slot).mapM fun i => p.operand (i + 1) with
      | ok values => simp [bind, Except.bind, sources, pure, Except.pure] at failed
      | error other =>
        obtain rfl : other = fault := by simpa [bind, Except.bind, sources] using failed
        obtain ⟨index, -, missing⟩ := exists_of_mapM_error sources
        exact .inr ⟨index + 1, operand_error missing⟩

theorem operands_miscounted {p : Pending} {least most : Nat}
    (miscounted : p.slot < least ∨ most < p.slot) :
    p.operands least most = .error (.badOperandCount p.slot p.place) := if_pos miscounted

/-- There is a source for each separator. -/
theorem length_operands {p : Pending} {least most : Nat} {target : Operand}
    {sources : List Operand} (read : p.operands least most = .ok (target, sources)) :
    least ≤ sources.length ∧ sources.length ≤ most := by
  unfold operands at read
  split at read
  · cases read
  next counted =>
    cases first : p.operand 0 with
    | error fault =>
      rw [first] at read
      cases read
    | ok value =>
      rw [first] at read
      cases others : (List.range p.slot).mapM fun i => p.operand (i + 1) with
      | error fault => simp [bind, Except.bind, others] at read
      | ok values =>
        have same : values = sources := by
          have both : (value, values) = (target, sources) := by
            simpa [bind, Except.bind, others, pure, Except.pure] using read
          exact (Prod.mk.inj both).2
        have count := (forall₂_of_mapM others).length_eq
        rw [List.length_range, same] at count
        omega

end Pending

theorem Symbol.operation?_eq_template_iff (opcode : Symbol) (template : Template) :
    opcode.operation? = some (.template template) ↔
      Template.ofOpcode? opcode = some template := by
  unfold Symbol.operation?
  split
  all_goals simp [Template.ofOpcode?]

/-- An error that reports a read of a register that was never written. -/
def CompileError.IsUndefinedRead (fault : CompileError) : Prop :=
  ∃ register place, fault = .undefinedRead register place

namespace Assembly

/-! ### Building -/

/-- The step leaves the pending instruction alone. It fails at an undefined read or, before it
has changed anything, with one of the given refusals. -/
def Builds {α : Type} (refusals : CompileError → Prop) (step : Assembly α) : Prop :=
  ∀ a, match step a with
    | .ok _ b => b.pending = a.pending
    | .error fault b =>
      b.pending = a.pending ∧ (fault.IsUndefinedRead ∨ b = a ∧ refusals fault)

section Builds

variable {α : Type} {refusals : CompileError → Prop}

theorem builds_pure (value : α) : Builds refusals (pure value) := fun _ => rfl

theorem builds_throw {fault : CompileError} (refused : refusals fault) :
    Builds refusals (throw fault : Assembly α) := fun _ => ⟨rfl, .inr ⟨rfl, refused⟩⟩

theorem builds_modify {change : Assembler → Assembler}
    (kept : ∀ a, (change a).pending = a.pending) : Builds refusals (modify change) := kept

theorem builds_get {next : Assembler → Assembly Unit}
    (each : ∀ a, Builds refusals (next a)) : Builds refusals (get >>= next) :=
  fun a => each a a

theorem builds_ofExcept {value : Except CompileError α} {next : α → Assembly Unit}
    (refused : ∀ fault, value = .error fault → refusals fault)
    (passed : ∀ x, value = .ok x → Builds refusals (next x)) :
    Builds refusals (ofExcept value >>= next) := by
  cases value with
  | ok x => exact passed x rfl
  | error fault => exact fun a => ⟨rfl, .inr ⟨rfl, refused fault rfl⟩⟩

theorem builds_ite {condition : Prop} [Decidable condition] {yes no : Assembly α}
    (first : condition → Builds refusals yes) (second : ¬ condition → Builds refusals no) :
    Builds refusals (if condition then yes else no) := by
  split
  next met => exact first met
  next failed => exact second failed

/-- Behind a step that may have changed something, nothing may be refused. -/
theorem Builds.andThen {first second : Assembly Unit} (before : Builds refusals first)
    (behind : Builds (fun _ => False) second) : Builds refusals (do first; second) := by
  intro a
  have left := before a
  rw [bind_apply]
  cases passed : first a with
  | error fault b =>
    rw [passed] at left
    exact left
  | ok value b =>
    rw [passed] at left
    have right := behind b
    dsimp only
    cases outcome : second b with
    | ok value c =>
      rw [outcome] at right
      exact right.trans left
    | error fault c =>
      rw [outcome] at right
      exact ⟨right.1.trans left, .inl (right.2.resolve_right (·.2))⟩

theorem Builds.mono {step : Assembly Unit} {more : CompileError → Prop}
    (builds : Builds refusals step) (weaker : ∀ fault, refusals fault → more fault) :
    Builds more step := by
  intro a
  have outcome := builds a
  split at outcome
  · exact outcome
  · exact ⟨outcome.1, outcome.2.imp_right fun early => ⟨early.1, weaker _ early.2⟩⟩

end Builds

theorem checkRead_builds (place : Place) (register : UInt32) :
    Builds (fun _ => False) (checkRead place register) := by
  intro a
  obtain same | same | same := checkRead_cases place register a
  · rw [same]
  · rw [same]
    exact congrArg Control.pending (a.control_route register)
  · rw [same]
    exact ⟨rfl, .inl ⟨register, place, rfl⟩⟩

theorem checkReads_builds (place : Place) (registers : List UInt32) :
    Builds (fun _ => False) (checkReads place registers) := by
  induction registers with
  | nil => exact builds_pure ()
  | cons register rest ih => exact (checkRead_builds place register).andThen ih

/-- Queueing an instruction that has a record. -/
theorem commit_builds (stage : Stage) {i : Instruction} (tagged : i.tag?.isSome = true)
    (p : Pending) : Builds (fun _ => False) (commit stage i p) := by
  obtain ⟨tag, tagged⟩ := Option.isSome_iff_exists.mp tagged
  obtain ⟨record, recorded⟩ : ∃ record, i.record? = some record :=
    ⟨_, by rw [Instruction.record?, tagged]; rfl⟩
  have queued : Builds (fun _ => False) (modify fun a : Assembler =>
      ((a.noteRecord stage).appendRecord stage record).noteWrite stage i.destination) :=
    builds_modify fun a => congrArg Control.pending (a.control_queued ..)
  unfold commit
  simp only [recorded]
  split
  · exact (checkReads_builds _ _).andThen queued
  · exact queued

private theorem tagged_sources {p : Pending} {target : Operand} {sources : List Operand}
    (read : p.operands 1 3 = .ok (target, sources)) :
    (Arity.ofCount? sources.length).isSome = true := by
  have bounds := p.length_operands read
  obtain count | count | count : sources.length = 1 ∨ sources.length = 2 ∨ sources.length = 3 := by
    omega
  all_goals rw [count]; rfl

/-- What an arithmetic instruction commits has as many sources as its check has counted, and
for these counts there are records. -/
theorem buildAlu_builds (p : Pending) :
    Builds (fun fault => p.operands 1 3 = .error fault) (buildAlu p) := by
  refine builds_ofExcept (fun _ failed => failed) fun (target, sources) read =>
    builds_get fun a => ?_
  have tagged := tagged_sources read
  have color (stage : Stage) (t : ColorTarget) :
      Builds (fun _ => False) (commit stage (.color p.code t sources) p) :=
    commit_builds stage (by simpa [Instruction.tag?] using tagged) p
  have alpha (stage : Stage) (t : AlphaTarget) :
      Builds (fun _ => False) (commit stage (.alpha p.code t sources) p) :=
    commit_builds stage (by simpa [Instruction.tag?] using tagged) p
  -- no half is refused, so the alpha half may come behind the colour half
  refine Builds.mono ?_ fun _ => False.elim
  refine builds_ite (fun _ => (color _ _).andThen ?_) fun _ => ?_
  · exact builds_ite (fun _ => alpha _ _) fun _ => builds_pure ()
  · exact builds_ite (fun _ => alpha _ _) fun _ => builds_pure ()

theorem buildTexture_builds (samples : Bool) (p : Pending) :
    Builds (fun fault => p.operands 1 1 = .error fault ∨ p.operand 1 = .error fault)
      (buildTexture samples p) := by
  refine builds_ofExcept (fun _ => .inl) fun _ _ => builds_ofExcept (fun _ => .inr) fun _ _ =>
    builds_get fun a => Builds.mono ?_ fun _ => False.elim
  exact builds_ite (fun _ => commit_builds _ rfl p) fun _ => commit_builds _ rfl p

/-- The interpolator with the number of a temp register. -/
def interpolator? (register : UInt32) : Option UInt32 :=
  (Code.ordinal? Code.tempRegisters register).bind (Code.textureUnits[·]?)

theorem buildLegacyTexture_builds (samples : Bool) (p : Pending) :
    Builds (fun fault => fault = .missingOperand 0 p.place ∧
        ∀ target, p.operand 0 = .ok target → interpolator? target.register = none)
      (buildLegacyTexture samples p) := by
  refine builds_ofExcept (fun _ failed => ⟨p.operand_error failed, ?_⟩) fun target read => ?_
  · rw [failed]
    nofun
  split
  next missing =>
    refine builds_throw ⟨rfl, fun other again => ?_⟩
    rw [← Except.ok.inj (read.symm.trans again)]
    exact missing
  · refine Builds.mono ?_ fun _ => False.elim
    exact builds_ite (fun _ => commit_builds _ rfl p) fun _ => commit_builds _ rfl p

theorem buildConstants_builds (p : Pending) :
    Builds (fun fault => fault = .missingOperand 0 p.place ∨
      ∃ available, fault = .missingConstants p.firstConstant available) (buildConstants p) := by
  refine builds_ofExcept (fun _ failed => .inl (p.operand_error failed)) fun _ _ =>
    builds_get fun a => builds_ite (fun _ b => ?_) fun _ => ?_
  · exact ⟨rfl, .inr ⟨rfl, .inr ⟨a.poolSize, rfl⟩⟩⟩
  · exact (commit_builds _ rfl p).mono fun _ => False.elim

end Assembly

/-- How few and how many sources an operation takes, if it counts them. -/
def Operation.sources? : Operation → Option (Nat × Nat)
  | alu => some (1, 3)
  | texture _ => some (1, 1)
  | legacyTexture _ | constants | phaseMarker | template _ => none

/-- The pending instruction has too few or too many sources for its opcode. -/
def Symbol.Miscounts (opcode : Symbol) (p : Pending) : Prop :=
  ∃ bounds ∈ opcode.operation?.bind Operation.sources?, p.slot < bounds.1 ∨ bounds.2 < p.slot

/-- What an operation refuses before it has changed anything. -/
def Operation.Refuses (p : Pending) (fault : CompileError) : Operation → Prop
  | alu => p.operands 1 3 = .error fault
  | texture _ => p.operands 1 1 = .error fault ∨ p.operand 1 = .error fault
  | legacyTexture _ => fault = .missingOperand 0 p.place ∧
      ∀ target, p.operand 0 = .ok target → Assembly.interpolator? target.register = none
  | constants => fault = .missingOperand 0 p.place ∨
      ∃ available, fault = .missingConstants p.firstConstant available
  | phaseMarker | template _ => False

/-- Only the two operations that count their sources refuse for their number. -/
theorem Operation.Refuses.miscounted {operation : Operation} {p : Pending} {count : Nat} {place : Place}
    (refused : operation.Refuses p (.badOperandCount count place)) :
    (∃ bounds ∈ operation.sources?, p.slot < bounds.1 ∨ bounds.2 < p.slot) ∧ count = p.slot ∧
      place = p.place := by
  have counted {least most : Nat}
      (error : p.operands least most = .error (.badOperandCount count place)) :
      (p.slot < least ∨ most < p.slot) ∧ count = p.slot ∧ place = p.place := by
    obtain ⟨miscounted, fault⟩ | ⟨index, fault⟩ := p.operands_error error
    · cases fault
      exact ⟨miscounted, rfl, rfl⟩
    · cases fault
  cases operation with
  | alu =>
    obtain ⟨miscounted, values⟩ := counted refused
    exact ⟨⟨(1, 3), rfl, miscounted⟩, values⟩
  | texture samples =>
    obtain error | error := refused
    · obtain ⟨miscounted, values⟩ := counted error
      exact ⟨⟨(1, 1), rfl, miscounted⟩, values⟩
    · cases p.operand_error error
  | legacyTexture samples => cases refused.1
  | constants =>
    obtain fault | ⟨available, fault⟩ := refused
    · cases fault
    · cases fault
  | phaseMarker => cases refused
  | template template => cases refused

namespace Assembly

/-- Building an instruction that is no template. -/
theorem build_builds (expand : Expander) {opcode : Symbol}
    (plain : Template.ofOpcode? opcode = none) (p : Pending) :
    Builds (fun fault => match opcode.operation? with
      | some operation => operation.Refuses p fault
      | none => fault = .unexpectedToken p.token) (build expand opcode p) := by
  unfold build
  cases known : opcode.operation? with
  | none => exact builds_throw rfl
  | some operation =>
    cases operation with
    | alu => exact buildAlu_builds p
    | texture samples => exact buildTexture_builds samples p
    | legacyTexture samples => exact buildLegacyTexture_builds samples p
    | constants => exact buildConstants_builds p
    | phaseMarker => exact builds_modify fun _ => rfl
    | template template =>
      rw [(opcode.operation?_eq_template_iff template).mp known] at plain
      cases plain

/-- The sources are miscounted by the check in front only. What the check lets through has a
record, so queueing never complains about the number of operands. -/
theorem build_eq_badOperandCount_iff (expand : Expander) {opcode : Symbol}
    (plain : Template.ofOpcode? opcode = none) (p : Pending) (a b : Assembler) (count : Nat)
    (place : Place) :
    build expand opcode p a = .error (.badOperandCount count place) b ↔
      opcode.Miscounts p ∧ count = p.slot ∧ place = p.place ∧ b = a := by
  constructor
  · intro failed
    have outcome := build_builds expand plain p a
    rw [failed] at outcome
    obtain ⟨-, ⟨register, other, read⟩ | ⟨same, refused⟩⟩ := outcome
    · cases read
    cases known : opcode.operation? with
    | none =>
      rw [known] at refused
      cases refused
    | some operation =>
      rw [known] at refused
      obtain ⟨⟨bounds, own, miscounted⟩, values⟩ := Operation.Refuses.miscounted refused
      exact ⟨⟨bounds, by rw [known]; exact own, miscounted⟩, values.1, values.2, same⟩
  · rintro ⟨⟨⟨least, most⟩, found, miscounted⟩, rfl, rfl, rfl⟩
    obtain ⟨operation, known, bounds⟩ := Option.bind_eq_some_iff.mp found
    unfold build
    rw [known]
    cases operation with
    | alu =>
      cases bounds
      simp only [buildAlu, Pending.operands_miscounted miscounted]
      rfl
    | texture samples =>
      cases bounds
      simp only [buildTexture, Pending.operands_miscounted miscounted]
      rfl
    | legacyTexture samples => cases bounds
    | constants => cases bounds
    | phaseMarker => cases bounds
    | template template => cases bounds

/-! ### Completing an instruction -/

variable {expand : Expander}

theorem flush_of_none {a : Assembler} (idle : a.pending.opcode? = none) :
    flush expand a = .ok () a := by
  simp [flush, bind_apply, get_apply, idle, pure, EStateM.pure]

theorem flush_of_some {a : Assembler} {opcode : Symbol}
    (pending : a.pending.opcode? = some opcode) :
    flush expand a = match build expand opcode a.pending { a with pending := {} } with
      | .ok () b =>
        if b.pending.opcode?.isSome then .error (.pipeNotCleared b.pending.place) b else .ok () b
      | .error fault b => .error fault b := by
  unfold flush
  simp only [bind_apply, get_apply, pending, modify_apply]
  cases build expand opcode a.pending { a with pending := {} } with
  | error fault b => rfl
  | ok value b =>
    simp only
    split <;> rfl

theorem build_template {opcode : Symbol} {template : Template}
    (known : Template.ofOpcode? opcode = some template) (p : Pending) :
    build expand opcode p = expand template p := by
  unfold build
  rw [(opcode.operation?_eq_template_iff template).mpr known]

end Assembly
end PixelAsm
