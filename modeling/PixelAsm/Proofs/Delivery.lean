import PixelAsm.Proofs.Liveness
import PixelAsm.Proofs.Refinement

/-!
# The result of a program before ps.1.4

A program of these dialects computes its result in its register `r0`, which is not the
register from which the target takes it. The compiler therefore changes the destination of
the last instruction, and of the one before it if the last is an alpha operation. Both are
chosen by their position alone. We say exactly when this delivers what the program has
written to `r0`, and when it takes a register away from an instruction that reads it.
-/
namespace PixelAsm

open Syntax

/-- The two kinds of arithmetic. -/
inductive Half where
  | color | alpha
  deriving DecidableEq, Repr

namespace Instruction

def half? : Instruction → Option Half
  | color _ _ _ => some .color
  | alpha _ _ _ => some .alpha
  | _ => none

/-- The instruction is of one kind of arithmetic and writes the register. -/
def Writes (i : Instruction) (half : Half) (register : UInt32) : Prop :=
  i.half? = some half ∧ i.destination = register

instance (i : Instruction) (half : Half) (register : UInt32) :
    Decidable (i.Writes half register) :=
  inferInstanceAs (Decidable (_ ∧ _))

@[simp]
theorem half?_redirect (register : UInt32) (i : Instruction) :
    (i.redirect register).half? = i.half? := by
  cases i <;> simp [redirect, half?]

@[simp]
theorem operands_redirect (register : UInt32) (i : Instruction) :
    (i.redirect register).operands = i.operands := by
  cases i <;> simp [redirect, operands]

theorem destination_redirect {i : Instruction} {half : Half} (arithmetic : i.half? = some half)
    (register : UInt32) : (i.redirect register).destination = register := by
  cases i with
  | color operation target operands | alpha operation target operands =>
    simp [redirect, destination]
  | setConstants register index | passTexCoord register coordinate swizzle
  | sampleMap register interpolator swizzle => simp [half?] at arithmetic

theorem isAlpha_iff (i : Instruction) : i.isAlpha = true ↔ i.half? = some .alpha := by
  cases i <;> simp [isAlpha, half?]

end Instruction

/-! ### Positions in the last queue -/

/-- The position of the last instruction of one kind that writes a register. -/
def LastWrite (is : List Instruction) (half : Half) (register : UInt32) (n : Nat) : Prop :=
  (∃ i, is[n]? = some i ∧ i.Writes half register) ∧
    ∀ m i, n < m → is[m]? = some i → ¬ i.Writes half register

theorem lastWrite_iff {is : List Instruction} {half : Half} {register : UInt32} {n : Nat} :
    LastWrite is half register n ↔
      is[n]?.any (·.Writes half register) = true ∧
        ∀ i ∈ is.drop (n + 1), ¬ i.Writes half register := by
  refine and_congr (by simp [Option.any_eq_true]) ⟨?_, ?_⟩
  · intro unwritten i member
    obtain ⟨m, found⟩ := List.mem_iff_getElem?.mp member
    rw [List.getElem?_drop] at found
    exact unwritten _ i (by omega) found
  · intro unwritten m i behind found
    refine unwritten i (List.mem_iff_getElem?.mpr ⟨m - (n + 1), ?_⟩)
    rw [List.getElem?_drop, Nat.add_sub_cancel' behind, found]

instance (is : List Instruction) (half : Half) (register : UInt32) (n : Nat) :
    Decidable (LastWrite is half register n) :=
  decidable_of_iff _ lastWrite_iff.symm

/-- The last of these instructions is an alpha operation. -/
def EndsInAlpha (is : List Instruction) : Prop :=
  ∃ last, is.getLast? = some last ∧ last.half? = some .alpha

instance (is : List Instruction) : Decidable (EndsInAlpha is) :=
  decidable_of_iff (is.getLast?.any (·.half? == some .alpha)) (by
    simp [EndsInAlpha, Option.any_eq_true])

/-- The destination of the instruction at this position is changed. -/
def Retargeted (is : List Instruction) (n : Nat) : Prop :=
  n + 1 = is.length ∨ n + 2 = is.length ∧ EndsInAlpha is

instance (is : List Instruction) (n : Nat) : Decidable (Retargeted is n) :=
  inferInstanceAs (Decidable (_ ∨ _))

theorem length_deliver (is : List Instruction) : (deliver is).length = is.length := by
  fun_induction deliver is <;> simp_all

theorem getElem?_deliver (is : List Instruction) (n : Nat) :
    (deliver is)[n]? = is[n]?.map fun i =>
      if Retargeted is n then i.redirect Code.outputRegister else i := by
  rcases List.eq_nil_or_concat is with rfl | ⟨most, last, rfl⟩
  · simp [deliver]
  rcases List.eq_nil_or_concat most with rfl | ⟨front, second, rfl⟩
  · cases n with
    | zero => simp [deliver, Retargeted]
    | succ n => simp [deliver]
  -- the last two instructions stand behind the ones that are left alone
  simp only [List.concat_eq_append, List.append_assoc, List.singleton_append,
    deliver_append_pair]
  have alpha : EndsInAlpha (front ++ [second, last]) ↔ last.isAlpha = true := by
    simp [EndsInAlpha, Instruction.isAlpha_iff]
  rcases Nat.lt_or_ge n front.length with inFront | behind
  · have kept : ¬ Retargeted (front ++ [second, last]) n := by
      simp only [Retargeted, List.length_append, List.length_cons, List.length_nil]
      omega
    simp [List.getElem?_append_left inFront, kept]
  · obtain ⟨k, rfl⟩ := Nat.exists_eq_add_of_le behind
    simp only [Nat.le_add_right, List.getElem?_append_right, Nat.add_sub_cancel_left]
    rcases k with _ | _ | k
    · simp [Retargeted, alpha]
    · simp [Retargeted]
    · simp

/-! ### Which write becomes the result -/

/-- The instruction at this position is the last of its kind to write the output register
once destinations are changed: a colour operation also if an alpha operation follows it. -/
def Delivers (is : List Instruction) : Half → Nat → Prop
  | .color, n => Retargeted is n
  | .alpha, n => n + 1 = is.length

/-- The last write to a register other than the output becomes the result exactly if it
stands where the compiler looks. -/
theorem lastWrite_deliver_iff {is : List Instruction} {half : Half} {register : UInt32} {n : Nat}
    (other : register ≠ Code.outputRegister) (last : LastWrite is half register n) :
    LastWrite (deliver is) half Code.outputRegister n ↔ Delivers is half n := by
  obtain ⟨⟨i, here, kind, writes⟩, -⟩ := last
  have inside : n < is.length := (List.getElem?_eq_some_iff.mp here).1
  constructor
  · rintro ⟨⟨j, found, -, output⟩, greatest⟩
    rw [getElem?_deliver, here, Option.map_some, Option.some.injEq] at found
    -- an instruction that is left alone does not write the output register
    have changed : Retargeted is n := by
      refine Decidable.byContradiction fun kept => ?_
      rw [if_neg kept] at found
      subst found
      exact other (writes.symm.trans output)
    cases half with
    | color => exact changed
    | alpha =>
      rcases changed with isLast | ⟨isSecond, alpha, ends, isAlpha⟩
      · exact isLast
      · -- the alpha operation at the end is delivered behind this one
        have behind : is[n + 1]? = some alpha := by
          rw [List.getLast?_eq_getElem?] at ends
          rw [← ends]
          congr 1
          omega
        have changed : Retargeted is (n + 1) := .inl (by omega)
        have delivered : (deliver is)[n + 1]? = some (alpha.redirect Code.outputRegister) := by
          simp [getElem?_deliver, behind, changed]
        refine absurd ⟨?_, ?_⟩ (greatest _ _ (Nat.lt_succ_self n) delivered)
        · simpa using isAlpha
        · exact Instruction.destination_redirect isAlpha _
  · intro delivers
    have changed : Retargeted is n := by
      cases half with
      | color => exact delivers
      | alpha => exact .inl delivers
    constructor
    · refine ⟨i.redirect Code.outputRegister, ?_, ?_, ?_⟩
      · simp [getElem?_deliver, here, changed]
      · simpa using kind
      · exact Instruction.destination_redirect kind _
    · rintro m j behind found ⟨sameKind, -⟩
      have short : m < is.length := by
        rw [← length_deliver]
        exact (List.getElem?_eq_some_iff.mp found).1
      -- only an alpha operation can be behind, and then this is a colour operation
      cases half with
      | alpha =>
        have isLast : n + 1 = is.length := delivers
        omega
      | color =>
        rcases changed with isLast | ⟨isSecond, alpha, ends, isAlpha⟩
        · omega
        · obtain rfl : m = is.length - 1 := by omega
          rw [getElem?_deliver, ← List.getLast?_eq_getElem?, ends, Option.map_some,
            Option.some.injEq] at found
          subst found
          split at sameKind <;> simp [isAlpha] at sameKind

/-! ### Which registers are taken away -/

/-- What has been issued when the instruction at a position of the last queue runs. -/
def issuedBefore (queues : Stage → List Instruction) (n : Nat) : List Instruction :=
  queues .texture1 ++ queues .alu1 ++ queues .texture2 ++ (queues .alu2).take n

/-- Some instruction has written the register when the instruction at this position runs. -/
def Written (queues : Stage → List Instruction) (n : Nat) (register : UInt32) : Prop :=
  ∃ w ∈ issuedBefore queues n, w.destination = register

instance (queues : Stage → List Instruction) (n : Nat) (register : UInt32) :
    Decidable (Written queues n register) :=
  inferInstanceAs (Decidable (∃ w ∈ _, _))

/-- The alpha operation at the end reads the register, which only the instruction in front of
it has written. That instruction is taken for the other half of the last one. -/
structure TakenAway (queues : Stage → List Instruction) (n : Nat) (register : UInt32) :
    Prop where
  atEnd : n + 1 = (queues .alu2).length
  alpha : EndsInAlpha (queues .alu2)
  other : register ≠ Code.outputRegister
  second : ∃ m, n = m + 1 ∧ ¬ Written queues m register

/-- The queues with the result delivered in the last one. -/
def deliverLast (queues : Stage → List Instruction) : Stage → List Instruction
  | .alu2 => deliver (queues .alu2)
  | stage => queues stage

theorem written_iff {queues : Stage → List Instruction} {n : Nat} {register : UInt32} :
    Written queues n register ↔
      (∃ w ∈ queues .texture1 ++ queues .alu1 ++ queues .texture2, w.destination = register) ∨
        ∃ m i, m < n ∧ (queues .alu2)[m]? = some i ∧ i.destination = register := by
  simp only [Written, issuedBefore, List.mem_append (t := List.take _ _), or_and_right, exists_or]
  refine or_congr Iff.rfl ⟨?_, ?_⟩
  · rintro ⟨w, taken, writes⟩
    obtain ⟨m, found⟩ := List.mem_iff_getElem?.mp taken
    obtain ⟨before, found⟩ : m < n ∧ (queues .alu2)[m]? = some w := by
      simpa [List.getElem?_take] using found
    exact ⟨m, w, before, found, writes⟩
  · rintro ⟨m, i, before, found, writes⟩
    refine ⟨i, List.mem_iff_getElem?.mpr ⟨m, ?_⟩, writes⟩
    simpa [List.getElem?_take, before] using found

/-- A supplied read is one that something issued before has written. -/
theorem SecondPassSupplied.written {queues : Stage → List Instruction}
    (supplied : SecondPassSupplied queues) {n : Nat} {i : Instruction}
    (here : (queues .alu2)[n]? = some i) {o : Operand} (reads : o ∈ i.operands)
    (temp : Code.isTemp o.register = true) : Written queues n o.register := by
  obtain ⟨inside, rfl⟩ := List.getElem?_eq_some_iff.mp here
  have split : queues .alu2 =
      (queues .alu2).take n ++ (queues .alu2)[n] :: (queues .alu2).drop (n + 1) := by simp
  rcases supplied _ _ _ split o reads temp with
    ⟨t, member, writes⟩ | ⟨e, member, writes⟩ | ⟨-, t, member, writes⟩
  · exact ⟨t, by simp [issuedBefore, member], writes⟩
  · exact ⟨e, List.mem_append_right _ member, writes⟩
  · exact ⟨t, by simp [issuedBefore, member], writes⟩

/-- Changing destinations takes a register away from nobody but the alpha operation at the
end. -/
theorem written_deliverLast_iff {queues : Stage → List Instruction} {n : Nat}
    {register : UInt32} (inside : n < (queues .alu2).length)
    (arithmetic : ∀ i ∈ queues .alu2, i.half?.isSome = true) (written : Written queues n register) :
    Written (deliverLast queues) n register ↔ ¬ TakenAway queues n register := by
  -- in front of `n` only the second last instruction can be changed
  have changed {m : Nat} (before : m < n) (retargeted : Retargeted (queues .alu2) m) :
      n = m + 1 ∧ n + 1 = (queues .alu2).length ∧ EndsInAlpha (queues .alu2) := by
    rcases retargeted with isLast | ⟨isSecond, alpha⟩
    · omega
    · exact ⟨by omega, by omega, alpha⟩
  constructor
  · rintro still ⟨atEnd, alpha, other, m, rfl, unwritten⟩
    rw [written_iff] at still unwritten
    rcases still with early | ⟨k, i, before, found, writes⟩
    · exact unwritten (.inl early)
    · change (deliver (queues .alu2))[k]? = some i at found
      rw [getElem?_deliver] at found
      obtain ⟨j, there, rfl⟩ := Option.map_eq_some_iff.mp found
      by_cases retargeted : Retargeted (queues .alu2) k
      · rw [if_pos retargeted] at writes
        obtain ⟨half, kind⟩ :=
          Option.isSome_iff_exists.mp (arithmetic j (List.mem_of_getElem? there))
        rw [Instruction.destination_redirect kind] at writes
        exact other writes.symm
      · rw [if_neg retargeted] at writes
        have notSecond : k ≠ m := by
          rintro rfl
          exact retargeted (.inr ⟨by omega, alpha⟩)
        exact unwritten (.inr ⟨k, j, by omega, there, writes⟩)
  · intro safe
    rw [written_iff]
    -- a write that is left alone is still there
    have kept {m : Nat} {i : Instruction} (before : m < n) (there : (queues .alu2)[m]? = some i)
        (writes : i.destination = register) (alone : ¬ Retargeted (queues .alu2) m) :
        ∃ m i, m < n ∧ (deliver (queues .alu2))[m]? = some i ∧ i.destination = register :=
      ⟨m, i, before, by simp [getElem?_deliver, there, alone], writes⟩
    rcases written_iff.mp written with early | ⟨m, i, before, there, writes⟩
    · exact .inl early
    · by_cases retargeted : Retargeted (queues .alu2) m
      · obtain ⟨rfl, atEnd, alpha⟩ := changed before retargeted
        by_cases output : register = Code.outputRegister
        · obtain ⟨half, kind⟩ :=
            Option.isSome_iff_exists.mp (arithmetic i (List.mem_of_getElem? there))
          refine .inr ⟨m, i.redirect Code.outputRegister, before, ?_, ?_⟩
          · change (deliver (queues .alu2))[m]? = _
            simp [getElem?_deliver, there, retargeted]
          · rw [Instruction.destination_redirect kind, output]
        · -- something else has written the register, and that is left alone
          have earlier : Written queues m register :=
            Classical.byContradiction fun unwritten =>
              safe ⟨atEnd, alpha, output, m, rfl, unwritten⟩
          rcases written_iff.mp earlier with early | ⟨k, j, further, found, also⟩
          · exact .inl early
          · refine .inr (kept (by omega) found also fun retargeted => ?_)
            have second := (changed (by omega) retargeted).1
            omega
      · exact .inr (kept before there writes retargeted)

/-! ### Compiled programs -/

namespace Syntax

/-- Every contribution of a program is one of a statement that stands for itself. -/
theorem exists_simple_of_mem {legacy : Bool} {before ss : List Statement} {i : Issue}
    (member : i ∈ issuesBehind legacy before ss) :
    ∃ (s : Simple) (setting : Setting), i ∈ s.issues setting := by
  induction ss generalizing before with
  | nil => simp [issuesBehind] at member
  | cons s rest ih =>
    rw [issuesBehind, List.mem_append] at member
    rcases member with here | behind
    · cases s with
      | simple s => exact ⟨s, _, here⟩
      | composite s =>
        obtain ⟨simple, -, issued⟩ := List.mem_flatMap.mp here
        exact ⟨simple, _, issued⟩
    · exact ih behind

/-- The last queue holds arithmetic only. -/
theorem Shader.half?_queues (p : Shader) : ∀ i ∈ p.queues .alu2, i.half?.isSome = true := by
  intro i member
  obtain ⟨issue, issued, rfl⟩ := List.mem_map.mp member
  obtain ⟨issued, late⟩ := List.mem_filter.mp issued
  have late : issue.stage = .alu2 := by simpa using late
  obtain ⟨s, setting, issued⟩ := exists_simple_of_mem issued
  cases s with
  | define register | texture t | legacyTexture t | phaseMarker =>
    exact absurd late (stage_of_early (.inr (by intros; simp)) issued)
  | arithmetic t =>
    obtain ⟨instruction, own, rfl⟩ := List.mem_map.mp issued
    simp only [Arithmetic.instructions, List.mem_append] at own
    -- an arithmetic statement has a colour half and an alpha half
    rcases own with color | alpha
    · obtain ⟨-, rfl⟩ : _ ∧ instruction = t.color := by simpa using color
      simp [Arithmetic.color, Instruction.half?]
    · obtain ⟨-, rfl⟩ : _ ∧ instruction = t.alpha := by simpa using alpha
      simp [Arithmetic.alpha, Instruction.half?]

end Syntax

namespace Dialect

variable {c : Compiler} {source : String}

/-- The queues behind the last token are those of the program, and they supply every read of
the last one. -/
theorem scanned_queues (dialect : c.grammar = grammar)
    (accepted : (c.compile source).1 = .ok ()) {p : Shader}
    (represents : Represents (c.compile source).2.reading p) :
    ∃ a, c.scanned? source = some a ∧ a.schedule.Decodes p.queues ∧
      SecondPassSupplied p.queues := by
  obtain ⟨a, scanned, -, shows⟩ := compile_shows_log dialect accepted
  obtain ⟨located, log, issues, recorded, shown, -⟩ := shows p represents
  obtain ⟨queues, front, mixed, divided, early, noAlu⟩ :=
    Log.log_of_program represents.dialect issues recorded
  have supplied := (Log.supplied_nil.recordAll recorded).queues divided early noAlu
  rw [funext queues] at supplied
  refine ⟨a, scanned, ?_, supplied⟩
  rw [← funext queues]
  exact shown.decodes

end Dialect

namespace Compiler

/-- The source was read as a program of a dialect before ps.1.4. -/
def ReadsLegacy (c : Compiler) : Prop :=
  ∃ version ∈ [Symbol.ps11, .ps12, .ps13], c.tokenSymbols.head? = some version

instance (c : Compiler) : Decidable c.ReadsLegacy :=
  inferInstanceAs (Decidable (∃ version ∈ _, _))

theorem ReadsLegacy.isLegacy {c : Compiler} (reads : c.ReadsLegacy) {p : Shader}
    (represents : Dialect.Represents c.reading p) : p.isLegacy = true := by
  obtain ⟨version, legacy, first⟩ := reads
  have tokens := represents.tokens
  unfold tokenSymbols at first
  cases read : c.reading.tokens with
  | nil => simp [read] at first
  | cons token rest =>
    -- the first token is the program's version
    rw [read, Shader.leaves, List.map_cons, List.map_cons, List.cons.injEq] at tokens
    have named : token.id = p.version.symbol.id := congrArg Prod.fst tokens.1
    rw [read, List.filterMap_cons_some (by rw [named]; exact Symbol.ofId?_id _),
      List.head?_cons, Option.some.injEq] at first
    rw [Shader.isLegacy, first]
    revert legacy
    simp only [List.mem_cons, List.not_mem_nil, or_false]
    rintro (rfl | rfl | rfl) <;> decide

end Compiler

/-- How the queues at the end come from those behind the last token. -/
structure ResultDelivered (before after : Stage → List Instruction) : Prop where
  /-- Only the last queue is changed, and there the last two destinations at most. -/
  delivered : after = deliverLast before
  /-- The last write to `r0` becomes the result exactly if it stands where the compiler
  looks. -/
  result : ∀ half n, LastWrite (before .alu2) half Symbol.ps11R0.code n →
    (LastWrite (after .alu2) half Code.outputRegister n ↔ Delivers (before .alu2) half n)
  /-- Each temp register that is read has been written, unless it was taken away. -/
  reads : ∀ n i, (after .alu2)[n]? = some i → ∀ o ∈ i.operands, Code.isTemp o.register = true →
    (Written after n o.register ↔ ¬ TakenAway before n o.register)

theorem resultDelivered_deliverLast {queues : Stage → List Instruction}
    (arithmetic : ∀ i ∈ queues .alu2, i.half?.isSome = true)
    (supplied : SecondPassSupplied queues) : ResultDelivered queues (deliverLast queues) where
  delivered := rfl
  result half n last := lastWrite_deliver_iff (by decide) last
  reads n i found o reads temp := by
    change (deliver (queues .alu2))[n]? = some i at found
    rw [getElem?_deliver] at found
    obtain ⟨j, here, rfl⟩ := Option.map_eq_some_iff.mp found
    -- an instruction reads the same registers wherever it writes
    have own : o ∈ j.operands := by
      split at reads <;> simpa using reads
    exact written_deliverLast_iff (List.getElem?_eq_some_iff.mp here).1 arithmetic
      (supplied.written here own temp)

namespace Dialect

/-- A program of a dialect before ps.1.4 delivers its result as the positions of its last
instructions tell. -/
theorem compile_delivers_result (c : Compiler) (dialect : c.grammar = grammar) (source : String)
    (accepted : (c.compile source).1 = .ok ()) (legacy : (c.compile source).2.ReadsLegacy) :
    ∃ a before after, c.scanned? source = some a ∧ a.schedule.Decodes before ∧
      (c.compile source).2.schedule.Decodes after ∧ ResultDelivered before after := by
  obtain ⟨-, -, ⟨p, represents⟩, -⟩ := compile_shows_log dialect accepted
  obtain ⟨a, scanned, decoded, supplied⟩ := scanned_queues dialect accepted represents
  refine ⟨a, p.queues, deliverLast p.queues, scanned, decoded, ?_,
    resultDelivered_deliverLast p.half?_queues supplied⟩
  have delivered : p.delivered = deliverLast p.queues := by
    funext stage
    cases stage <;> simp [Shader.delivered, deliverLast, legacy.isLegacy represents]
  rw [← delivered]
  exact compile_decodes dialect accepted represents

/-! ### A result in two places -/

/-- The colour of the result is written first. What stands in front of the last instruction is
another colour, which the last instruction reads. -/
def dividedResult : Shader :=
  { version := .ps11
    definitions := []
    first :=
      { textures := [.legacy ⟨.tex, .ps11T0⟩]
        arithmetic :=
          [⟨none, .one, .mov, ⟨none, none, .ps11R0, none⟩,
              [plain (.temp ⟨.ps11T0, by decide⟩)], rfl⟩,
            ⟨none, .one, .mov, ⟨none, none, .ps11R1, some rgb⟩,
              [plain (.temp ⟨.ps11T0, by decide⟩)], rfl⟩,
            ⟨none, .one, .mov, ⟨none, none, .ps11R0, some ⟨.maskA, by decide⟩⟩,
              [plain (.temp .ps11R1)], rfl⟩] }
    second? := none }

def dividedResultText : String := "ps.1.1\ntex t0\nmov r0, t0\nmov r1.rgb, t0\nmov r0.a, r1\n"

private theorem compile_dividedResultText :
    let out := Compiler.standard.compile dividedResultText
    out.1 = .ok () ∧ out.2.reading.tokens.map Token.key = dividedResult.leaves.map Leaf.key ∧
      out.2.reading.contexts = dividedResult.finalContexts ∧
      out.2.reading.constants.length = dividedResult.leaves.countP (·.symbol == .value) ∧
      out.2.ReadsLegacy := by
  decide +kernel

private theorem represents_dividedResult :
    Represents (Compiler.standard.compile dividedResultText).2.reading dividedResult where
  tokens := compile_dividedResultText.2.1
  dialect := { first := by decide +kernel, second := by rintro block ⟨⟩ }
  contexts := compile_dividedResultText.2.2.1
  constants := compile_dividedResultText.2.2.2.1

theorem compile_delivers_dividedResult :
    (Compiler.standard.compile dividedResultText).1 = .ok () ∧
      (Compiler.standard.compile dividedResultText).2.ReadsLegacy ∧
      ∃ a before after, Compiler.standard.scanned? dividedResultText = some a ∧
        a.schedule.Decodes before ∧
        (Compiler.standard.compile dividedResultText).2.schedule.Decodes after ∧
        ResultDelivered before after := by
  have accepted := compile_dividedResultText.1
  have legacy := compile_dividedResultText.2.2.2.2
  exact ⟨accepted, legacy,
    compile_delivers_result _ Compiler.grammar_standard _ accepted legacy⟩

/-- The last write of each kind to `r0` does not always become the result, and not every
register that is read at the end has been written. -/
theorem result_not_always_delivered : ∃ source a before after,
    (Compiler.standard.compile source).1 = .ok () ∧
      (Compiler.standard.compile source).2.ReadsLegacy ∧
      Compiler.standard.scanned? source = some a ∧ a.schedule.Decodes before ∧
      (Compiler.standard.compile source).2.schedule.Decodes after ∧
      (¬ ∀ half n, LastWrite (before .alu2) half Symbol.ps11R0.code n →
        LastWrite (after .alu2) half Code.outputRegister n) ∧
      ¬ ∀ n i, (after .alu2)[n]? = some i → ∀ o ∈ i.operands,
        Code.isTemp o.register = true → Written after n o.register := by
  have accepted := compile_dividedResultText.1
  have represents := represents_dividedResult
  obtain ⟨a, scanned, decoded, -⟩ :=
    scanned_queues Compiler.grammar_standard accepted represents
  refine ⟨_, a, _, _, accepted, compile_dividedResultText.2.2.2.2, scanned, decoded,
    compile_decodes Compiler.grammar_standard accepted represents, ?_, ?_⟩
  · intro kept
    have color : LastWrite (dividedResult.queues .alu2) .color Symbol.ps11R0.code 0 := by decide
    have lost : ¬ LastWrite (dividedResult.delivered .alu2) .color Code.outputRegister 0 := by
      decide
    exact lost (kept _ _ color)
  · intro supplied
    have last : (dividedResult.delivered .alu2)[3]? = some (.alpha Symbol.mov.code
        ⟨Code.outputRegister, 0⟩ [⟨Symbol.ps11R1.code, 0, 0⟩]) := by decide
    have unwritten : ¬ Written dividedResult.delivered 3 Symbol.ps11R1.code := by decide
    exact unwritten (supplied _ _ last ⟨Symbol.ps11R1.code, 0, 0⟩
      (by simp [Instruction.operands]) (by decide))

end Dialect
end PixelAsm
