import PixelAsm.Proofs.Delivery
import PixelAsm.Proofs.Loadable

/-!
# What the output register is written over

Delivering the result writes words into a queue at offsets that the assembler has remembered
since it queued the records. Whatever the tokens and their codes were, these offsets are the
starts of the last two records, so that the words written over are destinations and nothing
else. Programs of ps.1.4 keep their queues as they are.
-/
namespace PixelAsm

/-! ### Words of a queue -/

namespace Queue

variable {q : Queue} {is js : List Instruction}

@[simp]
theorem width_cons (first : Instruction) (rest : List Instruction) :
    width (first :: rest) = first.words.length + width rest := by
  simp [width]

/-- The words of a record lie behind those of the records in front of it. -/
theorem Holds.getElem?_words (held : q.Holds is) {m k : Nat} {i : Instruction}
    (here : is[m]? = some i) (inside : k < i.words.length) :
    q.words[width (is.take m) + k]? = i.words[k]? := by
  obtain ⟨bound, rfl⟩ := List.getElem?_eq_some_iff.mp here
  have split : is = is.take m ++ is[m] :: is.drop (m + 1) := by simp
  rw [split] at held
  obtain ⟨before, behind, length, words, -⟩ := held.words_split
  rw [← Array.getElem?_toList, words, ← length, List.getElem?_append_right (Nat.le_add_right _ _),
    Nat.add_sub_cancel_left, List.getElem?_append_left inside]

/-- Every word belongs to a record. -/
theorem exists_record {n : Nat} (inside : n < width is) :
    ∃ m i k, is[m]? = some i ∧ k < i.words.length ∧ n = width (is.take m) + k := by
  induction is generalizing n with
  | nil => simp [width] at inside
  | cons first rest ih =>
    rw [width_cons] at inside
    by_cases own : n < first.words.length
    · exact ⟨0, first, n, rfl, own, by simp [width]⟩
    · obtain ⟨m, i, k, here, within, position⟩ := ih (n := n - first.words.length) (by omega)
      refine ⟨m + 1, i, k, here, within, ?_⟩
      rw [List.take_succ_cons, width_cons]
      omega

/-- The width depends on the lengths of the records alone. -/
theorem width_congr (same : is.map (·.words.length) = js.map (·.words.length)) :
    width is = width js := by
  induction is generalizing js with
  | nil =>
    rw [List.map_nil, eq_comm, List.map_eq_nil_iff] at same
    rw [same]
  | cons first rest ih =>
    cases js with
    | nil => simp at same
    | cons other more =>
      rw [List.map_cons, List.map_cons, List.cons.injEq] at same
      rw [width_cons, width_cons, same.1, ih same.2]

end Queue

/-! ### The destinations that are written over -/

/-- The word that holds the destination of the operation at a position. -/
def destinationWord (is : List Instruction) (m : Nat) : Nat := Queue.width (is.take m) + 2

/-- The queue `after` is the queue `before`, which holds operations, with the output register
written over the destinations of the last ones. -/
structure Overwritten (is : List Instruction) (before after : Queue) : Prop where
  operations : ∀ i ∈ is, i.half?.isSome = true
  delivered : after.records = (deliver is).map .ok
  size : after.words.size = before.words.size
  output : ∀ m, Retargeted is m → after.words[destinationWord is m]? = some Code.outputRegister
  others : ∀ n, (∀ m, Retargeted is m → n ≠ destinationWord is m) →
    after.words[n]? = before.words[n]?

theorem Instruction.words_redirect_of_half? {i : Instruction} (tagged : i.tag?.isSome = true)
    (operation : i.half?.isSome = true) (register : UInt32) :
    2 < i.words.length ∧ (i.redirect register).words = i.words.set 2 register := by
  obtain ⟨tag, known⟩ := Option.isSome_iff_exists.mp tagged
  apply words_redirect known
  cases i with
  | color code target operands | alpha code target operands =>
    obtain ⟨arity, -, rfl⟩ := Option.map_eq_some_iff.mp known
    rfl
  | setConstants register index | passTexCoord register coordinate swizzle
  | sampleMap register interpolator swizzle => simp [half?] at operation

/-- Delivering the result moves no record. -/
theorem width_take_deliver {is : List Instruction}
    (each : ∀ i ∈ is, i.tag?.isSome = true ∧ i.half?.isSome = true) (m : Nat) :
    Queue.width ((deliver is).take m) = Queue.width (is.take m) := by
  apply Queue.width_congr
  rw [List.map_take, List.map_take]
  congr 1
  apply List.ext_getElem?
  intro n
  rw [List.getElem?_map, List.getElem?_map, getElem?_deliver, Option.map_map]
  apply Option.map_congr
  intro i here
  obtain ⟨tagged, operation⟩ := each i (List.mem_of_getElem? here)
  obtain ⟨-, redirected⟩ := i.words_redirect_of_half? tagged operation Code.outputRegister
  by_cases changed : Retargeted is n
  · simp [changed, redirected]
  · simp [changed]

/-- Two queues that hold the instructions before and after the result is delivered differ in
destinations only. -/
theorem overwritten_of_holds {is : List Instruction} {before after : Queue}
    (operations : ∀ i ∈ is, i.half?.isSome = true) (held : before.Holds is)
    (delivered : after.Holds (deliver is)) : Overwritten is before after := by
  have each : ∀ i ∈ is, i.tag?.isSome = true ∧ i.half?.isSome = true :=
    fun i member => ⟨held.1 i member, operations i member⟩
  -- a record that is changed differs in its third word from the one that was there
  have changed {m : Nat} {i : Instruction} (here : is[m]? = some i) (retargeted : Retargeted is m) :
      2 < i.words.length ∧ ∀ k < i.words.length,
        after.words[Queue.width (is.take m) + k]? = (i.words.set 2 Code.outputRegister)[k]? := by
    obtain ⟨tagged, operation⟩ := each i (List.mem_of_getElem? here)
    obtain ⟨long, redirected⟩ := i.words_redirect_of_half? tagged operation Code.outputRegister
    refine ⟨long, fun k inside => ?_⟩
    have there : (deliver is)[m]? = some (i.redirect Code.outputRegister) := by
      rw [getElem?_deliver, here, Option.map_some, if_pos retargeted]
    rw [← width_take_deliver each, ← redirected]
    apply delivered.getElem?_words there
    rw [redirected, List.length_set]
    exact inside
  have widths : after.words.size = before.words.size := by
    have all := width_take_deliver each is.length
    rw [List.take_of_length_le (Nat.le_of_eq (length_deliver is)), List.take_length] at all
    rw [delivered.size, held.size, all]
  refine ⟨operations, delivered.records, widths, fun m retargeted => ?_, fun n elsewhere => ?_⟩
  · have bound : m < is.length := by
      rcases retargeted with isLast | ⟨isSecond, -⟩ <;> omega
    obtain ⟨long, words⟩ := changed (List.getElem?_eq_getElem bound) retargeted
    rw [destinationWord, words 2 long, List.getElem?_set_self long]
  · by_cases inside : n < Queue.width is
    · obtain ⟨m, i, k, here, within, rfl⟩ := Queue.exists_record inside
      by_cases retargeted : Retargeted is m
      · have other : 2 ≠ k := by
          rintro rfl
          exact elsewhere m retargeted rfl
        rw [(changed here retargeted).2 k within, List.getElem?_set_ne other,
          held.getElem?_words here within]
      · have there : (deliver is)[m]? = some i := by
          rw [getElem?_deliver, here, Option.map_some, if_neg retargeted]
        rw [held.getElem?_words here within, ← width_take_deliver each,
          delivered.getElem?_words there within]
    · have past : before.words.size ≤ n := by
        rw [held.size]
        omega
      rw [Array.getElem?_eq_none past, Array.getElem?_eq_none (widths ▸ past)]

/-! ### Assembling -/

namespace Assembler

/-- Tokens do not change which family of dialects the program belongs to. -/
theorem legacy_invariant (pool : Nat) (legacy : Bool) :
    QueueInvariant pool fun a => a.poolSize = pool ∧ a.legacy = legacy where
  beside := And.left
  same := by
    rintro a b ⟨size, family⟩ same
    exact ⟨same.poolSize.trans size, same.legacy.trans family⟩
  routed := by
    rintro a register ⟨size, family⟩
    exact ⟨(a.poolSize_route register).trans size,
      (congrArg Control.legacy (a.control_route register)).trans family⟩
  queued := by
    rintro a stage i record ⟨size, family⟩ - -
    exact ⟨(a.poolSize_enqueue stage i record).trans size,
      (congrArg Control.legacy (a.control_queued ..)).trans family⟩

/-- What a scan has queued in the last stage are operations. -/
theorem half?_of_suits {pool : Nat} {i : Instruction} (suits : i.Suits pool .alu2) :
    i.half?.isSome = true := by
  cases i with
  | color operation target operands | alpha operation target operands => rfl
  | setConstants register index => cases suits.1
  | passTexCoord register coordinate swizzle | sampleMap register interpolator swizzle =>
    cases suits

/-- Any tokens that are accepted leave operations in the last queue and the offsets of the last
two of them behind, and the family of dialects is that of the reading. -/
theorem scan_leaves {codeOf : SymbolId → UInt32} {depth : Nat} {r : Reading} {a : Assembler}
    (scanned : Assembly.scan codeOf depth r.tokens (start r) = .ok () a) :
    ∃ is, a.Tracks is ∧ (∀ i ∈ is, i.half?.isSome = true) ∧ a.legacy = (start r).legacy := by
  obtain ⟨is, tracked⟩ := scan_tracks scanned
  have suited := Assembly.scan_keeps (suited_invariant r.constants.length) codeOf depth r.tokens
    (start r) ⟨rfl, Schedule.suited_empty _⟩
  have family := Assembly.scan_keeps (legacy_invariant r.constants.length (start r).legacy) codeOf
    depth r.tokens (start r) ⟨rfl, rfl⟩
  rw [scanned] at suited family
  refine ⟨is, tracked, fun i member => ?_, family.2⟩
  obtain ⟨js, held, each⟩ := suited.2 .alu2
  obtain rfl : is = js := tracked.held.instructions.symm.trans held.instructions
  exact half?_of_suits (each i member)

theorem retarget_of_empty {a : Assembler} (tracked : a.Tracks []) : a.retarget = a := by
  unfold retarget
  rw [tracked.last]
  rfl

/-- Whatever is assembled, the queues at the end are those that the tokens have led to, except
that a program before ps.1.4 has the output register written over its last destinations. -/
theorem assemble_overwrites (g : Grammar) (r : Reading) (before b : Assembler)
    (assembled : assemble g r before = .ok () b) :
    ∃ a is, Assembly.scan g.code templateDepth r.tokens (start r) = .ok () a ∧
      a.schedule.alu2.records = is.map .ok ∧
      (r.contexts &&& Context.ps11 = 0 → b.schedule = a.schedule) ∧
      (r.contexts &&& Context.ps11 ≠ 0 →
        (∀ stage, stage ≠ .alu2 → b.schedule.get stage = a.schedule.get stage) ∧
          Overwritten is a.schedule.alu2 b.schedule.alu2 ∧
          (is = [] → b.schedule = a.schedule)) := by
  rw [assemble_apply] at assembled
  cases scanned : Assembly.scan g.code templateDepth r.tokens (start r) with
  | error fault a =>
    rw [scanned] at assembled
    cases assembled
  | ok value a =>
    rw [scanned] at assembled
    cases assembled
    obtain ⟨is, tracked, operations, family⟩ := scan_leaves scanned
    refine ⟨a, is, rfl, tracked.held.records, fun current => ?_, fun older => ?_⟩
    · have kept : a.legacy = false := by simp [family, start, prepare, current]
      simp [kept]
    · have changed : a.legacy = true := by simp [family, start, prepare, older]
      simp only [changed, if_true]
      refine ⟨fun stage other => a.get_retarget other,
        overwritten_of_holds operations tracked.held tracked.retarget, ?_⟩
      rintro rfl
      rw [retarget_of_empty tracked]

/-- A matrix row behind a phase marker, which no dialect allows, in front of a move. -/
def markedRow : Reading :=
  { tokens := List.map (fun (symbol, rule) => { id := Symbol.id symbol, rule := Symbol.id rule })
      [(.tex, .texOpPs11), (.ps11T0, .texRegPs11), (.phase, .phaseMarker),
        (.texm3x2pad, .texCiscOp), (.ps11T1, .texRegPs11), (.comma, .separator),
        (.ps11T0, .texRegPs11), (.mov, .unaryOp), (.ps11R0, .tempReg), (.comma, .separator),
        (.ps11T0, .tempReg)]
    contexts := Context.ps11 }

/-- Both halves of the move are changed, and the row in front of them is not. -/
private theorem assemble_markedRow : ∃ b, assemble Dialect.linked markedRow {} = .ok () b ∧
    b.schedule.alu2.instructions.map (·.destination) = [Code.r5, Code.r0, Code.r0] := by
  have ran : EStateM.run' (do
      (fun _ => assemble Dialect.linked markedRow {} : Assembly Unit)
      return (← get).schedule.alu2.instructions.map (·.destination)) {} =
        some [Code.r5, Code.r0, Code.r0] := by
    decide +kernel
  cases assembled : assemble Dialect.linked markedRow {} with
  | ok value b =>
    rw [assembled] at ran
    exact ⟨b, rfl, Option.some.inj ran⟩
  | error fault b =>
    rw [assembled] at ran
    cases ran

theorem assemble_overwrites_markedRow :
    ∃ b, assemble Dialect.linked markedRow {} = .ok () b ∧
      b.schedule.alu2.instructions.map (·.destination) = [Code.r5, Code.r0, Code.r0] ∧
      markedRow.contexts &&& Context.ps11 ≠ 0 ∧
      ∃ a is, Assembly.scan Dialect.linked.code templateDepth markedRow.tokens (start markedRow) =
          .ok () a ∧
        a.schedule.alu2.records = is.map .ok ∧
        (∀ stage, stage ≠ .alu2 → b.schedule.get stage = a.schedule.get stage) ∧
        Overwritten is a.schedule.alu2 b.schedule.alu2 := by
  obtain ⟨b, assembled, destinations⟩ := assemble_markedRow
  have older : markedRow.contexts &&& Context.ps11 ≠ 0 := by decide
  obtain ⟨a, is, scanned, committed, -, changed⟩ := assemble_overwrites _ _ _ b assembled
  obtain ⟨unchanged, overwritten, -⟩ := changed older
  exact ⟨b, assembled, destinations, older, a, is, scanned, committed, unchanged, overwritten⟩

end Assembler
end PixelAsm
