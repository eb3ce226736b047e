import PixelAsm.Proofs.Invariants
import PixelAsm.Proofs.IssueLog

/-!
# The output register

The assembler remembers where the last two records of the second arithmetic queue start.
Writing the output register over a word of these records is the same as giving the last
instructions of the queue another destination, and leaves every other instruction alone.
-/
namespace PixelAsm

namespace Instruction

/-- The operation with another destination. Other instructions keep theirs. -/
def redirect (register : UInt32) : Instruction → Instruction
  | color operation target operands => .color operation { target with register } operands
  | alpha operation target operands => .alpha operation { target with register } operands
  | other => other

def isAlpha : Instruction → Bool
  | alpha _ _ _ => true
  | _ => false

@[simp]
theorem tag?_redirect (register : UInt32) (i : Instruction) :
    (i.redirect register).tag? = i.tag? := by
  cases i <;> rfl

theorem isAlpha_of_tag? {i : Instruction} {tag : Tag} (tagged : i.tag? = some tag) :
    tag.isAlpha = i.isAlpha := by
  cases i with
  | color operation target operands | alpha operation target operands =>
    obtain ⟨arity, -, rfl⟩ := Option.map_eq_some_iff.mp tagged
    rfl
  | setConstants register index | passTexCoord register coordinate swizzle
  | sampleMap register interpolator swizzle => cases tagged; rfl

/-- The destination of an operation is the third word of its record. -/
theorem words_redirect {i : Instruction} {tag : Tag} (tagged : i.tag? = some tag)
    (isAlu : tag.isAlu = true) (register : UInt32) :
    2 < i.words.length ∧ (i.redirect register).words = i.words.set 2 register := by
  have after := words_of_tag? ((tag?_redirect register i).trans tagged)
  rw [words_of_tag? tagged, after]
  cases i with
  | color operation target operands | alpha operation target operands => simp [fields, redirect]
  | setConstants register index | passTexCoord register coordinate swizzle
  | sampleMap register interpolator swizzle => cases tagged; cases isAlu

theorem redirect_of_not_isAlu {i : Instruction} {tag : Tag} (tagged : i.tag? = some tag)
    (other : tag.isAlu = false) (register : UInt32) : i.redirect register = i := by
  cases i with
  | color operation target operands | alpha operation target operands =>
    obtain ⟨arity, -, rfl⟩ := Option.map_eq_some_iff.mp tagged
    cases other
  | setConstants register index | passTexCoord register coordinate swizzle
  | sampleMap register interpolator swizzle => rfl

end Instruction

/-! ### Records in place -/

namespace Queue

/-- The number of words in front of a record behind these instructions. -/
def width (is : List Instruction) : Nat := (is.flatMap (·.words)).length

variable {q : Queue} {front back : List Instruction} {i : Instruction}

theorem Holds.size {is : List Instruction} (held : q.Holds is) : q.words.size = width is := by
  rw [width, ← held.2, Array.length_toList]

/-- A record lies behind the words in front of it. -/
theorem Holds.words_split (held : q.Holds (front ++ i :: back)) :
    ∃ before behind, before.length = width front ∧ q.words.toList = before ++ (i.words ++ behind) ∧
      ∀ j : Instruction,
        (front ++ j :: back).flatMap (·.words) = before ++ (j.words ++ behind) := by
  refine ⟨_, back.flatMap (·.words), rfl, ?_, fun j => by simp⟩
  rw [held.2]
  simp

theorem Holds.tagAt? (held : q.Holds (front ++ i :: back)) : q.tagAt? (width front) = i.tag? := by
  obtain ⟨tag, tagged⟩ := Option.isSome_iff_exists.mp (held.1 i (by simp))
  obtain ⟨before, behind, length, words, -⟩ := held.words_split
  have word : q.words[width front]? = some tag.word := by
    rw [← Array.getElem?_toList, words, ← length, Instruction.words_of_tag? tagged]
    simp
  rw [Queue.tagAt?, word, tagged]
  exact Tag.ofWord?_word tag

/-- Writing over the destination of a record in the queue redirects its instruction. -/
theorem Holds.setDestination (held : q.Holds (front ++ i :: back)) (register : UInt32) :
    ((q.setDestination? (width front) register).getD q).Holds
      (front ++ i.redirect register :: back) := by
  obtain ⟨tag, tagged⟩ := Option.isSome_iff_exists.mp (held.1 i (by simp))
  simp only [setDestination?, held.tagAt?, tagged]
  -- only operations have a destination that can be changed
  cases isAlu : tag.isAlu with
  | false =>
    rw [Instruction.redirect_of_not_isAlu tagged isAlu]
    exact held
  | true =>
    obtain ⟨long, redirected⟩ := Instruction.words_redirect tagged isAlu register
    obtain ⟨before, behind, length, words, others⟩ := held.words_split
    -- the third word of the record lies inside the queue
    have inside : before.length + 2 < q.words.size := by
      rw [← Array.length_toList, words, List.length_append, List.length_append]
      omega
    rw [← length]
    simp only [inside, decide_true, Bool.and_self, if_true, Option.getD_some]
    constructor
    · intro j member
      rcases List.mem_append.mp member with before | here
      · exact held.1 j (by simp [before])
      · rcases List.mem_cons.mp here with rfl | behind
        · simp [tagged]
        · exact held.1 j (by simp [behind])
    -- neither the words in front nor those behind are touched
    · have shifted : before.length + 2 - before.length = 2 := by omega
      rw [Array.toList_setIfInBounds, words, others, redirected,
        List.set_append_right _ _ (Nat.le_add_right _ _), shifted, List.set_append_left _ _ long]

end Queue

/-! ### The last records -/

namespace Assembler

/-- Where the last of these instructions is recorded. -/
def lastOffset? (is : List Instruction) : Option Nat :=
  is.getLast?.map fun _ => Queue.width is.dropLast

@[simp]
theorem lastOffset?_concat (front : List Instruction) (last : Instruction) :
    lastOffset? (front ++ [last]) = some (Queue.width front) := by
  simp [lastOffset?]

/-- The last arithmetic queue holds these instructions, and the assembler remembers where the
last two of them are. -/
structure Tracks (a : Assembler) (is : List Instruction) : Prop where
  held : a.schedule.alu2.Holds is
  last : a.lastAlu? = lastOffset? is
  secondLast : a.secondLastAlu? = lastOffset? is.dropLast

private theorem lastAlu?_noteWrite (a : Assembler) (stage : Stage) (register : UInt32) :
    (a.noteWrite stage register).lastAlu? = a.lastAlu? ∧
      (a.noteWrite stage register).secondLastAlu? = a.secondLastAlu? := by
  unfold noteWrite
  split
  · exact ⟨rfl, rfl⟩
  · split <;> exact ⟨rfl, rfl⟩

private theorem Tracks.noteWrite {a : Assembler} {is : List Instruction} (tracked : a.Tracks is)
    (stage : Stage) (register : UInt32) : (a.noteWrite stage register).Tracks is := by
  obtain ⟨last, secondLast⟩ := a.lastAlu?_noteWrite stage register
  exact ⟨by rw [schedule_noteWrite]; exact tracked.held, last.trans tracked.last,
    secondLast.trans tracked.secondLast⟩

/-- Queueing in the last stage moves both offsets on; queueing elsewhere moves neither. -/
theorem Tracks.enqueue {a : Assembler} {is : List Instruction} (tracked : a.Tracks is)
    (stage : Stage) {i : Instruction} {record : List UInt32} (recorded : i.record? = some record) :
    (a.enqueue stage i record).Tracks (if stage = .alu2 then is ++ [i] else is) := by
  apply Tracks.noteWrite
  cases stage with
  | texture1 | alu1 | texture2 => exact ⟨tracked.held, tracked.last, tracked.secondLast⟩
  | alu2 =>
    -- the new record starts where the queue ended, and the last one becomes the second last
    refine ⟨tracked.held.append recorded, ?_, ?_⟩
    · rw [if_pos rfl, lastOffset?_concat, ← tracked.held.size]
      rfl
    · rw [if_pos rfl, List.dropLast_concat, ← tracked.last]
      rfl

theorem tracks_invariant (pool : Nat) :
    QueueInvariant pool fun a => a.poolSize = pool ∧ ∃ is, a.Tracks is where
  beside := And.left
  same := by
    rintro a b ⟨size, is, tracked⟩ same
    refine ⟨same.poolSize.trans size, is, by rw [same.schedule]; exact tracked.held, ?_, ?_⟩
    · exact same.lastAlu?.trans tracked.last
    · exact same.secondLastAlu?.trans tracked.secondLast
  routed := by
    rintro a register ⟨size, is, tracked⟩
    refine ⟨(a.poolSize_route register).trans size, is, Tracks.noteWrite ?_ .texture2 register⟩
    exact ⟨tracked.held, tracked.last, tracked.secondLast⟩
  queued := by
    rintro a stage i record ⟨size, is, tracked⟩ recorded -
    exact ⟨(a.poolSize_enqueue stage i record).trans size, _, tracked.enqueue stage recorded⟩

/-! ### Delivering the result -/

end Assembler

/-- The instructions with their result in the output register: the last one writes it, and
if that is an alpha operation then the one before it does, too. -/
def deliver : List Instruction → List Instruction
  | [] => []
  | [last] => [last.redirect Code.outputRegister]
  | [second, last] =>
    [if last.isAlpha then second.redirect Code.outputRegister else second,
      last.redirect Code.outputRegister]
  | first :: rest => first :: deliver rest

theorem deliver_append_pair (front : List Instruction) (second last : Instruction) :
    deliver (front ++ [second, last]) =
      front ++ [if last.isAlpha then second.redirect Code.outputRegister else second,
        last.redirect Code.outputRegister] := by
  induction front with
  | nil => rfl
  | cons first rest ih =>
    cases rest with
    | nil => rfl
    | cons next more =>
      have skip : deliver (first :: next :: more ++ [second, last]) =
          first :: deliver (next :: more ++ [second, last]) := by
        cases more <;> rfl
      rw [skip, ih]
      rfl

/-- Nothing but destinations is changed. -/
theorem mem_deliver {is : List Instruction} {i : Instruction} (member : i ∈ deliver is) :
    ∃ j ∈ is, i = j ∨ i = j.redirect Code.outputRegister := by
  rcases List.eq_nil_or_concat is with rfl | ⟨front, last, rfl⟩
  · cases member
  · rw [List.concat_eq_append] at member ⊢
    rcases List.eq_nil_or_concat front with rfl | ⟨before, second, rfl⟩
    · exact ⟨last, by simp, .inr (List.mem_singleton.mp member)⟩
    · rw [List.concat_eq_append, List.append_assoc, List.singleton_append,
        deliver_append_pair] at member
      -- the two last instructions are the only ones that may differ
      simp only [List.mem_append, List.mem_cons, List.not_mem_nil, or_false] at member
      rcases member with unchanged | rfl | rfl
      · exact ⟨i, by simp [unchanged], .inl rfl⟩
      · refine ⟨second, by simp, ?_⟩
        cases last.isAlpha <;> simp
      · exact ⟨last, by simp, .inr rfl⟩

namespace Assembler

theorem alu2_setAluDestination (a : Assembler) (offset : Nat) (register : UInt32) :
    (a.setAluDestination offset register).schedule.alu2 =
      (a.schedule.alu2.setDestination? offset register).getD a.schedule.alu2 := by
  unfold setAluDestination
  split <;> simp_all

theorem get_setAluDestination (a : Assembler) (offset : Nat) (register : UInt32) {stage : Stage}
    (other : stage ≠ .alu2) :
    (a.setAluDestination offset register).schedule.get stage = a.schedule.get stage := by
  unfold setAluDestination
  split
  · cases stage with
    | texture1 | alu1 | texture2 => rfl
    | alu2 => exact absurd rfl other
  · rfl

/-- The other queues are left alone. -/
theorem get_retarget (a : Assembler) {stage : Stage} (other : stage ≠ .alu2) :
    a.retarget.schedule.get stage = a.schedule.get stage := by
  unfold retarget
  split
  · rfl
  · dsimp only
    split <;> simp only [get_setAluDestination _ _ _ other]

/-- The first step of retargeting: the last instruction is redirected, and its tag tells
whether it is an alpha operation. -/
private theorem Tracks.redirect_last {a : Assembler} {front : List Instruction}
    {last : Instruction} (tracked : a.Tracks (front ++ [last])) :
    let next := a.setAluDestination (Queue.width front) Code.outputRegister
    next.schedule.alu2.Holds (front ++ [last.redirect Code.outputRegister]) ∧
      (next.schedule.alu2.tagAt? (Queue.width front)).any Tag.isAlpha = last.isAlpha := by
  have redirected := tracked.held.setDestination Code.outputRegister
  rw [← alu2_setAluDestination] at redirected
  obtain ⟨tag, tagged⟩ := Option.isSome_iff_exists.mp (tracked.held.1 last (by simp))
  refine ⟨redirected, ?_⟩
  rw [redirected.tagAt?, Instruction.tag?_redirect, tagged]
  exact Instruction.isAlpha_of_tag? tagged

/-- Retargeting redirects the last instructions of the last queue. -/
theorem Tracks.retarget {a : Assembler} {is : List Instruction} (tracked : a.Tracks is) :
    a.retarget.schedule.alu2.Holds (deliver is) := by
  unfold Assembler.retarget
  rcases List.eq_nil_or_concat is with rfl | ⟨front, last, rfl⟩
  · rw [tracked.last]
    exact tracked.held
  · rw [List.concat_eq_append] at tracked ⊢
    -- the tag is read after the change, which does not affect it
    obtain ⟨redirected, isAlpha⟩ := tracked.redirect_last
    have secondLast := tracked.secondLast
    rw [List.dropLast_concat] at secondLast
    simp only [tracked.last, lastOffset?_concat, isAlpha, secondLast]
    rcases List.eq_nil_or_concat front with rfl | ⟨before, second, rfl⟩
    · -- a single instruction has none before it
      cases last.isAlpha <;> exact redirected
    · rw [List.concat_eq_append] at redirected ⊢
      rw [List.append_assoc, List.singleton_append, deliver_append_pair]
      rw [List.append_assoc, List.singleton_append] at redirected
      simp only [lastOffset?_concat]
      cases last.isAlpha with
      | false => exact redirected
      | true =>
        have both := redirected.setDestination Code.outputRegister
        rw [← alu2_setAluDestination] at both
        exact both

/-- Any tokens that are accepted leave the offsets of the last two records behind. -/
theorem scan_tracks {codeOf : SymbolId → UInt32} {depth : Nat} {r : Reading} {a : Assembler}
    (scanned : Assembly.scan codeOf depth r.tokens (start r) = .ok () a) : ∃ is, a.Tracks is := by
  have empty : (start r).Tracks [] := ⟨Queue.holds_empty, rfl, rfl⟩
  have kept := Assembly.scan_keeps (tracks_invariant r.constants.length) codeOf depth r.tokens
    (start r) ⟨rfl, [], empty⟩
  rw [scanned] at kept
  exact kept.2

end Assembler
end PixelAsm
