import PixelAsm.Proofs.Retargeting
import PixelAsm.Proofs.RoundTrip

/-!
# Offsets as handles

Pushing an instruction gives the offset of its record, and the destination can later be changed at
that offset in place. The queue is a flat stream of words in which a field may look like a tag, so
it is not obvious that an old offset still leads to its record and that a change touches nothing
else. We compare the queue with a ledger, a plain list of the instructions that were pushed with
the offsets that were given for them, under every sequence of requests.
-/
namespace PixelAsm

open Instruction

namespace Queue

/-! ### Requests to a queue -/

inductive Request where
  | push (instruction : Instruction)
  | clear
  | setDestination (offset : Nat) (register : UInt32)
  deriving DecidableEq, Repr

inductive Answer where
  | pushed (offset? : Option Nat)
  | cleared
  | changed (done : Bool)
  deriving DecidableEq, Repr

/-- What a queue answers to a request, and what it is afterwards. -/
def execute (q : Queue) : Request → Answer × Queue
  | .push instruction =>
    match q.push? instruction with
    | some (offset, next) => (.pushed (some offset), next)
    | none => (.pushed none, q)
  | .clear => (.cleared, empty)
  | .setDestination offset register =>
    match q.setDestination? offset register with
    | some next => (.changed true, next)
    | none => (.changed false, q)

/-- The offsets that a client holds after an answer. Those from before a clear are void. -/
def handlesAfter (handles : List Nat) : Request → Answer → List Nat
  | .push _, .pushed (some offset) => offset :: handles
  | .clear, _ => []
  | _, _ => handles

/-- A request uses no offset but those that the client holds. -/
def Request.Uses (handles : List Nat) : Request → Prop
  | .setDestination offset _ => offset ∈ handles
  | .push _ | .clear => True

instance (handles : List Nat) : (request : Request) → Decidable (request.Uses handles)
  | .setDestination offset _ => inferInstanceAs (Decidable (offset ∈ handles))
  | .push _ | .clear => inferInstanceAs (Decidable True)

/-- So do all requests of a sequence, where the client takes over the offsets it is given. -/
def UsesHandles : Queue → List Nat → List Request → Prop
  | _, _, [] => True
  | q, handles, request :: rest =>
    request.Uses handles ∧
      UsesHandles (q.execute request).2 (handlesAfter handles request (q.execute request).1) rest

instance decidableUsesHandles :
    (q : Queue) → (handles : List Nat) → (requests : List Request) →
      Decidable (q.UsesHandles handles requests)
  | _, _, [] => inferInstanceAs (Decidable True)
  | q, handles, request :: rest =>
    have := decidableUsesHandles (q.execute request).2
      (handlesAfter handles request (q.execute request).1) rest
    inferInstanceAs (Decidable (_ ∧ _))

/-! ### Ledgers -/

/-- Instructions with the offsets that were given for them, in the order in which they were
pushed. -/
abbrev Ledger := List (Nat × Instruction)

/-- What a request does to a ledger, and the answer to it. -/
inductive Ledger.Step : Ledger → Request → Answer → Ledger → Prop
  | push {ledger : Ledger} {offset : Nat} {i : Instruction} (legal : i.HasArity)
      (fresh : offset ∉ ledger.map (·.1)) :
      Step ledger (.push i) (.pushed (some offset)) (ledger ++ [(offset, i)])
  | refuse {ledger : Ledger} {i : Instruction} (illegal : ¬ i.HasArity) :
      Step ledger (.push i) (.pushed none) ledger
  | clear {ledger : Ledger} : Step ledger .clear .cleared []
  | change {front back : Ledger} {offset : Nat} {i : Instruction} {register : UInt32}
      (operation : i.isAlu = true) :
      Step (front ++ (offset, i) :: back) (.setDestination offset register) (.changed true)
        (front ++ (offset, i.redirect register) :: back)
  | keep {ledger : Ledger} {offset : Nat} {i : Instruction} {register : UInt32}
      (member : (offset, i) ∈ ledger) (other : i.isAlu = false) :
      Step ledger (.setDestination offset register) (.changed false) ledger

/-- The queue is made of the records of the ledger's instructions, reads back as these with no
malformed record, and has their tags at their offsets. -/
structure Reads (q : Queue) (ledger : Ledger) : Prop where
  words : q.words.toList = ledger.flatMap (·.2.words)
  records : q.records = ledger.map fun entry => .ok entry.2
  instructions : q.instructions = ledger.map (·.2)
  tags : ∀ entry ∈ ledger, q.tagAt? entry.1 = entry.2.tag?

/-- To each request in turn the queue answers as the ledger does, and it reads back as the ledger
before the first request and after every one. -/
inductive Refines : Queue → Ledger → List Request → Prop
  | done {q : Queue} {ledger : Ledger} (reads : q.Reads ledger) : Refines q ledger []
  | step {q : Queue} {ledger next : Ledger} {request : Request} {rest : List Request}
      (reads : q.Reads ledger) (answered : ledger.Step request (q.execute request).1 next)
      (behind : Refines (q.execute request).2 next rest) : Refines q ledger (request :: rest)

/-! ### Offsets in a ledger -/

theorem recordLengths_append (front back : List Instruction) :
    recordLengths (front ++ back) = recordLengths front + recordLengths back := by
  simp [← length_flatMap_words]

/-- Each entry stands where the records before it end, the first one at `start`. -/
def Ledger.Placed : Nat → Ledger → Prop
  | _, [] => True
  | start, entry :: rest => entry.1 = start ∧ Placed (start + entry.2.recordLength) rest

namespace Ledger.Placed

variable {start : Nat} {ledger front back : Ledger} {offset : Nat} {i : Instruction}

theorem concat (placed : Placed start ledger) (i : Instruction) :
    Placed start (ledger ++ [(start + recordLengths (ledger.map (·.2)), i)]) := by
  induction ledger generalizing start with
  | nil => exact ⟨rfl, trivial⟩
  | cons first rest ih =>
    refine ⟨placed.1, ?_⟩
    have behind := ih placed.2
    rwa [Nat.add_assoc] at behind

theorem offset_eq (placed : Placed start (front ++ (offset, i) :: back)) :
    offset = start + recordLengths (front.map (·.2)) := by
  induction front generalizing start with
  | nil => exact placed.1
  | cons first rest ih =>
    have behind := ih placed.2
    rwa [Nat.add_assoc] at behind

/-- An entry can be replaced by one with a record of the same length. -/
theorem replace {j : Instruction} (same : j.recordLength = i.recordLength)
    (placed : Placed start (front ++ (offset, i) :: back)) :
    Placed start (front ++ (offset, j) :: back) := by
  induction front generalizing start with
  | nil => exact ⟨placed.1, by rw [same]; exact placed.2⟩
  | cons first rest ih => exact ⟨placed.1, ih placed.2⟩

/-- Records have words, so an offset behind them all is new. -/
theorem fresh (placed : Placed start ledger) (words : ∀ entry ∈ ledger, 0 < entry.2.recordLength) :
    start + recordLengths (ledger.map (·.2)) ∉ ledger.map (·.1) := by
  intro old
  obtain ⟨⟨offset, i⟩, member, same⟩ := List.mem_map.mp old
  have some : 0 < i.recordLength := words _ member
  obtain ⟨front, back, rfl⟩ := List.append_of_mem member
  have before := placed.offset_eq
  simp only [List.map_append, List.map_cons, recordLengths_append, recordLengths] at same
  omega

end Ledger.Placed

/-! ### Queues with a ledger -/

theorem isAlu_of_tag? {i : Instruction} {tag : Tag} (tagged : i.tag? = some tag) :
    tag.isAlu = i.isAlu := by
  cases i with
  | color operation target operands | alpha operation target operands =>
    obtain ⟨arity, -, rfl⟩ := Option.map_eq_some_iff.mp tagged
    rfl
  | setConstants register index | passTexCoord register coordinate swizzle
  | sampleMap register interpolator swizzle => cases tagged; rfl

/-- At the start of a record, a destination can be changed exactly if it is that of an
operation. -/
theorem Holds.isSome_setDestination? {q : Queue} {front back : List Instruction} {i : Instruction}
    (held : q.Holds (front ++ i :: back)) (register : UInt32) :
    (q.setDestination? (width front) register).isSome = i.isAlu := by
  obtain ⟨tag, tagged⟩ := Option.isSome_iff_exists.mp (held.1 i (by simp))
  rw [← isAlu_of_tag? tagged]
  simp only [setDestination?, held.tagAt?, tagged]
  cases operation : tag.isAlu with
  | false => rfl
  | true =>
    -- an operation has a third word, and it lies inside the queue
    obtain ⟨long, -⟩ := words_redirect tagged operation register
    obtain ⟨before, behind, length, words, -⟩ := held.words_split
    have inside : width front + 2 < q.words.size := by
      rw [← Array.length_toList, words, List.length_append, List.length_append]
      omega
    simp [inside]

/-- The queue is the records of the ledger, and the ledger knows where they start. -/
structure Accounts (q : Queue) (ledger : Ledger) : Prop where
  held : q.Holds (ledger.map (·.2))
  placed : ledger.Placed 0

theorem accounts_empty : empty.Accounts [] := ⟨holds_empty, trivial⟩

namespace Accounts

variable {q : Queue} {ledger front back : Ledger} {offset : Nat} {i : Instruction}

theorem size (accounts : q.Accounts ledger) :
    q.words.size = 0 + recordLengths (ledger.map (·.2)) := by
  rw [Nat.zero_add, ← length_flatMap_words, ← accounts.held.2, Array.length_toList]

/-- The offset of an entry is the width of the records before it. -/
theorem offset_eq (accounts : q.Accounts (front ++ (offset, i) :: back)) :
    offset = width (front.map (·.2)) := by
  rw [width, length_flatMap_words, accounts.placed.offset_eq, Nat.zero_add]

theorem held_split (accounts : q.Accounts (front ++ (offset, i) :: back)) :
    q.Holds (front.map (·.2) ++ i :: back.map (·.2)) := by
  simpa using accounts.held

theorem reads (accounts : q.Accounts ledger) : q.Reads ledger := by
  refine ⟨?_, ?_, accounts.held.instructions, ?_⟩
  · rw [accounts.held.2, List.flatMap_map]
  · rw [accounts.held.records, List.map_map]
    rfl
  · rintro ⟨offset, i⟩ member
    obtain ⟨front, back, rfl⟩ := List.append_of_mem member
    rw [accounts.offset_eq]
    exact accounts.held_split.tagAt?

theorem push (accounts : q.Accounts ledger) {record : List UInt32}
    (recorded : i.record? = some record) :
    (q.append record).Accounts (ledger ++ [(q.words.size, i)]) := by
  refine ⟨by simpa using accounts.held.append recorded, ?_⟩
  rw [accounts.size]
  exact accounts.placed.concat i

theorem fresh (accounts : q.Accounts ledger) : q.words.size ∉ ledger.map (·.1) := by
  rw [accounts.size]
  apply accounts.placed.fresh
  rintro ⟨offset, i⟩ member
  have tagged := accounts.held.1 i (List.mem_map.mpr ⟨_, member, rfl⟩)
  obtain ⟨tag, known⟩ := Option.isSome_iff_exists.mp tagged
  simp [recordLength, known, Tag.recordLength]

/-- Changing the destination at the offset of an operation changes its entry alone. -/
theorem setDestination (accounts : q.Accounts (front ++ (offset, i) :: back))
    (operation : i.isAlu = true) (register : UInt32) :
    ∃ next, q.setDestination? offset register = some next ∧
      next.Accounts (front ++ (offset, i.redirect register) :: back) := by
  have done := accounts.held_split.isSome_setDestination? register
  have held := accounts.held_split.setDestination register
  rw [← accounts.offset_eq, operation] at done
  rw [← accounts.offset_eq] at held
  obtain ⟨next, changed⟩ := Option.isSome_iff_exists.mp done
  rw [changed, Option.getD_some] at held
  refine ⟨next, changed, by simpa using held, accounts.placed.replace ?_⟩
  rw [recordLength, tag?_redirect, ← recordLength]

/-- At the offset of any other instruction there is nothing to change. -/
theorem setDestination_other (accounts : q.Accounts (front ++ (offset, i) :: back))
    (other : i.isAlu = false) (register : UInt32) :
    q.setDestination? offset register = none := by
  have done := accounts.held_split.isSome_setDestination? register
  rw [← accounts.offset_eq, other] at done
  exact Option.not_isSome_iff_eq_none.mp (by simp [done])

end Accounts

/-- One request: the queue answers as its ledger does and keeps to it, and the offsets that the
client holds are in the ledger. -/
theorem execute_refines {q : Queue} {ledger : Ledger} (accounts : q.Accounts ledger)
    {handles : List Nat} (inside : ∀ offset ∈ handles, offset ∈ ledger.map (·.1))
    {request : Request} (uses : request.Uses handles) :
    ∃ next, ledger.Step request (q.execute request).1 next ∧
      (q.execute request).2.Accounts next ∧
      ∀ offset ∈ handlesAfter handles request (q.execute request).1,
        offset ∈ next.map (·.1) := by
  cases request with
  | push i =>
    cases tagged : i.tag? with
    | none =>
      have illegal : ¬ i.HasArity := by simp [← isSome_tag?_iff, tagged]
      have refused : q.push? i = none := by simp [push?, record?, tagged]
      simp only [execute, refused]
      exact ⟨ledger, .refuse illegal, accounts, inside⟩
    | some tag =>
      have legal : i.HasArity := by simp [← isSome_tag?_iff, tagged]
      have recorded : i.record? = some (tag.word :: i.fields) := by simp [record?, tagged]
      have pushed : q.push? i = some (q.words.size, q.append (tag.word :: i.fields)) := by
        simp [push?, recorded]
      simp only [execute, pushed]
      refine ⟨_, .push legal accounts.fresh, accounts.push recorded, fun offset held => ?_⟩
      rw [List.map_append, List.mem_append]
      -- the client holds the new offset and those from before
      rcases List.mem_cons.mp held with rfl | old
      · exact .inr (by simp)
      · exact .inl (inside offset old)
  | clear => exact ⟨[], .clear, accounts_empty, by simp [handlesAfter]⟩
  | setDestination offset register =>
    obtain ⟨⟨known, i⟩, member, same⟩ := List.mem_map.mp (inside offset uses)
    obtain rfl : known = offset := same
    obtain ⟨front, back, rfl⟩ := List.append_of_mem member
    cases operation : i.isAlu with
    | true =>
      obtain ⟨next, changed, after⟩ := accounts.setDestination operation register
      simp only [execute, changed]
      -- the offsets of the ledger are those from before
      exact ⟨_, .change operation, after, by simpa [handlesAfter] using inside⟩
    | false =>
      have none := accounts.setDestination_other operation register
      simp only [execute, none]
      exact ⟨_, .keep member operation, accounts, inside⟩

/-- The run: what one request keeps is kept by all. -/
theorem refines_of_accounts {q : Queue} {ledger : Ledger} (accounts : q.Accounts ledger)
    {handles : List Nat} (inside : ∀ offset ∈ handles, offset ∈ ledger.map (·.1))
    {requests : List Request} (uses : q.UsesHandles handles requests) :
    q.Refines ledger requests := by
  induction requests generalizing q ledger handles with
  | nil => exact .done accounts.reads
  | cons request rest ih =>
    obtain ⟨next, answered, after, known⟩ := execute_refines accounts inside uses.1
    exact .step accounts.reads answered (ih after known uses.2)

/-- Offsets are stable handles. Whatever is pushed, changed and cleared in whatever order, the
queue behaves as a list of instructions, as long as destinations are changed only at offsets that
were given since the last clear. -/
theorem empty_refines_ledger (requests : List Request) (uses : empty.UsesHandles [] requests) :
    empty.Refines [] requests :=
  refines_of_accounts accounts_empty (by simp) uses

/-- Fields that look like tags, an operation without operands, changes of the first record and of
one that has no destination to change, and a new start. -/
def lookalikeRequests : List Request :=
  [.push (.color 3 ⟨4, 5, 6⟩ [⟨0, 1, 2⟩]), .push (.color 0 ⟨0, 0, 0⟩ []),
    .push (.passTexCoord 0 0 0), .setDestination 0 8, .push (.alpha 0 ⟨1, 2⟩ [⟨3, 4, 5⟩]),
    .setDestination 8 7, .setDestination 12 0, .clear, .push (.setConstants 1 2),
    .setDestination 0 5]

theorem empty_refines_ledger_lookalikes :
    empty.UsesHandles [] lookalikeRequests ∧ empty.Refines [] lookalikeRequests := by
  have uses : empty.UsesHandles [] lookalikeRequests := by decide
  exact ⟨uses, empty_refines_ledger lookalikeRequests uses⟩

end Queue
end PixelAsm
