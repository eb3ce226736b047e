import Mathlib.Data.List.Basic
import PixelAsm.Proofs.Records

/-!
# Pushing and reading

A queue is read in one pass over its words, and nothing but the tags tells where records
start. Reading what was pushed gives it back whatever the fields hold, even words that look
like tags. Any other words are read as far as they are records, and pushing what was read
gives these words again.
-/
namespace PixelAsm

theorem Arity.ofCount?_count (arity : Arity) : Arity.ofCount? arity.count = some arity := by
  cases arity <;> rfl

theorem Tag.ofWord?_eq_none_iff (word : UInt32) : Tag.ofWord? word = none ↔ 8 < word.toNat := by
  unfold Tag.ofWord?
  split <;> simp_all
  omega

theorem Tag.word_of_ofWord? {word : UInt32} {tag : Tag} (known : Tag.ofWord? word = some tag) :
    tag.word = word := by
  unfold Tag.ofWord? at known
  split at known <;> cases known <;> exact UInt32.toNat_inj.mp (by simp_all [Tag.word])

theorem Operand.flatMap_words_ofWords {count : Nat} {words : List UInt32}
    (length : words.length = 3 * count) :
    (ofWords words).flatMap (·.words) = words ∧ (ofWords words).length = count := by
  induction count generalizing words with
  | zero =>
    cases words with
    | nil => exact ⟨rfl, rfl⟩
    | cons word rest => simp at length
  | succ count ih =>
    obtain ⟨register, words, rfl⟩ := List.exists_cons_of_length_eq_add_one length
    obtain ⟨channel, words, rfl⟩ := List.exists_cons_of_length_eq_add_one (Nat.succ.inj length)
    obtain ⟨modifier, rest, rfl⟩ :=
      List.exists_cons_of_length_eq_add_one (Nat.succ.inj (Nat.succ.inj length))
    have shorter : rest.length = 3 * count := by
      simp only [List.length_cons] at length
      omega
    obtain ⟨again, counted⟩ := ih shorter
    rw [ofWords, List.flatMap_cons, again, List.length_cons, counted]
    exact ⟨rfl, rfl⟩

namespace Instruction

/-- Colour and alpha operations. -/
def isAlu : Instruction → Bool
  | color _ _ _ | alpha _ _ _ => true
  | _ => false

/-- The target has an operation with as many operands. -/
def HasArity (i : Instruction) : Prop :=
  i.isAlu = true → 1 ≤ i.operands.length ∧ i.operands.length ≤ 3

instance (i : Instruction) : Decidable i.HasArity :=
  inferInstanceAs (Decidable (i.isAlu = true → 1 ≤ i.operands.length ∧ i.operands.length ≤ 3))

private theorem isSome_ofCount?_iff (count : Nat) :
    (Arity.ofCount? count).isSome = true ↔ 1 ≤ count ∧ count ≤ 3 := by
  unfold Arity.ofCount?
  split <;> simp_all
  omega

/-- Exactly these instructions can be queued. -/
theorem isSome_tag?_iff (i : Instruction) : i.tag?.isSome = true ↔ i.HasArity := by
  cases i with
  | color operation target operands | alpha operation target operands =>
    simp [tag?, HasArity, isAlu, Instruction.operands, isSome_ofCount?_iff]
  | setConstants register index | passTexCoord register coordinate swizzle
  | sampleMap register interpolator swizzle => simp [tag?, HasArity, isAlu]

/-- The number of words of an instruction's record. -/
def recordLength (i : Instruction) : Nat := i.tag?.elim 0 Tag.recordLength

theorem length_words (i : Instruction) : i.words.length = i.recordLength := by
  cases tagged : i.tag? with
  | none => simp [words, record?, recordLength, tagged]
  | some tag =>
    rw [words_of_tag? tagged, List.length_cons, length_fields_of_tag? tagged]
    simp [recordLength, tagged, Tag.recordLength]

/-- The number of words that the records of these instructions take together. -/
def recordLengths : List Instruction → Nat
  | [] => 0
  | i :: rest => i.recordLength + recordLengths rest

theorem length_flatMap_words (is : List Instruction) :
    (is.flatMap (·.words)).length = recordLengths is := by
  induction is with
  | nil => rfl
  | cons i rest ih =>
    rw [List.flatMap_cons, List.length_append, length_words, ih, recordLengths]

/-- As many fields as the tag asks for are the fields of an instruction with that tag. -/
theorem ofFields?_of_length {tag : Tag} {fields : List UInt32}
    (length : fields.length = tag.fieldCount) :
    ∃ i : Instruction, ofFields? tag fields = some i ∧ i.tag? = some tag ∧ i.fields = fields := by
  unfold ofFields?
  rw [if_neg (not_not_intro length)]
  cases tag with
  | color arity =>
    have length : fields.length = 3 * arity.count + 4 := by rw [length, Tag.fieldCount]; omega
    obtain ⟨operation, fields, rfl⟩ := List.exists_cons_of_length_eq_add_one length
    have length := Nat.succ.inj length
    obtain ⟨register, fields, rfl⟩ := List.exists_cons_of_length_eq_add_one length
    have length := Nat.succ.inj length
    obtain ⟨mask, fields, rfl⟩ := List.exists_cons_of_length_eq_add_one length
    have length := Nat.succ.inj length
    obtain ⟨modifier, rest, rfl⟩ := List.exists_cons_of_length_eq_add_one length
    obtain ⟨again, counted⟩ := Operand.flatMap_words_ofWords (Nat.succ.inj length)
    refine ⟨_, rfl, ?_, ?_⟩
    · simp [tag?, counted, Arity.ofCount?_count]
    · simp [Instruction.fields, again]
  | alpha arity =>
    have length : fields.length = 3 * arity.count + 3 := by rw [length, Tag.fieldCount]; omega
    obtain ⟨operation, fields, rfl⟩ := List.exists_cons_of_length_eq_add_one length
    have length := Nat.succ.inj length
    obtain ⟨register, fields, rfl⟩ := List.exists_cons_of_length_eq_add_one length
    have length := Nat.succ.inj length
    obtain ⟨modifier, rest, rfl⟩ := List.exists_cons_of_length_eq_add_one length
    obtain ⟨again, counted⟩ := Operand.flatMap_words_ofWords (Nat.succ.inj length)
    refine ⟨_, rfl, ?_, ?_⟩
    · simp [tag?, counted, Arity.ofCount?_count]
    · simp [Instruction.fields, again]
  | setConstants =>
    obtain ⟨register, index, rfl⟩ := List.length_eq_two.mp length
    exact ⟨_, rfl, rfl, rfl⟩
  | passTexCoord | sampleMap =>
    obtain ⟨register, source, swizzle, rfl⟩ := List.length_eq_three.mp length
    exact ⟨_, rfl, rfl, rfl⟩

end Instruction

namespace Queue

open Instruction

/-! ### Reading any words -/

/-- How reading can stop at an offset: behind the last word, at a word that is no tag, or at
a record that the stream cuts short. -/
inductive Ends (offset : Nat) : List UInt32 → Option RecordError → Prop
  | complete : Ends offset [] none
  | unknownTag {word : UInt32} {rest : List UInt32} (noTag : 8 < word.toNat) :
      Ends offset (word :: rest) (some (.unknownTag offset word))
  | truncated {tag : Tag} {rest : List UInt32}
      (short : (tag.word :: rest).length < tag.recordLength) :
      Ends offset (tag.word :: rest) (some (.truncated offset tag))

/-- One step of reading: the words end here, or a record comes first. -/
theorem ends_or_record (offset : Nat) (words : List UInt32) :
    (∃ fault?, Ends offset words fault? ∧
      recordsFrom 0 offset words = fault?.toList.map .error) ∨
    ∃ (i : Instruction) (rest : List UInt32), i.tag?.isSome = true ∧ words = i.words ++ rest := by
  cases words with
  | nil => exact .inl ⟨none, .complete, rfl⟩
  | cons word rest =>
    cases known : Tag.ofWord? word with
    | none =>
      have noTag := (Tag.ofWord?_eq_none_iff word).mp known
      exact .inl ⟨_, .unknownTag noTag, by simp [recordsFrom, known]⟩
    | some tag =>
      obtain rfl := Tag.word_of_ofWord? known
      by_cases enough : tag.fieldCount ≤ rest.length
      · obtain ⟨i, -, tagged, fields⟩ :=
          ofFields?_of_length (List.length_take_of_le enough)
        refine .inr ⟨i, rest.drop tag.fieldCount, by simp [tagged], ?_⟩
        rw [words_of_tag? tagged, fields, List.cons_append, List.take_append_drop]
      · refine .inl ⟨_, .truncated ?_, ?_⟩
        · simp only [List.length_cons, Tag.recordLength]
          omega
        · have short : (rest.take tag.fieldCount).length ≠ tag.fieldCount := by
            rw [List.length_take]
            omega
          simp only [recordsFrom, known, ofFields?, if_pos short]
          rfl

/-- Words are read as records up to a point where no record comes first. -/
theorem recordsFrom_ends (offset : Nat) (words : List UInt32) :
    ∃ (is : List Instruction) (rest : List UInt32) (fault? : Option RecordError),
      (∀ i ∈ is, i.tag?.isSome = true) ∧ words = is.flatMap (·.words) ++ rest ∧
      Ends (offset + recordLengths is) rest fault? ∧
      recordsFrom 0 offset words = is.map .ok ++ fault?.toList.map .error := by
  -- each record takes at least its tag off the words
  induction length : words.length using Nat.strongRecOn generalizing offset words with
  | ind n ih =>
    rcases ends_or_record offset words with ⟨fault?, ends, read⟩ | ⟨i, rest, tagged, rfl⟩
    · exact ⟨[], words, fault?, by simp, rfl, ends, read⟩
    · obtain ⟨tag, known⟩ := Option.isSome_iff_exists.mp tagged
      have shorter : rest.length < n := by
        rw [← length, words_of_tag? known, List.length_append, List.length_cons]
        omega
      obtain ⟨is, last, fault?, others, rfl, ends, read⟩ :=
        ih rest.length shorter (offset + i.words.length) rest rfl
      refine ⟨i :: is, last, fault?, ?_, ?_, ?_, ?_⟩
      · simpa [tagged] using others
      · rw [List.flatMap_cons, List.append_assoc]
      · rw [recordLengths, ← length_words, ← Nat.add_assoc]
        exact ends
      · rw [recordsFrom_words_append tagged, read]
        rfl

/-- A queue reads back as instructions without error only if it consists of their records. -/
theorem holds_of_records {q : Queue} {is : List Instruction} (read : q.records = is.map .ok) :
    q.Holds is := by
  obtain ⟨found, rest, fault?, tagged, words, ends, all⟩ := recordsFrom_ends 0 q.words.toList
  rw [← records, read] at all
  cases fault? with
  | some fault =>
    -- a fault would show in the list
    have member : .error fault ∈ is.map Except.ok := by rw [all]; simp
    simp at member
  | none =>
    obtain rfl : is = found := by
      have injective : Function.Injective (Except.ok (ε := RecordError) (α := Instruction)) :=
        fun _ _ => Except.ok.inj
      exact (List.map_inj_right injective).mp (by simpa using all)
    cases ends
    exact ⟨tagged, by simpa using words⟩

/-! ### Pushing -/

/-- Pushes instructions one after the other and gives the offsets of their records. -/
def pushAll? (q : Queue) : List Instruction → Option (List Nat × Queue)
  | [] => some ([], q)
  | i :: rest =>
    match q.push? i with
    | none => none
    | some (offset, next) =>
      (next.pushAll? rest).map fun (offsets, last) => (offset :: offsets, last)

/-- Instructions with a record can be pushed, and each lands behind those before it. -/
theorem pushAll?_holds {q : Queue} {front is : List Instruction} (held : q.Holds front)
    (tagged : ∀ i ∈ is, i.tag?.isSome = true) :
    ∃ offsets next, q.pushAll? is = some (offsets, next) ∧ next.Holds (front ++ is) ∧
      offsets.length = is.length ∧
      ∀ n < is.length, offsets[n]? = some (recordLengths (front ++ is.take n)) := by
  induction is generalizing q front with
  | nil => exact ⟨[], q, rfl, by simpa using held, rfl, by simp⟩
  | cons i rest ih =>
    obtain ⟨tag, known⟩ := Option.isSome_iff_exists.mp (tagged i (by simp))
    have recorded : i.record? = some (tag.word :: i.fields) := by rw [record?, known]; rfl
    obtain ⟨offsets, last, pushed, all, length, each⟩ :=
      ih (held.append recorded) fun j member => tagged j (by simp [member])
    have size : q.words.size = recordLengths front := by
      rw [← length_flatMap_words, ← held.2, Array.length_toList]
    refine ⟨q.words.size :: offsets, last, ?_, by simpa using all, by simp [length], ?_⟩
    · simp [pushAll?, push?, recorded, pushed]
    · intro n bound
      cases n with
      | zero => simp [size]
      | succ n =>
        have later := each n (by simpa using bound)
        simpa using later

/-- A queue is determined by the instructions that it holds. -/
theorem Holds.unique {q r : Queue} {is : List Instruction} (first : q.Holds is)
    (second : r.Holds is) : q = r := by
  have words : q.words = r.words := Array.toList_inj.mp (first.2.trans second.2.symm)
  cases q
  cases r
  exact congrArg Queue.mk words

/-- Reading undoes pushing, and the offset of each record is the length of those in front of
it. Words that were not pushed are read as far as they are records: what is read, pushed
again, gives all words up to the place where reading stopped. -/
theorem push_read_inverse :
    (∀ is : List Instruction, (∀ i ∈ is, i.HasArity) →
      ∃ offsets q, empty.pushAll? is = some (offsets, q) ∧ q.records = is.map .ok ∧
        offsets.length = is.length ∧
        ∀ n < is.length, offsets[n]? = some (recordLengths (is.take n))) ∧
    (∀ q : Queue, ∃ is rest fault?, q.records = is.map .ok ++ fault?.toList.map .error ∧
      Ends (recordLengths is) rest fault? ∧
      ∃ offsets pushed, empty.pushAll? is = some (offsets, pushed) ∧
        q.words.toList = pushed.words.toList ++ rest) ∧
    ∀ (q : Queue) (is : List Instruction), q.records = is.map .ok →
      ∃ offsets, empty.pushAll? is = some (offsets, q) := by
  refine ⟨fun is arity => ?_, fun q => ?_, fun q is read => ?_⟩
  · have tagged : ∀ i ∈ is, i.tag?.isSome = true :=
      fun i member => i.isSome_tag?_iff.mpr (arity i member)
    obtain ⟨offsets, q, pushed, held, each⟩ := pushAll?_holds holds_empty tagged
    exact ⟨offsets, q, pushed, held.records, each⟩
  · obtain ⟨is, rest, fault?, tagged, words, ends, read⟩ := recordsFrom_ends 0 q.words.toList
    obtain ⟨offsets, front, pushed, held, -⟩ := pushAll?_holds holds_empty tagged
    rw [Nat.zero_add] at ends
    exact ⟨is, rest, fault?, read, ends, offsets, front, pushed, words.trans (by rw [held.2]; rfl)⟩
  · have held := holds_of_records read
    obtain ⟨offsets, next, pushed, again, -⟩ := pushAll?_holds holds_empty held.1
    exact ⟨offsets, pushed.trans (by rw [held.unique again])⟩

/-- Instructions in which every field could be taken for a tag. -/
def lookalikes : List Instruction :=
  [.passTexCoord 8 7 6, .color 0 ⟨1, 2, 3⟩ [⟨4, 5, 6⟩, ⟨7, 8, 0⟩], .setConstants 7 8]

theorem push_read_inverse_lookalikes :
    (∀ i ∈ lookalikes, i.HasArity) ∧
      ∃ offsets q, empty.pushAll? lookalikes = some (offsets, q) ∧
        q.records = lookalikes.map .ok ∧ offsets.length = 3 ∧
        ∀ n < 3, offsets[n]? = some (recordLengths (lookalikes.take n)) := by
  have arity : ∀ i ∈ lookalikes, i.HasArity := by decide
  exact ⟨arity, push_read_inverse.1 lookalikes arity⟩

end Queue
end PixelAsm
