import PixelAsm.Instruction.Queue

/-!
# Records of a queue

A queue that was made by appending records holds a list of instructions: its words
are their records, one after the other. Reading such a queue gives the list back.
-/
namespace PixelAsm

theorem Tag.ofWord?_word (tag : Tag) : Tag.ofWord? tag.word = some tag := by
  cases tag with
  | color arity | alpha arity => cases arity <;> rfl
  | setConstants | passTexCoord | sampleMap => rfl

theorem Arity.count_of_ofCount? {n : Nat} {arity : Arity}
    (known : Arity.ofCount? n = some arity) : arity.count = n := by
  unfold Arity.ofCount? at known
  split at known <;> cases known <;> rfl

namespace Operand

@[simp]
theorem ofWords_flatMap_words (operands : List Operand) :
    ofWords (operands.flatMap (·.words)) = operands := by
  induction operands with
  | nil => rfl
  | cons first rest ih =>
    rw [List.flatMap_cons]
    simp only [words, List.cons_append, List.nil_append, ofWords]
    exact congrArg _ ih

theorem length_flatMap_words (operands : List Operand) :
    (operands.flatMap (·.words)).length = 3 * operands.length := by
  induction operands with
  | nil => rfl
  | cons first rest ih =>
    have three : first.words.length = 3 := rfl
    rw [List.flatMap_cons, List.length_append, ih, three, List.length_cons]
    omega

end Operand

namespace Instruction

/-- The words of an instruction's record; an instruction without a tag has none. -/
def words (i : Instruction) : List UInt32 := i.record?.getD []

theorem words_of_tag? {i : Instruction} {tag : Tag} (tagged : i.tag? = some tag) :
    i.words = tag.word :: i.fields := by
  simp [words, record?, tagged]

theorem length_fields_of_tag? {i : Instruction} {tag : Tag} (tagged : i.tag? = some tag) :
    i.fields.length = tag.fieldCount := by
  cases i with
  | color operation target operands | alpha operation target operands =>
    obtain ⟨arity, known, rfl⟩ := Option.map_eq_some_iff.mp tagged
    have count := Arity.count_of_ofCount? known
    simp only [fields, List.length_cons, Operand.length_flatMap_words, Tag.fieldCount, count]
    omega
  | setConstants register index | passTexCoord register coordinate swizzle
  | sampleMap register interpolator swizzle => cases tagged; rfl

theorem ofFields?_fields {i : Instruction} {tag : Tag} (tagged : i.tag? = some tag) :
    ofFields? tag i.fields = some i := by
  have enough := length_fields_of_tag? tagged
  cases i with
  | color operation target operands | alpha operation target operands =>
    obtain ⟨arity, -, rfl⟩ := Option.map_eq_some_iff.mp tagged
    unfold ofFields?
    rw [if_neg (not_not_intro enough)]
    simp only [fields, Operand.ofWords_flatMap_words]
  | setConstants register index | passTexCoord register coordinate swizzle
  | sampleMap register interpolator swizzle => cases tagged; rfl

end Instruction

namespace Queue

/-- Passing over words is reading from behind them. -/
theorem recordsFrom_skip (skip offset : Nat) (words : List UInt32) :
    recordsFrom skip offset words = recordsFrom 0 (offset + skip) (words.drop skip) := by
  induction words generalizing skip offset with
  | nil => simp [recordsFrom]
  | cons word rest ih =>
    cases skip with
    | zero => rfl
    | succ skip =>
      rw [recordsFrom, ih, List.drop_succ_cons]
      congr 1
      omega

theorem recordsFrom_words_append {i : Instruction} (tagged : i.tag?.isSome = true) (offset : Nat)
    (rest : List UInt32) :
    recordsFrom 0 offset (i.words ++ rest) =
      .ok i :: recordsFrom 0 (offset + i.words.length) rest := by
  obtain ⟨tag, tagged⟩ := Option.isSome_iff_exists.mp tagged
  have enough := Instruction.length_fields_of_tag? tagged
  -- the tag tells how many words belong to the record
  have front : (i.fields ++ rest).take tag.fieldCount = i.fields := by simp [← enough]
  have back : (i.fields ++ rest).drop tag.fieldCount = rest := by simp [← enough]
  rw [Instruction.words_of_tag? tagged, List.cons_append, recordsFrom, Tag.ofWord?_word]
  simp only [front, Instruction.ofFields?_fields tagged]
  rw [recordsFrom_skip, back, List.length_cons, enough]
  congr 2
  omega

/-- The queue is the records of these instructions in order. -/
def Holds (q : Queue) (is : List Instruction) : Prop :=
  (∀ i ∈ is, i.tag?.isSome = true) ∧ q.words.toList = is.flatMap (·.words)

theorem holds_empty : Holds {} [] := ⟨by simp, rfl⟩

theorem Holds.append {q : Queue} {is : List Instruction} {i : Instruction} {record : List UInt32}
    (held : q.Holds is) (recorded : i.record? = some record) :
    (q.append record).Holds (is ++ [i]) := by
  obtain ⟨tagged, words⟩ := held
  obtain ⟨tag, known, -⟩ := Option.map_eq_some_iff.mp recorded
  constructor
  · intro j member
    rcases List.mem_append.mp member with old | new
    · exact tagged j old
    · rw [List.mem_singleton.mp new, known]
      rfl
  · have last : i.words = record := by simp [Instruction.words, recorded]
    simp [Queue.append, words, last]

private theorem recordsFrom_flatMap_words (is : List Instruction)
    (tagged : ∀ i ∈ is, i.tag?.isSome = true) (offset : Nat) :
    recordsFrom 0 offset (is.flatMap (·.words)) = is.map .ok := by
  induction is generalizing offset with
  | nil => rfl
  | cons i rest ih =>
    rw [List.flatMap_cons, recordsFrom_words_append (tagged i (by simp)),
      ih (fun j member => tagged j (by simp [member]))]
    rfl

/-- Reading a queue gives the instructions that it holds, and no malformed record. -/
theorem Holds.records {q : Queue} {is : List Instruction} (held : q.Holds is) :
    q.records = is.map .ok := by
  rw [Queue.records, held.2]
  exact recordsFrom_flatMap_words is held.1 0

theorem Holds.instructions {q : Queue} {is : List Instruction} (held : q.Holds is) :
    q.instructions = is := by
  rw [Queue.instructions, held.records, List.filterMap_map]
  exact List.filterMap_some

theorem Holds.isEmpty_iff {q : Queue} {is : List Instruction} (held : q.Holds is) :
    q.isEmpty = true ↔ is = [] := by
  obtain ⟨tagged, words⟩ := held
  have sizes : q.isEmpty = true ↔ q.words.toList = [] := by simp [Queue.isEmpty]
  rw [sizes, words]
  constructor
  · intro none
    cases is with
    | nil => rfl
    | cons i rest =>
      obtain ⟨tag, known⟩ := Option.isSome_iff_exists.mp (tagged i (by simp))
      simp [Instruction.words_of_tag? known] at none
  · rintro rfl
    rfl

end Queue
end PixelAsm
