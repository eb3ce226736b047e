import PixelAsm.Proofs.Backtracking

/-!
# Lines

A newline is one of the two newline bytes, or both of them in either order. In a run of newline
bytes the pairs are formed from left to right, so where a text is cut matters to the count. The
reader never cuts a pair: whatever it passes, its line grows by the newlines in what it has
passed, and it can always be told from its offset alone which line it is on.
-/
namespace PixelAsm

open Reader

/-! ### Counting newlines -/

/-- The newlines of a text. Two different newline bytes in a row are one newline. -/
def newlines : List UInt8 → Nat
  | first :: second :: rest =>
    if isNewline first then
      if isNewline second && second != first then newlines rest + 1
      else newlines (second :: rest) + 1
    else newlines (second :: rest)
  | [only] => if isNewline only then 1 else 0
  | [] => 0

@[simp]
theorem newlines_nil : newlines [] = 0 := rfl

theorem newlines_cons_of_not {b : UInt8} (other : isNewline b = false) (rest : List UInt8) :
    newlines (b :: rest) = newlines rest := by
  cases rest <;> simp [newlines, other]

/-- Bytes without a newline among them do not count. -/
theorem newlines_append_of_clean {bytes : List UInt8} (clean : ∀ b ∈ bytes, isNewline b = false)
    (more : List UInt8) : newlines (bytes ++ more) = newlines more := by
  induction bytes with
  | nil => simp
  | cons b rest ih =>
    rw [List.cons_append, newlines_cons_of_not (clean b (by simp))]
    exact ih fun c member => clean c (by simp [member])

theorem newlines_of_clean {bytes : List UInt8} (clean : ∀ b ∈ bytes, isNewline b = false) :
    newlines bytes = 0 := by
  simpa using newlines_append_of_clean clean []

/-- The newline at the beginning of a text counts for one, however much of the text follows. -/
theorem newlines_newline {bytes : List UInt8} (some : newlineWidth bytes ≠ 0) (count : Nat) :
    newlines (bytes.take (newlineWidth bytes) ++ (bytes.drop (newlineWidth bytes)).take count) =
      newlines ((bytes.drop (newlineWidth bytes)).take count) + 1 := by
  match bytes with
  | [] => simp [newlineWidth] at some
  | [only] =>
    by_cases newline : isNewline only = true
    · simp [newlineWidth, newlines, newline]
    · simp [newlineWidth, newline] at some
  | first :: second :: rest =>
    by_cases newline : isNewline first = true
    · by_cases pair : (isNewline second && second != first) = true
      · simp [newlineWidth, newlines, newline, pair]
      · -- the next byte does not belong to this newline, whether it is read or not
        cases count with
        | zero => simp [newlineWidth, newlines, newline, pair]
        | succ count => simp [newlineWidth, newlines, newline, pair]
    · simp [newlineWidth, newline] at some

/-! ### Passing bytes -/

namespace Reader

/-- The second reader stands behind these bytes, its line has grown by their newlines, and no
newline reaches beyond them. -/
structure Passes (r : Reader) (bytes : List UInt8) (s : Reader) : Prop where
  rest : r.rest = bytes ++ s.rest
  offset : s.offset = r.offset + bytes.length
  size : s.size = r.size
  line : s.line = r.line + newlines bytes
  cut : ∀ count, newlines (bytes ++ s.rest.take count) =
    newlines bytes + newlines (s.rest.take count)

variable {r s t : Reader} {bytes more : List UInt8}

theorem Passes.refl (r : Reader) : r.Passes [] r := by
  constructor <;> simp

theorem Passes.trans (first : r.Passes bytes s) (second : s.Passes more t) :
    r.Passes (bytes ++ more) t := by
  -- what follows the first cut starts with the bytes of the second
  have joined (count : Nat) : newlines (bytes ++ (more ++ t.rest.take count)) =
      newlines bytes + newlines (more ++ t.rest.take count) := by
    have cut := first.cut (more.length + count)
    rwa [second.rest, List.take_length_add_append] at cut
  have both : newlines (bytes ++ more) = newlines bytes + newlines more := by
    simpa using joined 0
  constructor
  · rw [first.rest, second.rest, List.append_assoc]
  · rw [second.offset, first.offset, List.length_append, Nat.add_assoc]
  · rw [second.size, first.size]
  · rw [second.line, first.line, both, Nat.add_assoc]
  · intro count
    rw [List.append_assoc, joined, second.cut, both, Nat.add_assoc]

theorem eq_of_fields (rest : s.rest = r.rest) (offset : s.offset = r.offset)
    (line : s.line = r.line) (size : s.size = r.size) : s = r := by
  cases r
  cases s
  simp_all

theorem Passes.eq_of_nil (passes : r.Passes [] s) : s = r := by
  apply eq_of_fields
  · exact passes.rest.symm
  · exact passes.offset
  · exact passes.line
  · exact passes.size

/-- Skipping bytes that are there and hold no newline. -/
theorem passes_skip {count : Nat} (enough : count ≤ r.rest.length)
    (clean : ∀ b ∈ r.rest.take count, isNewline b = false) :
    r.Passes (r.rest.take count) (r.skip count) := by
  constructor
  · exact (List.take_append_drop count r.rest).symm
  · simp [skip, Nat.min_eq_left enough]
  · rfl
  · simp [skip, newlines_of_clean clean]
  · intro more
    rw [newlines_append_of_clean clean, newlines_of_clean clean, Nat.zero_add]

theorem passes_takeWhile {keeps : UInt8 → Bool}
    (clean : ∀ b, keeps b = true → isNewline b = false) (r : Reader) :
    r.Passes (r.rest.take (r.rest.takeWhile keeps).length)
      (r.skip (r.rest.takeWhile keeps).length) := by
  apply passes_skip (List.takeWhile_sublist _).length_le
  intro b member
  rw [← List.prefix_iff_eq_take.mp (List.takeWhile_prefix keeps)] at member
  exact clean b (List.all_eq_true.mp List.all_takeWhile b member)

theorem exists_passes_skipBlanks (r : Reader) : ∃ bytes, r.Passes bytes r.skipBlanks := by
  refine ⟨_, passes_takeWhile (fun b blank => ?_) r⟩
  simp only [isBlank, Bool.or_eq_true, beq_iff_eq] at blank
  rcases blank with rfl | rfl <;> rfl

theorem passes_skipNewline (r : Reader) :
    r.Passes (r.rest.take (newlineWidth r.rest)) r.skipNewline := by
  have enough := newlineWidth_le r.rest
  unfold skipNewline
  split
  next none =>
    rw [none]
    exact .refl r
  next width =>
    have counts := newlines_newline width
    have one := counts 0
    rw [List.take_zero, List.append_nil, newlines_nil] at one
    constructor
    · exact (List.take_append_drop _ r.rest).symm
    · simp [skip, Nat.min_eq_left enough]
    · rfl
    · rw [one]
    · intro count
      rw [one, Nat.add_comm (0 + 1)]
      exact counts count

theorem exists_passes_skipComment (r : Reader) : ∃ bytes, r.Passes bytes r.skipComment := by
  unfold skipComment
  split
  · refine ⟨_, passes_takeWhile (fun b inside => ?_) r⟩
    simpa using inside
  · exact ⟨[], .refl r⟩

/-- A round that moves nothing stands in front of a byte that is no newline. -/
theorem isNewline_of_still {b : UInt8} {rest : List UInt8}
    (found : r.skipBlanks.skipNewline.skipComment.rest = b :: rest)
    (still : r.skipBlanks.skipNewline.skipComment.offset = r.offset) : isNewline b = false := by
  obtain ⟨blanks, overBlanks⟩ := r.exists_passes_skipBlanks
  have overNewline := passes_skipNewline r.skipBlanks
  obtain ⟨comment, overComment⟩ := exists_passes_skipComment r.skipBlanks.skipNewline
  -- none of the three skips has moved
  have offset := overComment.offset
  rw [still, overNewline.offset, overBlanks.offset] at offset
  have noNewline : newlineWidth r.skipBlanks.rest = 0 := by
    have enough := newlineWidth_le r.skipBlanks.rest
    have length := List.length_take_of_le enough
    omega
  have noComment : comment = [] := List.length_eq_zero_iff.mp (by omega)
  have position := overComment.rest
  rw [noComment, List.nil_append, found] at position
  rw [noNewline, List.take_zero] at overNewline
  rw [overNewline.eq_of_nil] at position
  rw [position] at noNewline
  cases rest with
  | nil => simpa [newlineWidth] using noNewline
  | cons second rest =>
    by_cases newline : isNewline b = true
    · simp only [newlineWidth, newline, if_true] at noNewline
      split at noNewline <;> cases noNewline
    · simpa using newline

theorem exists_passes_skipTriviaRounds (rounds : Nat) (r : Reader) :
    ∃ bytes, r.Passes bytes (skipTriviaRounds rounds r).2 := by
  induction rounds generalizing r with
  | zero => exact ⟨[], .refl r⟩
  | succ rounds ih =>
    obtain ⟨blanks, overBlanks⟩ := r.exists_passes_skipBlanks
    obtain ⟨comment, overComment⟩ := exists_passes_skipComment r.skipBlanks.skipNewline
    have moved := (overBlanks.trans (passes_skipNewline _)).trans overComment
    unfold skipTriviaRounds
    dsimp only
    split
    · exact ⟨_, moved⟩
    next b rest found =>
      split
      · exact ⟨_, moved⟩
      · split
        next still =>
          have clean := isNewline_of_still found still
          have passed : r.skipBlanks.skipNewline.skipComment.Passes _
              (r.skipBlanks.skipNewline.skipComment.skip 1) :=
            passes_skip (by simp [found]) (by simpa [found] using clean)
          obtain ⟨others, behind⟩ := ih (r.skipBlanks.skipNewline.skipComment.skip 1)
          exact ⟨_, (moved.trans passed).trans behind⟩
        next =>
          obtain ⟨others, behind⟩ := ih r.skipBlanks.skipNewline.skipComment
          exact ⟨_, moved.trans behind⟩

theorem exists_passes_skipTrivia (r : Reader) : ∃ bytes, r.Passes bytes r.skipTrivia.2 :=
  exists_passes_skipTriviaRounds _ r

/-! ### Skipping twice -/

/-- In front of a symbol and at the end there is nothing to skip. -/
theorem skipTrivia_of_settled (settled : Settled r.rest) :
    r.skipTrivia = (!r.rest.isEmpty, r) := by
  obtain ⟨skips, -, found⟩ := r.skipTrivia_skips
  obtain ⟨bytes, passes⟩ := r.exists_passes_skipTrivia
  have same := skips.eq_of_settled settled
  have nothing : bytes = [] := by
    have position := passes.rest
    rw [same] at position
    simpa using position
  subst bytes
  rw [same] at found
  have stays := passes.eq_of_nil
  apply Prod.ext
  · rw [Bool.eq_iff_iff, found]
    simp
  · exact stays

/-- Skipping a second time changes nothing. -/
theorem skipTrivia_skipTrivia (r : Reader) : r.skipTrivia.2.skipTrivia = r.skipTrivia := by
  obtain ⟨-, settled, found⟩ := r.skipTrivia_skips
  rw [skipTrivia_of_settled settled]
  apply Prod.ext
  · rw [Bool.eq_iff_iff, found]
    simp
  · rfl

/-! ### Where a reader stands -/

/-- The reader at an offset of a source. Its line is told by the newlines in front of it. -/
def located (source : List UInt8) (offset : Nat) : Reader :=
  seek source offset (1 + newlines (source.take offset))

theorem Passes.eq_located {source : List UInt8} (passes : (start source).Passes bytes r) :
    r = located source r.offset := by
  have split : source = bytes ++ r.rest := passes.rest
  have offset : r.offset = bytes.length := by simpa [start, seek] using passes.offset
  have front : source.take r.offset = bytes := by rw [split, offset, List.take_left]
  have behind : source.drop r.offset = r.rest := by rw [split, offset, List.drop_left]
  apply eq_of_fields
  · exact behind.symm
  · rfl
  · rw [passes.line, ← front]
    rfl
  · exact passes.size

end Reader
end PixelAsm
