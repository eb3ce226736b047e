import PixelAsm.Proofs.Lines

/-!
# Gaps between symbols

A gap is a sequence of bytes up to the blank and of comments. A comment starts with one of three
marks and reaches up to the end of its line, which may be the end of the source. We say what a gap
is without the reader, and show that skipping trivia passes a gap, all of it and nothing else,
that it keeps the line, and that its loop ends by itself.
-/
namespace PixelAsm

open Reader

/-! ### What a gap is -/

/-- What comments start with: `//`, `;` and `#`. -/
def commentMarks : List (List UInt8) := [[0x2F, 0x2F], [0x3B], [0x23]]

/-- One of the marks stands in front of these bytes. -/
def CommentStarts (bytes : List UInt8) : Prop := ∃ mark ∈ commentMarks, mark <+: bytes

/-- The line ends in front of these bytes, with a newline byte or with the source. -/
def LineEnds : List UInt8 → Prop
  | [] => True
  | b :: _ => b = 0x0D ∨ b = 0x0A

/-- A comment: a mark and what follows it on the line. -/
structure IsComment (text : List UInt8) : Prop where
  starts : CommentStarts text
  oneLine : ∀ b ∈ text, b ≠ 0x0D ∧ b ≠ 0x0A

/-- These bytes are a gap if `after` is what follows them in the source. -/
inductive Gap (after : List UInt8) : List UInt8 → Prop
  | none : Gap after []
  | separator {b : UInt8} {rest : List UInt8} (low : b ≤ 0x20) (behind : Gap after rest) :
      Gap after (b :: rest)
  | comment {text rest : List UInt8} (isComment : IsComment text) (ends : LineEnds (rest ++ after))
      (behind : Gap after rest) : Gap after (text ++ rest)

/-- The gap at the offset `p` of a source ends at `q`: with the source, or in front of a byte above
the blank where no comment starts. -/
structure GapEnds (source : List UInt8) (p q : Nat) : Prop where
  forward : p ≤ q
  inside : q ≤ source.length
  gap : Gap (source.drop q) ((source.drop p).take (q - p))
  symbol : ∀ b, source[q]? = some b → 0x20 < b ∧ ¬ CommentStarts (source.drop q)

/-! ### Gaps and what the reader skips -/

theorem isPrintable_eq_false_iff (b : UInt8) : isPrintable b = false ↔ b ≤ 0x20 := by
  simp [isPrintable]

theorem isNewline_eq_false_iff (b : UInt8) : isNewline b = false ↔ b ≠ 0x0D ∧ b ≠ 0x0A := by
  simp only [isNewline, Bool.or_eq_false_iff, beq_eq_false_iff_ne]
  exact And.comm

theorem startsComment_iff (bytes : List UInt8) :
    startsComment bytes = true ↔ CommentStarts bytes := by
  have marks : CommentStarts bytes ↔
      [0x2F, 0x2F] <+: bytes ∨ [0x3B] <+: bytes ∨ [0x23] <+: bytes := by
    simp [CommentStarts, commentMarks]
  rw [marks]
  fun_cases startsComment bytes with
  | case1 rest => simp
  | case2 b rest other =>
    have noSlashes : ¬ [0x2F, 0x2F] <+: b :: rest := by
      rintro ⟨behind, same⟩
      cases same
      exact other _ rfl rfl
    simp [noSlashes, @eq_comm UInt8 _ b]
  | case3 => simp

/-- A mark is no newline, so a comment holds its mark. -/
theorem CommentStarts.takeWhile {bytes : List UInt8} (starts : CommentStarts bytes) :
    CommentStarts (bytes.takeWhile (!isNewline ·)) := by
  obtain ⟨mark, isMark, more, rfl⟩ := starts
  have clean : ∀ b ∈ mark, (!isNewline b) = true := by
    simp only [commentMarks, List.mem_cons, List.not_mem_nil, or_false] at isMark
    rcases isMark with rfl | rfl | rfl <;> simp [isNewline]
  refine ⟨mark, isMark, more.takeWhile (!isNewline ·), ?_⟩
  rw [List.takeWhile_append_of_pos clean]

/-- A comment is passed up to the end of its line. -/
theorem IsComment.dropWhile_append {text behind : List UInt8} (isComment : IsComment text)
    (ends : LineEnds behind) : (text ++ behind).dropWhile (!isNewline ·) = behind := by
  rw [List.dropWhile_append_of_pos]
  · -- the newline byte that ends the line is not passed
    match behind, ends with
    | [], _ => rfl
    | b :: rest, newline =>
      have stops : isNewline b = true := by
        rcases newline with rfl | rfl <;> rfl
      simp [stops]
  · intro b member
    simpa using (isNewline_eq_false_iff b).mpr (isComment.oneLine b member)

theorem lineEnds_dropWhile (bytes : List UInt8) : LineEnds (bytes.dropWhile (!isNewline ·)) := by
  have stopped := List.head?_dropWhile_not (!isNewline ·) bytes
  cases left : bytes.dropWhile (!isNewline ·) with
  | nil => trivial
  | cons b rest =>
    rw [left] at stopped
    have newline : isNewline b = true := by simpa using stopped
    simp only [isNewline, Bool.or_eq_true, beq_iff_eq] at newline
    exact newline.symm

theorem Gap.skips {after bytes : List UInt8} (gap : Gap after bytes) :
    Skips (bytes ++ after) after := by
  induction gap with
  | none => exact .here after
  | separator low _ ih => exact .blank ((isPrintable_eq_false_iff _).mpr low) ih
  | @comment text rest isComment ends _ ih =>
    rw [List.append_assoc]
    refine .comment ((startsComment_iff _).mpr ?_) ?_
    · obtain ⟨mark, isMark, inside⟩ := isComment.starts
      exact ⟨mark, isMark, inside.trans (List.prefix_append _ _)⟩
    · rw [isComment.dropWhile_append ends]
      exact ih

theorem exists_gap_of_skips {bytes after : List UInt8} (skips : Skips bytes after) :
    ∃ front, bytes = front ++ after ∧ Gap after front := by
  induction skips with
  | here bytes => exact ⟨[], rfl, .none⟩
  | @blank b rest after blank _ ih =>
    obtain ⟨front, rfl, gap⟩ := ih
    exact ⟨b :: front, rfl, .separator ((isPrintable_eq_false_iff b).mp blank) gap⟩
  | @comment bytes after starts _ ih =>
    obtain ⟨front, split, gap⟩ := ih
    -- the comment is what lies in front of the next newline byte
    refine ⟨bytes.takeWhile (!isNewline ·) ++ front, ?_, .comment ⟨?_, ?_⟩ ?_ gap⟩
    · rw [List.append_assoc, ← split, List.takeWhile_append_dropWhile]
    · exact ((startsComment_iff bytes).mp starts).takeWhile
    · intro b member
      apply (isNewline_eq_false_iff b).mp
      simpa using List.all_eq_true.mp List.all_takeWhile b member
    · rw [← split]
      exact lineEnds_dropWhile bytes

/-- Bytes are a gap as a whole if nothing is left of them once all trivia are skipped. -/
theorem gap_nil_iff {bytes after : List UInt8} (skips : Skips bytes after)
    (settled : Settled after) : Gap [] bytes ↔ after = [] := by
  constructor
  · intro gap
    have whole := gap.skips
    rw [List.append_nil] at whole
    exact skips.unique whole settled trivial
  · rintro rfl
    obtain ⟨front, split, gap⟩ := exists_gap_of_skips skips
    rw [split, List.append_nil]
    exact gap

theorem symbol_of_settled {source : List UInt8} {q : Nat} (settled : Settled (source.drop q))
    {b : UInt8} (here : source[q]? = some b) : 0x20 < b ∧ ¬ CommentStarts (source.drop q) := by
  obtain ⟨bound, rfl⟩ := List.getElem?_eq_some_iff.mp here
  rw [List.drop_eq_getElem_cons bound] at settled ⊢
  refine ⟨by simpa [isPrintable] using settled.1, fun starts => ?_⟩
  have comment := (startsComment_iff _).mpr starts
  rw [settled.2] at comment
  cases comment

/-! ### The loop -/

namespace Reader

/-- One round of skipping: blanks, a newline, a comment. -/
def round (r : Reader) : Reader := r.skipBlanks.skipNewline.skipComment

/-- What the loop over the rounds comes to. Nothing bounds it: there is an answer only if some
round is the last one. -/
inductive Rounds : Reader → Bool × Reader → Prop
  | ended {r : Reader} (none : r.round.rest = []) : Rounds r (false, r.round)
  | found {r : Reader} {b : UInt8} {rest : List UInt8} (bytes : r.round.rest = b :: rest)
      (high : 0x20 < b) : Rounds r (true, r.round)
  | dropped {r : Reader} {b : UInt8} {rest : List UInt8} {answer : Bool × Reader}
      (bytes : r.round.rest = b :: rest) (low : b ≤ 0x20) (still : r.round.offset = r.offset)
      (behind : Rounds (r.round.skip 1) answer) : Rounds r answer
  | moved {r : Reader} {b : UInt8} {rest : List UInt8} {answer : Bool × Reader}
      (bytes : r.round.rest = b :: rest) (low : b ≤ 0x20) (further : r.round.offset ≠ r.offset)
      (behind : Rounds r.round answer) : Rounds r answer

theorem onward_round (r : Reader) : r.Onward r.round :=
  ((r.onward_skip (List.takeWhile_sublist _).length_le).trans (onward_skipNewline _)).trans
    (onward_skipComment _)

/-- A round that is not the last one leaves fewer bytes, so as many rounds as there are bytes
suffice. -/
theorem rounds_skipTriviaRounds (rounds : Nat) (r : Reader) (enough : r.remaining < rounds) :
    Rounds r (skipTriviaRounds rounds r) := by
  induction rounds generalizing r with
  | zero => omega
  | succ rounds ih =>
    have onward := r.onward_round
    unfold skipTriviaRounds
    dsimp only
    rw [← round]
    split
    next none => exact .ended none
    next b rest bytes =>
      split
      next printable => exact .found bytes (by simpa [isPrintable] using printable)
      next control =>
        have low : b ≤ 0x20 := (isPrintable_eq_false_iff b).mp (by simpa using control)
        split
        next still =>
          have fewer : (r.round.skip 1).remaining < r.round.remaining :=
            r.round.remaining_skip_lt Nat.one_pos (by simp [bytes])
          refine .dropped bytes low still (ih _ ?_)
          rcases onward with same | closer
          · rw [same] at fewer ⊢
            omega
          · omega
        next further =>
          refine .moved bytes low further (ih _ ?_)
          rcases onward with same | closer
          · exact absurd (congrArg Reader.offset same) further
          · omega

theorem rounds_skipTrivia (r : Reader) : Rounds r r.skipTrivia :=
  rounds_skipTriviaRounds _ r (Nat.lt_succ_self _)

/-! ### Skipping -/

theorem Passes.eq_seek {source bytes : List UInt8} {p line : Nat} {next : Reader}
    (passes : (seek source p line).Passes bytes next) :
    next = seek source (p + bytes.length) (line + newlines bytes) := by
  have rest : source.drop p = bytes ++ next.rest := passes.rest
  apply eq_of_fields
  · show next.rest = source.drop (p + bytes.length)
    rw [← List.drop_drop, rest, List.drop_left]
  · exact passes.offset
  · exact passes.line
  · exact passes.size

/-- Skipping trivia from any position passes the gap that is there. The loop comes to an end; the
answer tells whether the source goes on behind the gap; the line grows by the newlines in the gap;
and skipping once more changes nothing. -/
theorem skipTrivia_passes_gap (source : List UInt8) (p line : Nat) (inside : p ≤ source.length) :
    ∃ q found next, (seek source p line).skipTrivia = (found, next) ∧
      Rounds (seek source p line) (found, next) ∧
      next = seek source q (line + newlines ((source.drop p).take (q - p))) ∧
      GapEnds source p q ∧ (found = true ↔ q < source.length) ∧
      (found = false ∧ q = source.length ↔ Gap [] (source.drop p)) ∧
      next.skipTrivia = (found, next) := by
  obtain ⟨skips, settled, more⟩ := (seek source p line).skipTrivia_skips
  obtain ⟨bytes, passes⟩ := (seek source p line).exists_passes_skipTrivia
  have runs := (seek source p line).rounds_skipTrivia
  have again := (seek source p line).skipTrivia_skipTrivia
  generalize (seek source p line).skipTrivia = answer at skips settled more passes runs again ⊢
  obtain ⟨found, next⟩ := answer
  dsimp only at skips settled more passes again
  -- the reader stands behind the bytes it has passed
  have rest : source.drop p = bytes ++ next.rest := passes.rest
  have slice : (source.drop p).take (p + bytes.length - p) = bytes := by
    rw [rest, Nat.add_sub_cancel_left, List.take_left]
  have behind : source.drop (p + bytes.length) = next.rest := by
    rw [← List.drop_drop, rest, List.drop_left]
  have length : bytes.length + next.rest.length = source.length - p := by
    rw [← List.length_append, ← rest, List.length_drop]
  have goesOn : found = true ↔ p + bytes.length < source.length := by
    rw [more, ← List.length_pos_iff]
    omega
  refine ⟨p + bytes.length, found, next, rfl, runs, ?_, ⟨?_, ?_, ?_, fun b here => ?_⟩, goesOn, ?_,
    again⟩
  · rw [slice]
    exact passes.eq_seek
  · exact Nat.le_add_right _ _
  · omega
  · -- what the skips have passed is a gap, and these are the bytes
    obtain ⟨front, split, gap⟩ := exists_gap_of_skips skips
    have same : front = bytes := List.append_cancel_right (split.symm.trans passes.rest)
    rw [slice, behind, ← same]
    exact gap
  · exact symbol_of_settled (behind ▸ settled) here
  · have ended : found = false ↔ next.rest = [] := by
      rw [← Bool.not_eq_true, more, Decidable.not_not]
    rw [show source.drop p = (seek source p line).rest from rfl, gap_nil_iff skips settled, ended,
      and_iff_left_iff_imp, ← List.length_eq_zero_iff]
    omega

/-- A newline of two bytes, a control byte, a comment that the other two newline bytes end, and a
comment at the end of the source. -/
def brokenLines : List UInt8 := utf8 "x\r\n\x0b // a\n\r;b\r\r# c"

theorem skipTrivia_passes_gap_brokenLines :
    1 ≤ brokenLines.length ∧
      (seek brokenLines 1 1).skipTrivia = (false, seek brokenLines 18 5) ∧
      ∃ q found next, (seek brokenLines 1 1).skipTrivia = (found, next) ∧
        Rounds (seek brokenLines 1 1) (found, next) ∧
        next = seek brokenLines q (1 + newlines ((brokenLines.drop 1).take (q - 1))) ∧
        GapEnds brokenLines 1 q ∧ (found = true ↔ q < brokenLines.length) ∧
        (found = false ∧ q = brokenLines.length ↔ Gap [] (brokenLines.drop 1)) ∧
        next.skipTrivia = (found, next) := by
  have inside : 1 ≤ brokenLines.length := by decide
  exact ⟨inside, by decide, skipTrivia_passes_gap brokenLines 1 1 inside⟩

end Reader
end PixelAsm
