import PixelAsm.Proofs.Termination

/-!
# Trivia

What may stand between two symbols: bytes up to the blank, and comments, which run up to
the next newline byte. The reader passes all of it and stops in front of a symbol or at
the end of the source, and there is only one such position.
-/
namespace PixelAsm

open Reader

/-- The second bytes are left of the first once some of the trivia in front are passed. -/
inductive Skips : List UInt8 → List UInt8 → Prop
  | here (bytes : List UInt8) : Skips bytes bytes
  | blank {b : UInt8} {rest after : List UInt8} (blank : isPrintable b = false)
      (behind : Skips rest after) : Skips (b :: rest) after
  | comment {bytes after : List UInt8} (starts : startsComment bytes = true)
      (behind : Skips (bytes.dropWhile (!isNewline ·)) after) : Skips bytes after

/-- No trivia stand in front of these bytes. -/
def Settled : List UInt8 → Prop
  | [] => True
  | b :: rest => isPrintable b = true ∧ startsComment (b :: rest) = false

namespace Skips

theorem trans {bytes middle after : List UInt8} (first : Skips bytes middle)
    (second : Skips middle after) : Skips bytes after := by
  induction first with
  | here => exact second
  | blank blank _ ih => exact .blank blank (ih second)
  | comment starts _ ih => exact .comment starts (ih second)

theorem suffix {bytes after : List UInt8} (skips : Skips bytes after) : after <:+ bytes := by
  induction skips with
  | here => exact List.suffix_refl _
  | blank _ _ ih => exact ih.trans (List.suffix_cons _ _)
  | comment _ _ ih => exact ih.trans (List.dropWhile_suffix _)

theorem of_nil {after : List UInt8} (skips : Skips [] after) : after = [] := by
  cases skips with
  | here => rfl
  | comment starts _ => cases starts

/-- A comment starts with a printable byte. -/
theorem printable_of_startsComment {b : UInt8} {rest : List UInt8}
    (starts : startsComment (b :: rest) = true) : isPrintable b = true := by
  unfold startsComment at starts
  split at starts
  next same =>
    obtain ⟨rfl, -⟩ := List.cons.inj same
    decide
  next other _ same =>
    obtain ⟨rfl, -⟩ := List.cons.inj same
    rcases Bool.or_eq_true _ _ |>.mp starts with semicolon | hash
    · rw [eq_of_beq semicolon]
      decide
    · rw [eq_of_beq hash]
      decide
  · cases starts

theorem eq_of_settled {bytes after : List UInt8} (skips : Skips bytes after)
    (settled : Settled bytes) : after = bytes := by
  cases skips with
  | here => rfl
  | blank blank _ => rw [settled.1] at blank; cases blank
  | comment starts _ =>
    cases bytes with
    | nil => cases starts
    | cons b rest => rw [settled.2] at starts; cases starts

/-- There is only one way to pass all trivia. -/
theorem unique {bytes left right : List UInt8} (first : Skips bytes left)
    (second : Skips bytes right) (settledLeft : Settled left) (settledRight : Settled right) :
    left = right := by
  -- the first byte tells which of the two kinds of trivia is next, so both ways agree on it
  induction first with
  | here bytes => exact (second.eq_of_settled settledLeft).symm
  | blank blank behind ih =>
    cases second with
    | here =>
      rw [settledRight.1] at blank
      cases blank
    | blank _ rest => exact ih rest settledLeft
    | comment starts _ =>
      rw [printable_of_startsComment starts] at blank
      cases blank
  | @comment bytes after starts behind ih =>
    cases second with
    | here =>
      have same := (Skips.comment starts behind).eq_of_settled settledRight
      exact same
    | blank blank _ =>
      rw [printable_of_startsComment starts] at blank
      cases blank
    | comment _ rest => exact ih rest settledLeft

theorem of_blanks (bytes : List UInt8) : Skips bytes (bytes.dropWhile isBlank) := by
  induction bytes with
  | nil => exact .here []
  | cons b rest ih =>
    rw [List.dropWhile_cons]
    split
    next blank =>
      refine .blank ?_ ih
      unfold isBlank at blank
      rcases Bool.or_eq_true _ _ |>.mp blank with space | tab
      · rw [eq_of_beq space]
        decide
      · rw [eq_of_beq tab]
        decide
    · exact .here _

theorem blank_of_newline {b : UInt8} (newline : isNewline b = true) : isPrintable b = false := by
  unfold isNewline at newline
  rcases Bool.or_eq_true _ _ |>.mp newline with feed | back
  · rw [eq_of_beq feed]
    decide
  · rw [eq_of_beq back]
    decide

theorem of_newline (bytes : List UInt8) : Skips bytes (bytes.drop (newlineWidth bytes)) := by
  unfold newlineWidth
  split
  · split
    next first =>
      split
      next second =>
        obtain ⟨newline, -⟩ := Bool.and_eq_true _ _ |>.mp second
        exact .blank (blank_of_newline first) (.blank (blank_of_newline newline) (.here _))
      · exact .blank (blank_of_newline first) (.here _)
    · exact .here _
  · split
    next only => exact .blank (blank_of_newline only) (.here _)
    · exact .here _
  · exact .here _

end Skips

namespace Reader

private theorem drop_takeWhile (p : UInt8 → Bool) (bytes : List UInt8) :
    bytes.drop (bytes.takeWhile p).length = bytes.dropWhile p := by
  calc bytes.drop (bytes.takeWhile p).length
      = (bytes.takeWhile p ++ bytes.dropWhile p).drop (bytes.takeWhile p).length := by
        rw [List.takeWhile_append_dropWhile]
    _ = bytes.dropWhile p := List.drop_left

theorem skips_skipBlanks (r : Reader) : Skips r.rest r.skipBlanks.rest := by
  show Skips r.rest (r.rest.drop _)
  rw [drop_takeWhile]
  exact .of_blanks r.rest

theorem skips_skipNewline (r : Reader) : Skips r.rest r.skipNewline.rest := by
  have skips := Skips.of_newline r.rest
  unfold skipNewline
  split
  · exact .here _
  · exact skips

/-- Behind a comment stands a newline byte, if anything. -/
theorem skips_skipComment (r : Reader) : Skips r.rest r.skipComment.rest ∧
    ∀ b rest, r.skipComment.rest = b :: rest → isPrintable b = true →
      startsComment (b :: rest) = false := by
  unfold skipComment
  split
  next starts =>
    have passed : (r.skip (r.rest.takeWhile (!isNewline ·)).length).rest =
        r.rest.dropWhile (!isNewline ·) := drop_takeWhile _ _
    rw [passed]
    refine ⟨.comment starts (.here _), fun b rest found printable => ?_⟩
    -- the comment ends at a newline, which is no printable byte
    have stopped := List.head?_dropWhile_not (!isNewline ·) r.rest
    rw [found] at stopped
    have newline : isNewline b = true := by simpa using stopped
    rw [Skips.blank_of_newline newline] at printable
    cases printable
  next none =>
    refine ⟨.here _, fun b rest found _ => ?_⟩
    rw [← found]
    simpa using none

/-- With enough rounds all trivia are passed. Each round that goes on leaves fewer bytes. -/
theorem skipTriviaRounds_skips (rounds : Nat) (r : Reader) (enough : r.rest.length < rounds) :
    Skips r.rest (skipTriviaRounds rounds r).2.rest ∧
      Settled (skipTriviaRounds rounds r).2.rest ∧
      ((skipTriviaRounds rounds r).1 = true ↔ (skipTriviaRounds rounds r).2.rest ≠ []) := by
  induction rounds generalizing r with
  | zero => omega
  | succ rounds ih =>
    let next := r.skipBlanks.skipNewline.skipComment
    -- one round passes blanks, a newline and a comment, each possibly empty
    obtain ⟨comment, settled⟩ := skips_skipComment r.skipBlanks.skipNewline
    have passed : Skips r.rest next.rest :=
      (r.skips_skipBlanks.trans (skips_skipNewline _)).trans comment
    have reached : r.Reaches next :=
      (r.reaches_skipBlanks.trans (reaches_skipNewline _)).trans (reaches_skipComment _)
    unfold skipTriviaRounds
    dsimp only
    split
    next empty =>
      have none : next.rest = [] := empty
      rw [none] at passed
      rw [empty]
      exact ⟨passed, trivial, by simp⟩
    next b rest found =>
      have bytes : next.rest = b :: rest := found
      split
      next printable =>
        rw [found]
        rw [bytes] at passed
        exact ⟨passed, ⟨printable, settled b rest found printable⟩, by simp⟩
      next control =>
        have unprintable : isPrintable b = false := by simpa using control
        have length : next.rest.length = rest.length + 1 := by rw [bytes]; rfl
        have left := next.length_rest
        have whole := r.length_rest
        obtain ⟨size, forward⟩ := reached
        -- a control byte is passed either by itself or because the round has moved
        have notEmpty : r.rest ≠ [] := by
          intro none
          rw [none] at passed
          rw [passed.of_nil] at bytes
          cases bytes
        have some : 0 < r.rest.length := List.length_pos_iff.mpr notEmpty
        have here := forward (by omega)
        split
        next still =>
          have shorter : (next.skip 1).rest = rest := by
            show next.rest.drop 1 = rest
            rw [bytes]
            rfl
          obtain ⟨behind, result⟩ := ih (next.skip 1) (by rw [shorter]; omega)
          rw [shorter] at behind
          refine ⟨passed.trans ?_, result⟩
          rw [bytes]
          exact .blank unprintable behind
        next moved =>
          -- the offset has grown, so the bytes left have become fewer
          have further : next.offset ≠ r.offset := moved
          obtain ⟨behind, result⟩ := ih next (by omega)
          exact ⟨passed.trans behind, result⟩

/-- The reader passes all trivia and tells whether a symbol follows. -/
theorem skipTrivia_skips (r : Reader) : Skips r.rest r.skipTrivia.2.rest ∧
    Settled r.skipTrivia.2.rest ∧ (r.skipTrivia.1 = true ↔ r.skipTrivia.2.rest ≠ []) := by
  have bytes := r.length_rest
  exact skipTriviaRounds_skips _ r (by unfold remaining; omega)

end Reader
end PixelAsm
