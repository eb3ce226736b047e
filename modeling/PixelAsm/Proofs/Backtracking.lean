import PixelAsm.Proofs.Trivia

/-!
# What backtracking gives back

An attempt only adds to what has been accepted, so cutting back to the sizes at a rule's
entry gives exactly the progress at the entry. An attempt that has not moved the reader has
changed nothing at all: whatever is accepted takes at least one byte.
-/
namespace PixelAsm

/-! ### Readers stay or come closer to the end -/

namespace Reader

/-- The second reader is the first, or fewer bytes remain for it. -/
def Onward (r s : Reader) : Prop := s = r ∨ s.remaining < r.remaining

theorem Onward.refl (r : Reader) : r.Onward r := .inl rfl

theorem Onward.trans {r s t : Reader} (first : r.Onward s) (second : s.Onward t) :
    r.Onward t := by
  rcases first with rfl | closer
  · exact second
  · rcases second with rfl | further
    · exact .inr closer
    · exact .inr (Nat.lt_trans further closer)

theorem remaining_skip_lt (r : Reader) {count : Nat} (some : 0 < count)
    (enough : count ≤ r.rest.length) : (r.skip count).remaining < r.remaining := by
  have bytes := r.length_rest
  show r.size - (r.offset + count) < r.size - r.offset
  omega

theorem onward_skip (r : Reader) {count : Nat} (enough : count ≤ r.rest.length) :
    r.Onward (r.skip count) := by
  rcases Nat.eq_zero_or_pos count with rfl | some
  · exact .inl rfl
  · exact .inr (r.remaining_skip_lt some enough)

theorem remaining_advance_lt (r : Reader) {count : Nat} (some : 0 < count)
    (bytes : r.rest ≠ []) : (r.advance count).remaining < r.remaining := by
  have length := r.length_rest
  have more := List.length_pos_iff.mpr bytes
  show r.size - min (r.offset + count) r.size < r.size - r.offset
  omega

theorem onward_skipNewline (r : Reader) : r.Onward r.skipNewline := by
  have enough := newlineWidth_le r.rest
  unfold skipNewline
  split
  · exact .refl r
  next width some => exact .inr (r.remaining_skip_lt (Nat.pos_of_ne_zero some) enough)

theorem onward_skipComment (r : Reader) : r.Onward r.skipComment := by
  unfold skipComment
  split
  · exact r.onward_skip (List.takeWhile_sublist _).length_le
  · exact .refl r

theorem onward_skipTriviaRounds (rounds : Nat) (r : Reader) :
    r.Onward (skipTriviaRounds rounds r).2 := by
  induction rounds generalizing r with
  | zero => exact .refl r
  | succ rounds ih =>
    have moved : r.Onward r.skipBlanks.skipNewline.skipComment :=
      ((r.onward_skip (List.takeWhile_sublist _).length_le).trans (onward_skipNewline _)).trans
        (onward_skipComment _)
    unfold skipTriviaRounds
    dsimp only
    split
    · exact moved
    next b rest bytes =>
      have more : 1 ≤ r.skipBlanks.skipNewline.skipComment.rest.length := by
        simp [bytes]
      split
      · exact moved
      · split
        · exact (moved.trans (onward_skip _ more)).trans (ih _)
        · exact moved.trans (ih _)

theorem onward_skipTrivia (r : Reader) : r.Onward r.skipTrivia.2 := onward_skipTriviaRounds _ r

end Reader

/-- A numeral takes at least one byte. -/
theorem Numeral.scan?_length_pos {bytes : List UInt8} {n : Numeral} {length : Nat}
    (scanned : scan? bytes = some (n, length)) : 0 < length := by
  have unsigned {negative : Bool} {text : List UInt8} {n : Numeral} {length : Nat}
      (scanned : unsigned? negative text = some (n, length)) : 0 < length := by
    unfold unsigned? at scanned
    dsimp only at scanned
    split at scanned
    · cases scanned
    next some =>
      cases scanned
      cases whole : text.takeWhile isDigit with
      | cons b rest =>
        rw [List.length_cons]
        omega
      | nil =>
        -- without digits in front there is a point
        unfold fraction at some ⊢
        split at some
        · simp [whole] at some
        · split at some
          next point => simp [point]
          · simp [whole] at some
  unfold scan? at scanned
  split at scanned
  · cases scanned
  · split at scanned
    · obtain ⟨⟨m, k⟩, -, same⟩ := Option.map_eq_some_iff.mp scanned
      cases same
      exact Nat.succ_pos k
    · exact unsigned scanned

namespace Reader

theorem number?_length_pos {r : Reader} {value : Binary32} {length : Nat}
    (number : r.number? = some (value, length)) : 0 < length := by
  obtain ⟨⟨n, width⟩, scanned, same⟩ := Option.map_eq_some_iff.mp number
  cases same
  have positive := Numeral.scan?_length_pos scanned
  omega

theorem length_pos_of_isAtLiteral {r : Reader} {text : String}
    (literal : r.isAtLiteral text = true) : 0 < text.utf8ByteSize := by
  have notEmpty := (Bool.and_eq_true _ _ |>.mp literal).1
  apply Nat.pos_of_ne_zero
  intro zero
  simp [String.isEmpty, zero] at notEmpty

end Reader

/-! ### Progress that keeps what has been accepted -/

namespace Trail

variable {α : Type}

theorem truncate_of_suffix {s t : Trail α} (kept : s.newestFirst <:+ t.newestFirst) :
    t.truncate s.size = s := by
  obtain ⟨added, grown⟩ := kept
  have sizes : t.size = added.length + s.size := by
    rw [t.size_eq, ← grown, List.length_append, s.size_eq]
  apply Trail.ext
  unfold truncate
  split
  · have dropped : t.size - s.size = added.length := by omega
    simp [dropped, ← grown]
  · have none : added = [] := List.length_eq_zero_iff.mp (by omega)
    simpa [none] using grown.symm

end Trail

namespace Progress

/-- The second progress keeps all that the first has accepted, and is the first if the
reader has not moved. -/
structure Follows (p q : Progress) : Prop where
  tokens : p.tokens.newestFirst <:+ q.tokens.newestFirst
  constants : p.constants.newestFirst <:+ q.constants.newestFirst
  moved : q = p ∨ q.reader.remaining < p.reader.remaining

theorem Follows.refl (p : Progress) : p.Follows p :=
  ⟨List.suffix_refl _, List.suffix_refl _, .inl rfl⟩

theorem Follows.trans {p q r : Progress} (first : p.Follows q) (second : q.Follows r) :
    p.Follows r := by
  refine ⟨first.tokens.trans second.tokens, first.constants.trans second.constants, ?_⟩
  rcases first.moved with rfl | closer
  · exact second.moved
  · rcases second.moved with rfl | further
    · exact .inr closer
    · exact .inr (Nat.lt_trans further closer)

/-- Going back to the mark of an earlier progress gives that progress. -/
theorem Follows.rollback {p q : Progress} (follows : p.Follows q) : q.rollback p.mark = p := by
  simp only [Progress.rollback, mark, Trail.truncate_of_suffix follows.tokens,
    Trail.truncate_of_suffix follows.constants]

/-- Progress at another offset has read a byte. -/
theorem Follows.remaining_lt {p q : Progress} (follows : p.Follows q)
    (moved : q.reader.offset ≠ p.reader.offset) : q.reader.remaining < p.reader.remaining := by
  rcases follows.moved with rfl | closer
  · exact absurd rfl moved
  · exact closer

theorem follows_of_reader {p : Progress} {reader : Reader} (onward : p.reader.Onward reader) :
    p.Follows { p with reader } := by
  refine ⟨List.suffix_refl _, List.suffix_refl _, ?_⟩
  rcases onward with rfl | closer
  · exact .inl rfl
  · exact .inr closer

/-- Accepting a terminal where bytes remain moves the reader. -/
theorem follows_accept (p : Progress) (definition : SymbolDef) (id rule : SymbolId)
    {length : Nat} (some : 0 < length) (bytes : p.reader.rest ≠ []) :
    p.Follows (p.accept definition id rule length) :=
  ⟨List.suffix_cons _ _, List.suffix_refl _, .inr (p.reader.remaining_advance_lt some bytes)⟩

end Progress

namespace Grammar

/-- Whatever the verdict, the attempt keeps what has been accepted before. -/
def Keeps (attempt : Progress → Attempt) : Prop := Respects Progress.Follows attempt

theorem lasting_follows : Lasting Progress.Follows where
  refl := .refl
  trans := .trans
  rollback follows := by
    rw [follows.rollback]
    exact .refl _

theorem follows_matchTerminal (g : Grammar) (term : Term) (definition : SymbolDef)
    (rule : SymbolId) (p : Progress) :
    p.Follows (g.matchTerminal term definition rule p).2 := by
  have skipped : p.Follows { p with reader := p.reader.skipTrivia.2 } :=
    Progress.follows_of_reader p.reader.onward_skipTrivia
  obtain ⟨-, -, found⟩ := p.reader.skipTrivia_skips
  unfold matchTerminal
  dsimp only
  split
  · exact skipped
  next some =>
    have bytes : p.reader.skipTrivia.2.rest ≠ [] := found.mp (by simpa using some)
    split
    · split
      next value length number =>
        have positive := Reader.number?_length_pos number
        -- the constant is pushed in front of the token, and both keep what was there
        refine skipped.trans ⟨List.suffix_cons _ _, List.suffix_cons _ _, .inr ?_⟩
        exact Reader.remaining_advance_lt _ positive bytes
      · exact skipped
    · split
      next text known =>
        split
        next literal =>
          have positive := Reader.length_pos_of_isAtLiteral literal
          exact skipped.trans (Progress.follows_accept _ _ _ _ positive bytes)
        · exact skipped
      · exact skipped

theorem matchTerm_keeps (g : Grammar) {enter : Nat → Progress → Attempt}
    (entered : ∀ index, Keeps (enter index)) (rule : SymbolId) (term : Term) :
    Keeps (g.matchTerm enter rule term) :=
  matchTerm_respects lasting_follows g g.follows_matchTerminal entered rule term

theorem matchMany_keeps {attempt : Progress → Attempt} (keeps : Keeps attempt) (rounds : Nat)
    (matched : Bool) : Keeps (matchMany attempt rounds matched) :=
  matchMany_respects lasting_follows keeps rounds matched

theorem matchRule_keeps (g : Grammar) (depth index : Nat) : Keeps (g.matchRule depth index) :=
  matchRule_respects lasting_follows g g.follows_matchTerminal depth index

/-- A rule that fails gives back all it has added to its entry. -/
theorem matchRule_restores (g : Grammar) {depth index : Nat} {p next : Progress}
    (failed : g.matchRule depth index p = some (false, next)) : next = p := by
  cases depth with
  | zero => cases failed
  | succ depth =>
    unfold matchRule at failed
    split at failed
    next symbol body opens =>
      split at failed
      · cases failed
      · cases failed
      next last found =>
        cases failed
        have follows : p.Follows last :=
          matchSteps_respects lasting_follows
            (g.matchTerm_keeps (g.matchRule_keeps depth) symbol) body true (.refl p) found
        exact follows.rollback
    · cases failed
      rfl

end Grammar
end PixelAsm
