import PixelAsm.Proofs.Lexing

/-!
# Characters and tokens

The reader looks at bytes and does not know of characters of more than one byte. It does not cut
them either. Such characters can only stand in a comment, and a comment is read up to a newline or
to the end of the source. So whatever has been read, it is a text of whole characters.
-/
namespace PixelAsm

open Reader

/-! ### Offsets between characters -/

/-- The bytes in front of the offset are a text themselves. -/
def IsBoundary (source : String) (offset : Nat) : Prop :=
  ∃ front : String, utf8 front = (utf8 source).take offset

theorem isBoundary_zero (source : String) : IsBoundary source 0 := ⟨"", by simp [utf8]⟩

/-- A source can be divided at an offset between characters. -/
theorem IsBoundary.exists_append {source : String} {offset : Nat}
    (boundary : IsBoundary source offset) :
    ∃ front back : String, source = front ++ back ∧ utf8 front = (utf8 source).take offset ∧
      utf8 back = (utf8 source).drop offset := by
  obtain ⟨front, bytes⟩ := boundary
  have split : utf8 source = utf8 front ++ (utf8 source).drop offset := by
    rw [bytes, List.take_append_drop]
  have joined : front.toList.utf8Encode ++ ((utf8 source).drop offset).toByteArray =
      source.toList.utf8Encode := by
    rw [String.utf8Encode_toList, String.utf8Encode_toList]
    apply ByteArray.ext
    apply Array.toList_inj.mp
    simpa [utf8] using split.symm
  obtain ⟨chars, whole⟩ := List.isPrefix_of_utf8Encode_append_eq_utf8Encode _ joined
  have same : source = front ++ String.ofList chars := by
    rw [← String.toList_inj]
    simp [whole]
  refine ⟨front, String.ofList chars, same, bytes, ?_⟩
  have both : utf8 source = utf8 front ++ utf8 (String.ofList chars) := by
    simp [same, utf8]
  exact List.append_cancel_left (both.symm.trans split)

private theorem ascii_char : ∀ n : Fin 128, UInt8.ofNat n &&& 0x80 = 0 ∧
    String.utf8EncodeChar (Char.ofNat n) = [UInt8.ofNat n] := by
  decide

/-- A byte of the first half of their range is a character. -/
theorem isBoundary_of_ascii {source : String} {bytes rest : List UInt8} {b : UInt8}
    (split : utf8 source = bytes ++ b :: rest) (ascii : b < 0x80) :
    IsBoundary source (bytes.length + 1) := by
  obtain ⟨first, encoded⟩ := ascii_char ⟨b.toNat, ascii⟩
  simp only [UInt8.ofNat_toNat] at first encoded
  have length : (utf8 source).length = source.utf8ByteSize := by simp [utf8]
  have inside : bytes.length < source.utf8ByteSize := by
    rw [← length, split]
    simp
  -- such a byte starts a character, so there is a boundary in front of it
  have valid : String.Pos.Raw.IsValid source ⟨bytes.length⟩ := by
    refine String.Pos.Raw.isValid_iff_isUTF8FirstByte.mpr (.inr ⟨inside, .inl ?_⟩)
    have listed : source.toByteArray.data[bytes.length]? = some b := by
      rw [← Array.getElem?_toList]
      show (utf8 source)[bytes.length]? = some b
      simp [split]
    obtain ⟨_, byte⟩ := Array.getElem?_eq_some_iff.mp listed
    rw [String.getUTF8Byte_eq_getElem, ByteArray.getElem_eq_getElem_data, byte]
    exact first
  obtain ⟨front, back, rfl, position⟩ := String.Pos.Raw.isValid_iff_exists_append.mp valid
  have size : bytes.length = (utf8 front).length := by
    have same := congrArg String.Pos.Raw.byteIdx position
    simpa [utf8] using same
  have whole : utf8 front ++ utf8 back = bytes ++ b :: rest := by
    rw [← split]
    simp [utf8]
  obtain ⟨rfl, -⟩ := List.append_inj whole size.symm
  have pushed : utf8 (front.push (Char.ofNat b.toNat)) = utf8 front ++ [b] := by
    simp [utf8, List.utf8Encode_singleton, encoded]
  refine ⟨front.push (Char.ofNat b.toNat), ?_⟩
  rw [pushed, split, List.take_length_add_append]
  rfl

/-! ### Trivia -/

/-- If trivia are passed and not all of the text, the last of their bytes is not printable. -/
theorem Skips.last {bytes after : List UInt8} (skips : Skips bytes after)
    (settled : Settled after) : after = [] ∨ after = bytes ∨
      ∃ front b, bytes = front ++ b :: after ∧ isPrintable b = false := by
  induction skips with
  | here => exact .inr (.inl rfl)
  | @blank b rest after blank _ ih =>
    rcases ih settled with none | rfl | ⟨front, c, rfl, last⟩
    · exact .inl none
    · exact .inr (.inr ⟨[], b, rfl, blank⟩)
    · exact .inr (.inr ⟨b :: front, c, rfl, last⟩)
  | @comment bytes after starts _ ih =>
    rcases ih settled with none | all | ⟨front, b, split, last⟩
    · exact .inl none
    · -- a comment ends in front of a newline, which is trivia again
      have stopped := List.head?_dropWhile_not (!isNewline ·) bytes
      rw [← all] at stopped
      cases after with
      | nil => exact .inl rfl
      | cons b rest =>
        have newline : isNewline b = true := by simpa using stopped
        have printable := settled.1
        rw [blank_of_newline newline] at printable
        cases printable
    · refine .inr (.inr ⟨bytes.takeWhile (!isNewline ·) ++ front, b, ?_, last⟩)
      rw [List.append_assoc, ← split, List.takeWhile_append_dropWhile]

theorem lt_of_isPrintable {b : UInt8} (blank : isPrintable b = false) : b < 0x80 := by
  simp only [isPrintable, decide_eq_false_iff_not, UInt8.lt_iff_toNat_lt, UInt8.reduceToNat]
    at blank ⊢
  omega

namespace IsBoundary

variable {source : String} {start stop : Nat}

/-- Trivia with something behind them end between characters. -/
theorem trivia (boundary : IsBoundary source start)
    (gap : Skips ((utf8 source).drop start) ((utf8 source).drop stop))
    (settled : Settled ((utf8 source).drop stop)) (more : (utf8 source).drop stop ≠ []) :
    IsBoundary source stop := by
  have inside := List.length_pos_iff.mpr more
  rw [List.length_drop] at inside
  rcases gap.last settled with none | same | ⟨front, b, split, blank⟩
  · exact absurd none more
  · have lengths := congrArg List.length same
    rw [List.length_drop, List.length_drop] at lengths
    obtain rfl : stop = start := by omega
    exact boundary
  · have whole : utf8 source =
        ((utf8 source).take start ++ front) ++ b :: (utf8 source).drop stop := by
      rw [List.append_assoc, ← split, List.take_append_drop]
    have lengths := congrArg List.length whole
    rw [List.length_append, List.length_cons, List.length_drop] at lengths
    have ends := isBoundary_of_ascii whole (lt_of_isPrintable blank)
    obtain rfl : stop = ((utf8 source).take start ++ front).length + 1 := by omega
    exact ends

end IsBoundary

/-! ### Tokens -/

theorem Literal.lt_of_mem_bytes {l : Literal} {b : UInt8} (member : b ∈ l.bytes) : b < 0x80 := by
  have digits : ∀ d : Fin 10, digit d < 0x80 := by decide
  rcases of_mem_bytes member with rfl | rfl | ⟨d, rfl⟩
  · decide
  · decide
  · exact digits d

namespace Grammar

variable {g : Grammar} {source : String}

/-- What is written between two offsets ends between characters if it starts so. -/
theorem Written.isBoundary {id : SymbolId} {offset length : Nat}
    (written : g.Written (utf8 source) id offset length)
    (settled : Settled ((utf8 source).drop offset)) (positive : 1 ≤ length)
    (boundary : IsBoundary source offset) : IsBoundary source (offset + length) := by
  unfold Written at written
  split at written
  · obtain ⟨value, number⟩ := written
    rw [Literal.number?_of_settled settled] at number
    obtain ⟨⟨n, width⟩, scanned, same⟩ := Option.map_eq_some_iff.mp number
    cases same
    obtain ⟨l, -, rfl, ⟨more, stands⟩, -⟩ := Literal.scan?_longest scanned
    -- the last byte of the numeral is a character of its own
    obtain ⟨front, b, digits⟩ : ∃ front b, l.bytes = front ++ [b] := by
      rcases List.eq_nil_or_concat l.bytes with none | found
      · simp [none] at positive
      · simpa using found
    have position : l.bytes ++ more = (utf8 source).drop offset := stands
    have whole : utf8 source = ((utf8 source).take offset ++ front) ++ b :: more :=
      calc utf8 source
          = (utf8 source).take offset ++ (utf8 source).drop offset :=
            (List.take_append_drop offset _).symm
        _ = (utf8 source).take offset ++ (l.bytes ++ more) := by rw [position]
        _ = ((utf8 source).take offset ++ front) ++ b :: more := by simp [digits]
    have ends := isBoundary_of_ascii whole (Literal.lt_of_mem_bytes (l := l) (by simp [digits]))
    have inside := congrArg List.length position
    simp only [digits, List.length_append, List.length_drop, List.length_cons, List.length_nil,
      List.length_take] at inside ends ⊢
    rwa [Nat.min_eq_left (by omega), Nat.add_assoc] at ends
  · obtain ⟨text, -, bytes⟩ := written
    obtain ⟨front, before⟩ := boundary
    refine ⟨front ++ text, ?_⟩
    rw [List.take_add, ← before, bytes]
    simp [utf8]

/-- The tokens of a source end between characters. -/
theorem Lexes.isBoundary {start stop : Nat} {ts : List Token}
    (lexes : g.Lexes (utf8 source) start ts stop) (boundary : IsBoundary source start) :
    IsBoundary source stop := by
  induction lexes with
  | nothing => exact boundary
  | @token start stop length t ts own _ ih =>
    have landed := (located (utf8 source) start).skipTrivia_skips
    rw [own.lands] at landed
    obtain ⟨-, settled, found⟩ := landed
    apply ih
    exact own.written.isBoundary settled own.positive
      (boundary.trivia own.gap settled (found.mp rfl))

end Grammar
end PixelAsm
