/-!
# Reading position

A `Reader` stands at a byte of the source and sees the bytes that follow. Moving
it never looks back, so returning to an earlier position is keeping the earlier
reader. Blanks, newlines, comments and stray control bytes between two symbols
are trivia.
-/
namespace PixelAsm

/-- The bytes of a text in its UTF-8 form. -/
def utf8 (text : String) : List UInt8 := text.toByteArray.data.toList

/-- A position in a source of `size` bytes. Lines count from one, without a bound. A
counter of 32 bits counts the same, as no source with so many lines is read at all. -/
structure Reader where
  rest : List UInt8
  offset : Nat
  line : Nat
  size : Nat
  length_rest : rest.length = size - offset
  deriving DecidableEq, Repr

namespace Reader

/-- The reader at a given offset, which may lie past the end of the source. -/
def seek (source : List UInt8) (offset line : Nat) : Reader :=
  { rest := source.drop offset, offset, line, size := source.length
    length_rest := List.length_drop }

def start (source : List UInt8) : Reader := seek source 0 1

/-- Moves over bytes that are known to be there. -/
def skip (r : Reader) (count : Nat) : Reader :=
  { r with
    rest := r.rest.drop count
    offset := r.offset + count
    length_rest := by rw [List.length_drop, r.length_rest]; omega }

/-- Moves over at most the bytes that remain. -/
def advance (r : Reader) (count : Nat) : Reader :=
  { r with
    rest := r.rest.drop count
    offset := min (r.offset + count) r.size
    length_rest := by rw [List.length_drop, r.length_rest]; omega }

def isAtEnd (r : Reader) : Bool := r.size ≤ r.offset

def remaining (r : Reader) : Nat := r.size - r.offset

def isBlank (b : UInt8) : Bool := b == 0x20 || b == 0x09

def isNewline (b : UInt8) : Bool := b == 0x0A || b == 0x0D

/-- Bytes up to the blank separate symbols; the bytes above it can start one. -/
def isPrintable (b : UInt8) : Bool := 0x20 < b

def skipBlanks (r : Reader) : Reader := r.skip (r.rest.takeWhile isBlank).length

/-- The two newline bytes in either order are one newline. -/
def newlineWidth : List UInt8 → Nat
  | first :: second :: _ =>
    if isNewline first then
      if isNewline second && second != first then 2 else 1
    else 0
  | [only] => if isNewline only then 1 else 0
  | [] => 0

def skipNewline (r : Reader) : Reader :=
  match newlineWidth r.rest with
  | 0 => r
  | width => { r.skip width with line := r.line + 1 }

/-- Comments start with `//`, `;` or `#`. -/
def startsComment : List UInt8 → Bool
  | 0x2F :: 0x2F :: _ => true
  | b :: _ => b == 0x3B || b == 0x23
  | [] => false

/-- A comment ends in front of the next newline byte. -/
def skipComment (r : Reader) : Reader :=
  if startsComment r.rest then r.skip (r.rest.takeWhile (!isNewline ·)).length else r

/-- One round skips blanks, then a newline, then a comment; a round that skips
nothing drops a control byte. Each round moves, so the count of remaining bytes
bounds the rounds. -/
def skipTriviaRounds : Nat → Reader → Bool × Reader
  | 0, r => (!r.rest.isEmpty, r)
  | rounds + 1, r =>
    let next := r.skipBlanks.skipNewline.skipComment
    match next.rest with
    | [] => (false, next)
    | b :: _ =>
      if isPrintable b then (true, next)
      else if next.offset = r.offset then skipTriviaRounds rounds (next.skip 1)
      else skipTriviaRounds rounds next

/-- Moves to the next symbol and tells whether there is one. -/
def skipTrivia (r : Reader) : Bool × Reader := skipTriviaRounds (r.remaining + 1) r

/-- Whether a literal stands here. The empty literal stands nowhere. -/
def isAtLiteral (r : Reader) (text : String) : Bool :=
  !text.isEmpty && (utf8 text).isPrefixOf r.rest

end Reader
end PixelAsm
