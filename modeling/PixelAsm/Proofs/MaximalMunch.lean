import Mathlib.Computability.RegularExpressions
import PixelAsm.Proofs.Numerals

/-!
# Numerals as words of a regular language

A numeral is a word of `-?([0-9]+(\.[0-9]*)?|\.[0-9]+)`. Of the words of this language at the
beginning of a text the reader takes the longest. It finds it in one pass from left to right: a
sign, digits, a point, digits, each as far as they go. Trying the beginnings of the text one after
the other, the longest first, and taking the first that reads as a number comes to the same.
-/
namespace PixelAsm

open RegularExpression

namespace Numeral

/-! ### The language -/

/-- Any one of some bytes. -/
def anyOf (bytes : List UInt8) : RegularExpression UInt8 :=
  bytes.foldr (fun b others => char b + others) 0

def digitBytes : List UInt8 := [0x30, 0x31, 0x32, 0x33, 0x34, 0x35, 0x36, 0x37, 0x38, 0x39]

def anyDigits : RegularExpression UInt8 := star (anyOf digitBytes)

def someDigits : RegularExpression UInt8 := anyOf digitBytes * anyDigits

/-- `-?([0-9]+(\.[0-9]*)?|\.[0-9]+)` -/
def expression : RegularExpression UInt8 :=
  (1 + char 0x2D) *
    (someDigits * (1 + char 0x2E * anyDigits) + char 0x2E * someDigits)

def words : Language UInt8 := expression.matches'

instance : DecidablePred (· ∈ words) := inferInstanceAs (DecidablePred (· ∈ expression.matches'))

theorem mem_anyOf {bytes word : List UInt8} :
    word ∈ (anyOf bytes).matches' ↔ ∃ b ∈ bytes, word = [b] := by
  induction bytes with
  | nil => simp [anyOf, Language.notMem_zero]
  | cons b others ih =>
    have split : (anyOf (b :: others)).matches' = {[b]} + (anyOf others).matches' := rfl
    rw [split, Language.mem_add, ih, List.exists_mem_cons_iff]
    rfl

theorem mem_star_anyOf {bytes word : List UInt8} :
    word ∈ (star (anyOf bytes)).matches' ↔ ∀ b ∈ word, b ∈ bytes := by
  rw [matches'_star, Language.mem_kstar]
  constructor
  · rintro ⟨parts, rfl, each⟩ b member
    obtain ⟨part, inside, own⟩ := List.mem_flatten.mp member
    obtain ⟨c, listed, rfl⟩ := mem_anyOf.mp (each part inside)
    obtain rfl : b = c := by simpa using own
    exact listed
  · intro each
    refine ⟨word.map ([·]), by simp [← List.flatMap_def], fun part inside => ?_⟩
    obtain ⟨b, member, rfl⟩ := List.mem_map.mp inside
    exact mem_anyOf.mpr ⟨b, each b member, rfl⟩

theorem mem_digitBytes {b : UInt8} : b ∈ digitBytes ↔ isDigit b = true := by
  simp only [digitBytes, List.mem_cons, List.not_mem_nil, or_false, ← UInt8.toNat_inj, isDigit,
    Bool.and_eq_true, decide_eq_true_eq, UInt8.le_iff_toNat_le, UInt8.reduceToNat]
  omega

theorem mem_anyDigits {word : List UInt8} :
    word ∈ anyDigits.matches' ↔ ∃ digits : List (Fin 10), digits.map Literal.digit = word := by
  rw [anyDigits, mem_star_anyOf]
  constructor
  · intro each
    exact Literal.exists_digits fun b member => mem_digitBytes.mp (each b member)
  · rintro ⟨digits, rfl⟩ b member
    exact mem_digitBytes.mpr (Literal.isDigit_map digits b member)

theorem mem_someDigits {word : List UInt8} :
    word ∈ someDigits.matches' ↔
      ∃ digits : List (Fin 10), digits ≠ [] ∧ digits.map Literal.digit = word := by
  rw [someDigits, matches'_mul, Language.mem_mul]
  constructor
  · rintro ⟨first, one, others, more, rfl⟩
    obtain ⟨b, isOne, rfl⟩ := mem_anyOf.mp one
    obtain ⟨digits, rfl⟩ := mem_anyDigits.mp more
    have alone : ∀ c ∈ [b], isDigit c = true := by simpa using mem_digitBytes.mp isOne
    obtain ⟨d, same⟩ := Literal.exists_digits alone
    refine ⟨d ++ digits, ?_, by simp [same]⟩
    intro empty
    simp [(List.append_eq_nil_iff.mp empty).1] at same
  · rintro ⟨digits, some, rfl⟩
    cases digits with
    | nil => exact absurd rfl some
    | cons d others =>
      refine ⟨[Literal.digit d], mem_anyOf.mpr ⟨_, ?_, rfl⟩, others.map Literal.digit,
        mem_anyDigits.mpr ⟨others, rfl⟩, rfl⟩
      exact mem_digitBytes.mpr (Literal.isDigit_digit d)

/-- The words of the language are the literals. -/
theorem mem_words_iff {word : List UInt8} : word ∈ words ↔ ∃ l : Literal, l.bytes = word := by
  have point {tail : List UInt8} : tail ∈ (1 + char 0x2E * anyDigits).matches' ↔
      ∃ fraction?, Literal.point fraction? = tail := by
    rw [matches'_add, matches'_mul, Language.mem_add, Language.mem_mul]
    constructor
    · rintro (none | ⟨dot, isDot, digits, more, rfl⟩)
      · exact ⟨.none, (Language.mem_one _).mp none |>.symm⟩
      · obtain ⟨behind, rfl⟩ := mem_anyDigits.mp more
        obtain rfl : dot = [0x2E] := isDot
        exact ⟨some behind, rfl⟩
    · rintro ⟨_ | behind, rfl⟩
      · exact .inl ((Language.mem_one _).mpr rfl)
      · exact .inr ⟨[0x2E], rfl, _, mem_anyDigits.mpr ⟨behind, rfl⟩, rfl⟩
  have sign {lead : List UInt8} : lead ∈ (1 + char 0x2D : RegularExpression UInt8).matches' ↔
      ∃ negative, Literal.sign negative = lead := by
    rw [matches'_add, Language.mem_add]
    constructor
    · rintro (none | minus)
      · exact ⟨false, (Language.mem_one _).mp none |>.symm⟩
      · exact ⟨true, Eq.symm minus⟩
    · rintro ⟨_ | _, rfl⟩
      · exact .inl ((Language.mem_one _).mpr rfl)
      · exact .inr rfl
  rw [words, expression, matches'_mul, Language.mem_mul]
  constructor
  · rintro ⟨lead, signed, tail, unsigned, rfl⟩
    obtain ⟨negative, rfl⟩ := sign.mp signed
    rw [matches'_add, Language.mem_add, matches'_mul, matches'_mul] at unsigned
    rcases unsigned with ⟨front, digits, behind, rest, rfl⟩ | ⟨dot, isDot, behind, digits, rfl⟩
    · obtain ⟨whole, some, rfl⟩ := mem_someDigits.mp digits
      obtain ⟨fraction?, rfl⟩ := point.mp rest
      exact ⟨⟨negative, whole, fraction?, .inl some⟩, rfl⟩
    · obtain ⟨fraction, some, rfl⟩ := mem_someDigits.mp digits
      obtain rfl : dot = [0x2E] := isDot
      exact ⟨⟨negative, [], .some fraction, .inr some⟩, rfl⟩
  · rintro ⟨⟨negative, whole, fraction?, has⟩, rfl⟩
    refine ⟨_, sign.mpr ⟨negative, rfl⟩, _, ?_, rfl⟩
    rw [matches'_add, Language.mem_add, matches'_mul, matches'_mul]
    by_cases some : whole = []
    · -- without digits in front there is a point with digits behind it
      subst some
      cases fraction? with
      | none => simp at has
      | some behind =>
        refine .inr ⟨[0x2E], rfl, _, mem_someDigits.mpr ⟨behind, ?_, rfl⟩, rfl⟩
        simpa using has
    · exact .inl ⟨_, mem_someDigits.mpr ⟨whole, some, rfl⟩, _, point.mpr ⟨fraction?, rfl⟩, rfl⟩

/-! ### The number that a word denotes -/

/-- The digits of the word with as many places as there are bytes behind its point, rounded to the
nearest number of single precision. -/
def denoted (word : List UInt8) : Binary32 :=
  Binary32.ofRatio (word.head? == some 0x2D) (valueOfDigits (word.filter isDigit))
    (Nat.pow 10 (word.dropWhile (· != 0x2E)).tail.length)

theorem denoted_bytes (l : Literal) : denoted l.bytes = l.value := by
  have negative : (l.bytes.head? == some 0x2D) = l.negative := by
    cases signed : l.negative with
    | true => simp [Literal.bytes, Literal.sign, signed]
    | false =>
      have first := l.head_ne_sign signed []
      rw [List.append_nil] at first
      cases start : l.bytes.head? with
      | none => rfl
      | some b => simpa using first b start
  -- neither the sign nor the point is a digit
  have digits : l.bytes.filter isDigit = (l.whole ++ l.fraction?.getD []).map Literal.digit := by
    have all (ds : List (Fin 10)) : (ds.map Literal.digit).filter isDigit = ds.map Literal.digit :=
      List.filter_eq_self.mpr (Literal.isDigit_map ds)
    have sign : ∀ negative, (Literal.sign negative).filter isDigit = [] := by decide
    cases fraction? : l.fraction? with
    | none => simp [Literal.bytes, Literal.point, fraction?, sign, all]
    | some behind =>
      have point : isDigit 0x2E = false := by decide
      simp [Literal.bytes, Literal.point, fraction?, sign, all, point]
  -- the point is the first byte that is neither a sign nor a digit
  have places : (l.bytes.dropWhile (· != 0x2E)).tail.length = (l.fraction?.getD []).length := by
    have front : ∀ b ∈ Literal.sign l.negative ++ l.whole.map Literal.digit,
        (b != 0x2E) = true := by
      intro b member
      have sign : ∀ negative, (Literal.sign negative).all (· != 0x2E) = true := by decide
      have digit : ∀ d : Fin 10, (Literal.digit d != 0x2E) = true := by decide
      rcases List.mem_append.mp member with own | whole
      · exact List.all_eq_true.mp (sign l.negative) b own
      · obtain ⟨d, -, rfl⟩ := List.mem_map.mp whole
        exact digit d
    rw [Literal.bytes, ← List.append_assoc, List.dropWhile_append_of_pos front]
    cases l.fraction? with
    | none => rfl
    | some behind => simp [Literal.point]
  rw [denoted, negative, digits, places, Literal.valueOfDigits_map]
  rfl

/-! ### The longest word -/

/-- A word of the language stands at the beginning of the text, and no longer one does. -/
structure Longest (text word : List UInt8) : Prop where
  numeral : word ∈ words
  stands : word <+: text
  longest : ∀ other ∈ words, other <+: text → other.length ≤ word.length

theorem Longest.unique {text word other : List UInt8} (one : Longest text word)
    (two : Longest text other) : word = other := by
  have less := two.longest word one.numeral one.stands
  have more := one.longest other two.numeral two.stands
  have within := List.prefix_of_prefix_length_le one.stands two.stands less
  exact within.eq_of_length (Nat.le_antisymm less more)

/-- Where a literal stands something is found. -/
theorem scan?_ne_none {text : List UInt8} {l : Literal} (stands : l.bytes <+: text) :
    scan? text ≠ none := by
  have unsigned (negative : Bool) {text : List UInt8}
      (stands : l.whole.map Literal.digit ++ Literal.point l.fraction? <+: text) :
      unsigned? negative text ≠ none := by
    obtain ⟨more, rfl⟩ := stands
    rw [List.append_assoc]
    unfold unsigned?
    rw [List.takeWhile_append_of_pos (Literal.isDigit_map _),
      List.dropWhile_append_of_pos (Literal.isDigit_map _)]
    rcases l.has_digit with whole | behind
    · simp [whole]
    · cases fraction? : l.fraction? with
      | none => simp [fraction?] at behind
      | some digits =>
        have point : isDigit 0x2E = false := by decide
        have some : digits ≠ [] := by simpa [fraction?] using behind
        simp [Literal.point, fraction, point, List.takeWhile_append_of_pos (Literal.isDigit_map _),
          some]
  cases negative : l.negative with
  | true =>
    rw [Literal.bytes, negative] at stands
    obtain ⟨more, rfl⟩ := stands
    have found := unsigned true (List.prefix_append _ more)
    simpa [Literal.sign, scan?] using found
  | false =>
    have first := l.head_ne_sign negative
    obtain ⟨more, rfl⟩ := stands
    have bytes : l.bytes = l.whole.map Literal.digit ++ Literal.point l.fraction? := by
      simp [Literal.bytes, Literal.sign, negative]
    have found := unsigned false (List.prefix_append _ more)
    rw [← bytes] at found
    cases whole : l.bytes ++ more with
    | nil => simp [whole, unsigned?, fraction] at found
    | cons b rest =>
      have noSign : b ≠ 0x2D := first more b (by simp [whole])
      rw [whole] at found
      simpa [scan?, noSign] using found

theorem scan?_eq_none_iff {text : List UInt8} :
    scan? text = none ↔ ∀ word ∈ words, ¬ word <+: text := by
  constructor
  · intro none word member stands
    obtain ⟨l, rfl⟩ := mem_words_iff.mp member
    exact scan?_ne_none stands none
  · intro without
    cases found : scan? text with
    | none => rfl
    | some result =>
      obtain ⟨l, -, -, stands, -⟩ := Literal.scan?_longest found
      exact absurd stands (without l.bytes (mem_words_iff.mpr ⟨l, rfl⟩))

theorem longest_of_scan? {text : List UInt8} {n : Numeral} {length : Nat}
    (found : scan? text = some (n, length)) :
    ∃ word, Longest text word ∧ word.length = length ∧ denoted word = n.value := by
  obtain ⟨l, rfl, rfl, stands, longest⟩ := Literal.scan?_longest found
  refine ⟨l.bytes, ⟨mem_words_iff.mpr ⟨l, rfl⟩, stands, fun other member front => ?_⟩, rfl,
    denoted_bytes l⟩
  obtain ⟨m, rfl⟩ := mem_words_iff.mp member
  exact longest m front

/-! ### One pass from left to right -/

/-- A point and the digits behind it, if there is one. -/
def greedyFraction : List UInt8 → List UInt8
  | [] => []
  | b :: rest => if b = 0x2E then b :: rest.takeWhile isDigit else []

/-- Digits, and behind a point more digits, each as far as they go. -/
def greedyDigits (text : List UInt8) : List UInt8 :=
  text.takeWhile isDigit ++ greedyFraction (text.dropWhile isDigit)

/-- A sign, if there is one, and then digits. -/
def greedy : List UInt8 → List UInt8
  | [] => []
  | b :: text => if b = 0x2D then b :: greedyDigits text else greedyDigits (b :: text)

theorem isPrefix_greedyFraction (text : List UInt8) : greedyFraction text <+: text := by
  cases text with
  | nil => exact List.nil_prefix
  | cons b rest =>
    rw [greedyFraction]
    split
    · exact List.cons_prefix_cons.mpr ⟨rfl, List.takeWhile_prefix _⟩
    · exact List.nil_prefix

theorem isPrefix_greedyDigits (text : List UInt8) : greedyDigits text <+: text := by
  have behind := isPrefix_greedyFraction (text.dropWhile isDigit)
  have whole := (List.prefix_append_right_inj (text.takeWhile isDigit)).mpr behind
  rwa [List.takeWhile_append_dropWhile] at whole

theorem isPrefix_greedy (text : List UInt8) : greedy text <+: text := by
  cases text with
  | nil => exact List.nil_prefix
  | cons b rest =>
    rw [greedy]
    split
    · exact List.cons_prefix_cons.mpr ⟨rfl, isPrefix_greedyDigits rest⟩
    · exact isPrefix_greedyDigits (b :: rest)

theorem length_greedyDigits {negative : Bool} {text : List UInt8} {n : Numeral} {length : Nat}
    (found : unsigned? negative text = some (n, length)) :
    (greedyDigits text).length = length := by
  have width (behind : List UInt8) : (greedyFraction behind).length = (fraction behind).2 := by
    cases behind with
    | nil => rfl
    | cons b rest => by_cases isPoint : b = 0x2E <;> simp [greedyFraction, fraction, isPoint]
  unfold unsigned? at found
  dsimp only at found
  split at found
  · cases found
  · cases found
    rw [greedyDigits, List.length_append, width]

/-- What the pass takes is what is found. -/
theorem length_greedy {text : List UInt8} {n : Numeral} {length : Nat}
    (found : scan? text = some (n, length)) : (greedy text).length = length := by
  cases text with
  | nil => cases found
  | cons b rest =>
    by_cases signed : b = 0x2D
    · subst b
      obtain ⟨⟨_, width⟩, read, same⟩ := Option.map_eq_some_iff.mp found
      cases same
      simp [greedy, length_greedyDigits read]
    · have read : unsigned? false (b :: rest) = some (n, length) := by
        simpa [scan?, signed] using found
      simp [greedy, signed, length_greedyDigits read]

theorem Longest.eq_greedy {text word : List UInt8} (longest : Longest text word) :
    word = greedy text := by
  cases found : scan? text with
  | none => exact absurd longest.stands (scan?_eq_none_iff.mp found word longest.numeral)
  | some result =>
    obtain ⟨n, length⟩ := result
    obtain ⟨other, also, width, -⟩ := longest_of_scan? found
    rw [longest.unique also, List.prefix_iff_eq_take.mp also.stands, width,
      ← length_greedy found]
    exact (List.prefix_iff_eq_take.mp (isPrefix_greedy text)).symm

/-! ### Trying beginnings -/

/-- A byte that can be a part of a numeral. -/
def isPart (b : UInt8) : Bool := isDigit b || b == 0x2E || b == 0x2D

/-- The number that a text denotes, if it is a numeral as a whole. -/
def parse? (text : List UInt8) : Option Binary32 :=
  if text ∈ words then some (denoted text) else none

/-- Of the beginnings of a text up to some length, down to a single byte, the first that reads as
a number. -/
def search? (text : List UInt8) : (length : Nat) → Option (Binary32 × Nat)
  | 0 => none
  | length + 1 =>
    match parse? (text.take (length + 1)) with
    | some value => some (value, length + 1)
    | none => search? text length

theorem isPart_of_mem_words {word : List UInt8} (numeral : word ∈ words) :
    ∀ b ∈ word, isPart b = true := by
  obtain ⟨l, rfl⟩ := mem_words_iff.mp numeral
  intro b member
  have digits (ds : List (Fin 10)) (own : b ∈ ds.map Literal.digit) : isPart b = true := by
    simp [isPart, Literal.isDigit_map ds b own]
  have sign : ∀ negative, (Literal.sign negative).all isPart = true := by decide
  rcases List.mem_append.mp member with own | unsigned
  · exact List.all_eq_true.mp (sign l.negative) b own
  · rcases List.mem_append.mp unsigned with whole | behind
    · exact digits l.whole whole
    · cases fraction? : l.fraction? with
      | none => simp [Literal.point, fraction?] at behind
      | some ds =>
        rw [Literal.point, fraction?, Option.elim_some] at behind
        rcases List.mem_cons.mp behind with rfl | own
        · decide
        · exact digits ds own

/-- Numerals do not leave the run of bytes that can be a part of one. -/
theorem length_le_run {text word : List UInt8} (numeral : word ∈ words) (stands : word <+: text) :
    word.length ≤ (text.takeWhile isPart).length := by
  obtain ⟨more, rfl⟩ := stands
  rw [List.takeWhile_append_of_pos (isPart_of_mem_words numeral), List.length_append]
  exact Nat.le_add_right _ _

theorem search?_eq_none {text : List UInt8} (without : ∀ word ∈ words, ¬ word <+: text)
    (length : Nat) : search? text length = none := by
  induction length with
  | zero => rfl
  | succ length ih =>
    have refused : text.take (length + 1) ∉ words := fun member =>
      without _ member (List.take_prefix _ _)
    rw [search?, parse?, if_neg refused]
    exact ih

/-- Every beginning that is tried before the longest numeral is refused. -/
theorem search?_of_longest {text word : List UInt8} (longest : Longest text word) {length : Nat}
    (enough : word.length ≤ length) (inside : length ≤ text.length) :
    search? text length = some (denoted word, word.length) := by
  induction length with
  | zero =>
    -- the empty text is no numeral
    have empty : word = [] := List.length_eq_zero_iff.mp (Nat.le_zero.mp enough)
    obtain ⟨l, same⟩ := mem_words_iff.mp longest.numeral
    have first := l.head?_bytes
    rw [same, empty] at first
    cases first
  | succ length ih =>
    rw [search?]
    by_cases full : word.length = length + 1
    · have own : text.take (length + 1) = word := by
        rw [← full]
        exact (List.prefix_iff_eq_take.mp longest.stands).symm
      rw [own, parse?, if_pos longest.numeral, full]
    · have refused : text.take (length + 1) ∉ words := by
        intro member
        have short := longest.longest _ member (List.take_prefix _ _)
        rw [List.length_take] at short
        omega
      rw [parse?, if_neg refused]
      exact ih (by omega) (by omega)

end Numeral

namespace Reader

open Numeral

/-- How many blanks stand at a position of a source. -/
def blanksAt (source : List UInt8) (offset : Nat) : Nat :=
  ((source.drop offset).takeWhile isBlank).length

/-- The text behind the blanks at a position. -/
def behindBlanks (source : List UInt8) (offset : Nat) : List UInt8 :=
  (source.drop offset).drop (blanksAt source offset)

/-- Behind the blanks at any position of any source, a number is read if and only if a numeral
stands there, and then it is the longest one. One pass from left to right takes the same bytes,
and the search from the longest beginning to the shortest has the same result. -/
theorem number_maximal_munch (source : List UInt8) (offset line : Nat) :
    ((seek source offset line).number? = none ↔
        ∀ word ∈ words, ¬ word <+: behindBlanks source offset) ∧
      (∀ value length, (seek source offset line).number? = some (value, length) ↔
        ∃ word, Longest (behindBlanks source offset) word ∧
          length = blanksAt source offset + word.length ∧ value = denoted word) ∧
      (∀ word, Longest (behindBlanks source offset) word →
        word = greedy (behindBlanks source offset)) ∧
      (seek source offset line).number? =
        (search? (behindBlanks source offset)
          ((behindBlanks source offset).takeWhile isPart).length).map
            fun result => (result.1, blanksAt source offset + result.2) := by
  have scanned : (seek source offset line).number? =
      (scan? (behindBlanks source offset)).map fun result =>
        (result.1.value, blanksAt source offset + result.2) := rfl
  rw [scanned]
  generalize behindBlanks source offset = text
  have run : (text.takeWhile isPart).length ≤ text.length :=
    (List.takeWhile_sublist _).length_le
  refine ⟨?_, ?_, fun word longest => longest.eq_greedy, ?_⟩
  · rw [Option.map_eq_none_iff, scan?_eq_none_iff]
  · intro value length
    rw [Option.map_eq_some_iff]
    constructor
    · rintro ⟨⟨n, width⟩, read, same⟩
      obtain ⟨word, longest, rfl, denotes⟩ := longest_of_scan? read
      cases same
      exact ⟨word, longest, rfl, denotes.symm⟩
    · rintro ⟨word, longest, rfl, rfl⟩
      cases read : scan? text with
      | none => exact absurd longest.stands (scan?_eq_none_iff.mp read word longest.numeral)
      | some result =>
        obtain ⟨n, width⟩ := result
        obtain ⟨other, also, rfl, denotes⟩ := longest_of_scan? read
        rw [longest.unique also, denotes]
        exact ⟨(n, _), rfl, rfl⟩
  · cases read : scan? text with
    | none => simp [search?_eq_none (scan?_eq_none_iff.mp read)]
    | some result =>
      obtain ⟨n, width⟩ := result
      obtain ⟨word, longest, rfl, denotes⟩ := longest_of_scan? read
      rw [search?_of_longest longest (length_le_run longest.numeral longest.stands) run]
      simp [denotes]

-- a sign or a second point ends the numeral, and what is left of it must be one
example : (start (utf8 "\t -.5-2")).number? = some (denoted (utf8 "-.5"), 5) ∧
    (start (utf8 "1.2.3")).number? = some (denoted (utf8 "1.2"), 3) ∧
    (start (utf8 "--1")).number? = none := by
  decide +kernel

end Reader
end PixelAsm
