import PixelAsm.Proofs.Spelling

/-!
# Reading literals

A literal that is not followed by a further digit or point is read as a whole, and the number
that is read is the one that is written.
-/
namespace PixelAsm

namespace Literal

open Numeral

/-- A numeral does not go on here. -/
def Stops (more : List UInt8) : Prop :=
  ∀ b ∈ more.head?, isDigit b = false ∧ b ≠ 0x2E

theorem isDigit_digit (d : Fin 10) : isDigit (digit d) = true := by
  revert d
  decide

private theorem digit_ne_sign (d : Fin 10) : digit d ≠ 0x2D := by
  revert d
  decide

private theorem toNat_digit (d : Fin 10) : (digit d).toNat - 0x30 = d := by
  revert d
  decide

theorem valueOfDigits_map (digits : List (Fin 10)) :
    valueOfDigits (digits.map digit) = decimal digits := by
  simp [valueOfDigits, decimal, List.foldl_map, toNat_digit]

theorem isDigit_map (digits : List (Fin 10)) :
    ∀ b ∈ digits.map digit, isDigit b = true := by
  intro b member
  obtain ⟨d, -, rfl⟩ := List.mem_map.mp member
  exact isDigit_digit d

/-- The digits at the beginning of a text. -/
theorem takeWhile_digits (digits : List (Fin 10)) {more : List UInt8}
    (stops : ∀ b ∈ more.head?, isDigit b = false) :
    (digits.map digit ++ more).takeWhile isDigit = digits.map digit ∧
      (digits.map digit ++ more).dropWhile isDigit = more := by
  have all := isDigit_map digits
  rw [List.takeWhile_append_of_pos all, List.dropWhile_append_of_pos all]
  cases more with
  | nil => simp
  | cons b rest => simp [stops b rfl]

theorem fraction_point (fraction? : Option (List (Fin 10))) {more : List UInt8}
    (stops : Stops more) :
    fraction (point fraction? ++ more) =
      ((fraction?.getD []).map digit, (point fraction?).length) := by
  cases fraction? with
  | none =>
    cases more with
    | nil => rfl
    | cons b rest => simp [point, fraction, (stops b rfl).2]
  | some digits =>
    have digitsEnd := (takeWhile_digits digits fun b member => (stops b member).1).1
    simp [point, fraction, digitsEnd]

/-- The literal as a numeral. -/
def numeral (l : Literal) : Numeral :=
  { negative := l.negative, digits := decimal (l.whole ++ l.fraction?.getD [])
    places := (l.fraction?.getD []).length }

theorem value_numeral (l : Literal) : l.numeral.value = l.value := rfl

private theorem unsigned?_digits (l : Literal) {more : List UInt8} (stops : Stops more) :
    unsigned? l.negative (l.whole.map digit ++ (point l.fraction? ++ more)) =
      some (l.numeral, (l.whole.map digit ++ point l.fraction?).length) := by
  have wholeEnds : ∀ b ∈ (point l.fraction? ++ more).head?, isDigit b = false := by
    cases l.fraction? with
    | none => exact fun b member => (stops b member).1
    | some digits =>
      intro b member
      cases member
      rfl
  obtain ⟨digits, behind⟩ := takeWhile_digits l.whole wholeEnds
  have some : ¬ ((l.whole.map digit).isEmpty && ((l.fraction?.getD []).map digit).isEmpty) := by
    simpa [Classical.or_iff_not_imp_left] using l.has_digit
  unfold unsigned?
  rw [digits, behind, fraction_point l.fraction? stops]
  dsimp only
  rw [if_neg some, ← List.map_append, valueOfDigits_map]
  simp [numeral]

private theorem scan?_unsigned {text : List UInt8} (noSign : ∀ b ∈ text.head?, b ≠ 0x2D) :
    scan? text = unsigned? false text := by
  cases text with
  | nil => rfl
  | cons b rest => simp [scan?, noSign b rfl]

theorem head_ne_sign (l : Literal) (unsigned : l.negative = false) (more : List UInt8) :
    ∀ b ∈ (l.bytes ++ more).head?, b ≠ 0x2D := by
  obtain ⟨_, whole, fraction?, has⟩ := l
  cases unsigned
  intro b member
  cases whole with
  | cons d rest =>
    cases member
    exact digit_ne_sign d
  | nil =>
    cases fraction? with
    | none => simp at has
    | some digits =>
      cases member
      decide

/-- A literal is read as a whole. -/
theorem scan?_bytes (l : Literal) {more : List UInt8} (stops : Stops more) :
    scan? (l.bytes ++ more) = some (l.numeral, l.bytes.length) := by
  have read := unsigned?_digits l stops
  cases negative : l.negative with
  | true =>
    rw [negative] at read
    simp [bytes, sign, negative, scan?, read]
  | false =>
    rw [negative] at read
    have noSign := l.head_ne_sign negative more
    rw [scan?_unsigned noSign]
    simpa [bytes, sign, negative] using read

private theorem startsSymbol_of_isDigit {b : UInt8} (digit : isDigit b = true) :
    startsSymbol b = true := by
  simp only [isDigit, Bool.and_eq_true, decide_eq_true_eq, UInt8.le_iff_toNat_le,
    UInt8.reduceToNat] at digit
  simp only [startsSymbol, Reader.isPrintable, Bool.and_eq_true, decide_eq_true_eq, bne_iff_ne,
    UInt8.lt_iff_toNat_lt, ne_eq, ← UInt8.toNat_inj, UInt8.reduceToNat]
  omega

theorem stops_of_not_settled {more : List UInt8} (trivia : ¬ Settled more) : Stops more := by
  intro b member
  cases more with
  | nil => cases member
  | cons b rest =>
    cases member
    have notSymbol : ¬ startsSymbol b = true := fun starts =>
      trivia (settled_of_startsSymbol starts rest)
    constructor
    · rw [Bool.eq_false_iff]
      exact fun digit => notSymbol (startsSymbol_of_isDigit digit)
    · rintro rfl
      exact notSymbol rfl

theorem takeWhile_isBlank {text : List UInt8} (settled : Settled text) :
    text.takeWhile Reader.isBlank = [] := by
  cases text with
  | nil => rfl
  | cons b rest =>
    have printable := settled.1
    have notBlank : Reader.isBlank b = false := by
      rw [Bool.eq_false_iff]
      intro blank
      simp only [Reader.isBlank, Bool.or_eq_true, beq_iff_eq] at blank
      rcases blank with rfl | rfl <;> cases printable
    rw [List.takeWhile_cons, notBlank]
    rfl

theorem number?_bytes (l : Literal) {r : Reader} {more : List UInt8}
    (position : r.rest = l.bytes ++ more) (settled : Settled (l.bytes ++ more))
    (stops : Stops more) : r.number? = some (l.value, l.bytes.length) := by
  have noBlanks := takeWhile_isBlank settled
  have read := l.scan?_bytes stops
  simp [Reader.number?, position, noBlanks, read, value_numeral]

/-- In front of a symbol there are no blanks to pass. -/
theorem number?_of_settled {r : Reader} (settled : Settled r.rest) :
    r.number? = (scan? r.rest).map fun found => (found.1.value, found.2) := by
  simp [Reader.number?, takeWhile_isBlank settled]

/-! ### The longest literal -/

theorem exists_digits {bytes : List UInt8} (all : ∀ b ∈ bytes, isDigit b = true) :
    ∃ digits : List (Fin 10), digits.map digit = bytes := by
  have each (b : UInt8) (isOne : isDigit b = true) : ∃ d, digit d = b := by
    simp only [isDigit, Bool.and_eq_true, decide_eq_true_eq, UInt8.le_iff_toNat_le,
      UInt8.reduceToNat] at isOne
    refine ⟨⟨b.toNat - 0x30, by omega⟩, ?_⟩
    rw [← UInt8.toNat_inj, digit, UInt8.toNat_ofNat']
    dsimp only
    omega
  induction bytes with
  | nil => exact ⟨[], rfl⟩
  | cons b rest ih =>
    obtain ⟨d, first⟩ := each b (all b (by simp))
    obtain ⟨digits, others⟩ := ih fun c member => all c (by simp [member])
    exact ⟨d :: digits, by simp [first, others]⟩

private theorem exists_takeWhile_digits (bytes : List UInt8) :
    ∃ digits : List (Fin 10), digits.map digit = bytes.takeWhile isDigit :=
  exists_digits (List.all_eq_true.mp List.all_takeWhile)

private theorem exists_fraction (behind : List UInt8) :
    ∃ fraction? : Option (List (Fin 10)), point fraction? <+: behind ∧
      fraction behind = ((fraction?.getD []).map digit, (point fraction?).length) := by
  cases behind with
  | nil => exact ⟨none, List.nil_prefix, rfl⟩
  | cons b rest =>
    by_cases isPoint : b = 0x2E
    · subst b
      obtain ⟨digits, read⟩ := exists_takeWhile_digits rest
      refine ⟨some digits, ?_, ?_⟩
      · simp [point, read, List.takeWhile_prefix]
      · simp [point, fraction, read]
    · exact ⟨none, List.nil_prefix, by simp [point, fraction, isPoint]⟩

/-- What is found without a sign is a literal at the beginning of the text. -/
private theorem exists_unsigned {negative : Bool} {text : List UInt8} {n : Numeral} {length : Nat}
    (found : unsigned? negative text = some (n, length)) :
    ∃ l : Literal, l.negative = negative ∧ l.numeral = n ∧
      (l.whole.map digit ++ point l.fraction?).length = length ∧
      l.whole.map digit ++ point l.fraction? <+: text := by
  obtain ⟨whole, digits⟩ := exists_takeWhile_digits text
  obtain ⟨fraction?, front, read⟩ := exists_fraction (text.dropWhile isDigit)
  unfold unsigned? at found
  rw [← digits, read] at found
  dsimp only at found
  split at found
  · cases found
  next some =>
    have has : whole ≠ [] ∨ fraction?.getD [] ≠ [] := by
      simpa [Classical.or_iff_not_imp_left] using some
    cases found
    refine ⟨⟨negative, whole, fraction?, has⟩, rfl, ?_, by simp, ?_⟩
    · rw [← List.map_append, valueOfDigits_map]
      simp [numeral]
    · rw [← List.takeWhile_append_dropWhile (p := isDigit) (l := text), digits]
      exact (List.prefix_append_right_inj _).mpr front

/-- No literal at the beginning of the text is longer than what is found without a sign. -/
private theorem length_le_unsigned {negative : Bool} {text : List UInt8} {n : Numeral}
    {length : Nat} (found : unsigned? negative text = some (n, length)) (l : Literal)
    (stands : l.whole.map digit ++ point l.fraction? <+: text) :
    (l.whole.map digit ++ point l.fraction?).length ≤ length := by
  obtain ⟨more, rfl⟩ := stands
  rw [List.append_assoc] at found
  unfold unsigned? at found
  rw [List.takeWhile_append_of_pos (isDigit_map _), List.dropWhile_append_of_pos (isDigit_map _)]
    at found
  cases fraction? : l.fraction? with
  | none =>
    rw [fraction?] at found
    dsimp only at found
    split at found
    · cases found
    · cases found
      simp only [point, Option.elim_none, List.append_nil, List.length_append]
      omega
  | some digits =>
    -- the point ends the digits in front of it
    have stops : (point (some digits) ++ more).takeWhile isDigit = [] := by
      simp [point, isDigit]
    have behind : (point (some digits) ++ more).dropWhile isDigit =
        point (some digits) ++ more := by
      simp [point, isDigit]
    rw [fraction?, stops, behind] at found
    dsimp only at found
    split at found
    · cases found
    · cases found
      simp [point, fraction, List.takeWhile_append_of_pos (isDigit_map digits)]

/-- Of the literals at the beginning of a text the longest is found. -/
theorem scan?_longest {text : List UInt8} {n : Numeral} {length : Nat}
    (found : scan? text = some (n, length)) :
    ∃ l : Literal, l.numeral = n ∧ l.bytes.length = length ∧ l.bytes <+: text ∧
      ∀ m : Literal, m.bytes <+: text → m.bytes.length ≤ length := by
  cases text with
  | nil => cases found
  | cons b rest =>
    by_cases signed : b = 0x2D
    · subst b
      obtain ⟨⟨_, width⟩, read, same⟩ := Option.map_eq_some_iff.mp found
      cases same
      obtain ⟨l, negative, rfl, rfl, stands⟩ := exists_unsigned read
      refine ⟨l, rfl, by simp [bytes, sign, negative, Nat.add_comm],
        by simpa [bytes, sign, negative] using stands, fun m other => ?_⟩
      cases unsigned : m.negative with
      | true =>
        have behind : m.whole.map digit ++ point m.fraction? <+: rest := by
          simpa [bytes, sign, unsigned] using other
        have short := length_le_unsigned read m behind
        simpa [bytes, sign, unsigned, Nat.add_comm, Nat.add_assoc] using short
      | false =>
        obtain ⟨more, whole⟩ := other
        have first := m.head_ne_sign unsigned more
        rw [whole] at first
        exact absurd rfl (first 0x2D rfl)
    · have read : unsigned? false (b :: rest) = some (n, length) := by
        simpa [scan?, signed] using found
      obtain ⟨l, negative, rfl, rfl, stands⟩ := exists_unsigned read
      refine ⟨l, rfl, by simp [bytes, sign, negative],
        by simpa [bytes, sign, negative] using stands, fun m other => ?_⟩
      cases unsigned : m.negative with
      | true =>
        have first : b = 0x2D := by
          rw [bytes, unsigned] at other
          exact (List.cons_prefix_cons.mp other).1.symm
        exact absurd first signed
      | false =>
        have same : m.bytes = m.whole.map digit ++ point m.fraction? := by
          simp [bytes, sign, unsigned]
        rw [same] at other ⊢
        exact length_le_unsigned read m other

/-- The literal stands in a source at an offset, and no longer one does. -/
def WrittenAt (l : Literal) (source : List UInt8) (offset : Nat) : Prop :=
  l.bytes <+: source.drop offset ∧
    ∀ m : Literal, m.bytes <+: source.drop offset → m.bytes.length ≤ l.bytes.length

/-- The number that is read in front of a symbol is the one that is written there. -/
theorem exists_of_number? {source : List UInt8} {r : Reader}
    (position : r.rest = source.drop r.offset) (settled : Settled r.rest) {value : Binary32}
    {length : Nat} (number : r.number? = some (value, length)) :
    ∃ l : Literal, l.WrittenAt source r.offset ∧ l.value = value := by
  obtain ⟨⟨n, width⟩, scanned, same⟩ := Option.map_eq_some_iff.mp number
  cases same
  rw [takeWhile_isBlank settled, List.length_nil, List.drop_zero, position] at scanned
  obtain ⟨l, rfl, rfl, stands, longest⟩ := scan?_longest scanned
  exact ⟨l, ⟨stands, longest⟩, rfl⟩

end Literal
end PixelAsm
