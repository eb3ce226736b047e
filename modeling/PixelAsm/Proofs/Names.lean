import Mathlib.Data.List.Nodup
import Mathlib.Data.List.TakeWhile
import PixelAsm.Instruction.Listing

/-!
# Names of codes

Registers, operations and swizzles are listed by name, or in hexadecimal if they have none, and
sets of bits by the texts of their bits. Names stand next to each other without delimiters, so
they have to tell where they end. We prove that every name determines its code, and collect what
is needed to split a text into names: where a run of characters of one class ends, and when the
parts of a concatenation can be told apart.
-/
namespace PixelAsm

/-! ### Splitting texts -/

/-- What follows does not go on with a member of the class. -/
def Stops {α : Type} (inside : α → Bool) (rest : List α) : Prop :=
  ∀ a ∈ rest.head?, inside a = false

@[simp]
theorem stops_nil {α : Type} (inside : α → Bool) : Stops inside [] := by simp [Stops]

@[simp]
theorem stops_cons {α : Type} {inside : α → Bool} {a : α} {rest : List α} :
    Stops inside (a :: rest) ↔ inside a = false := by
  simp [Stops]

theorem takeWhile_append_of_stops {α : Type} {inside : α → Bool} (front : List α) {rest : List α}
    (stops : Stops inside rest) : (front ++ rest).takeWhile inside = front.takeWhile inside := by
  have nothing : rest.takeWhile inside = [] := by
    cases rest with
    | nil => rfl
    | cons a rest => simp [stops_cons.mp stops]
  rw [List.takeWhile_append, nothing, List.append_nil]
  split
  next whole => exact ((List.takeWhile_sublist inside).eq_of_length whole).symm
  · rfl

/-- A run of a class that is not continued can be split off in one way only. -/
theorem split_unique {α : Type} {inside : α → Bool} {run other rest behind : List α}
    (first : ∀ a ∈ run, inside a = true) (second : ∀ a ∈ other, inside a = true)
    (stops : Stops inside rest) (ends : Stops inside behind)
    (same : run ++ rest = other ++ behind) : run = other ∧ rest = behind := by
  have runs := congrArg (List.takeWhile inside) same
  rw [takeWhile_append_of_stops run stops, takeWhile_append_of_stops other ends,
    List.takeWhile_eq_self_iff.mpr first, List.takeWhile_eq_self_iff.mpr second] at runs
  subst runs
  exact ⟨rfl, List.append_cancel_left same⟩

/-- No code of a member of the domain is the beginning of another member's. -/
structure PrefixCode {α β : Type} (domain : α → Prop) (code : α → List β) : Prop where
  apart : ∀ a b, domain a → domain b → code a <+: code b → a = b
  nonempty : ∀ a, domain a → code a ≠ []

/-- Codes of which none begins another can be read one after the other. -/
theorem PrefixCode.flatMap_inj {α β : Type} {domain : α → Prop} {code : α → List β}
    (isCode : PrefixCode domain code) {as bs : List α} (first : ∀ a ∈ as, domain a)
    (second : ∀ b ∈ bs, domain b) (same : as.flatMap code = bs.flatMap code) : as = bs := by
  induction as generalizing bs with
  | nil =>
    cases bs with
    | nil => rfl
    | cons b bs => simp [isCode.nonempty b (second b (by simp))] at same
  | cons a as ih =>
    cases bs with
    | nil => simp [isCode.nonempty a (first a (by simp))] at same
    | cons b bs =>
      have here := first a (by simp)
      have there := second b (by simp)
      rw [List.flatMap_cons, List.flatMap_cons] at same
      -- both codes begin the same text, so one of them begins the other
      have begins : code a <+: code b ++ bs.flatMap code := ⟨as.flatMap code, same⟩
      have equal : a = b := by
        rcases List.prefix_or_prefix_of_prefix begins (List.prefix_append _ _) with shorter | longer
        · exact isCode.apart a b here there shorter
        · exact (isCode.apart b a there here longer).symm
      subst equal
      have rest := ih (fun c member => first c (by simp [member]))
        (fun c member => second c (by simp [member])) (List.append_cancel_left same)
      rw [rest]

/-! ### Numbers -/

theorem digitChar_inj : ∀ a < 16, ∀ b < 16, Nat.digitChar a = Nat.digitChar b → a = b := by
  decide

theorem isAlphanum_digitChar : ∀ a < 16, (Nat.digitChar a).isAlphanum = true := by
  decide

section

variable {base : Nat} (lower : 1 < base) (upper : base ≤ 16)
include lower

/-- The last digit of a number and those in front of it. -/
theorem toDigits_concat (n : Nat) : Nat.toDigits base n =
    (if n < base then [] else Nat.toDigits base (n / base)) ++ [(n % base).digitChar] := by
  rw [Nat.toDigits_eq_if lower]
  split
  next small => rw [Nat.mod_eq_of_lt small, List.nil_append]
  · rfl

include upper

theorem toDigits_inj {n m : Nat} (same : Nat.toDigits base n = Nat.toDigits base m) : n = m := by
  induction n using Nat.strongRecOn generalizing m with
  | ind n ih =>
    rw [toDigits_concat lower n, toDigits_concat lower m] at same
    obtain ⟨fronts, lasts⟩ := List.append_inj' same rfl
    have last : n % base = m % base := by
      have bounded (k : Nat) : k % base < 16 :=
        Nat.lt_of_lt_of_le (Nat.mod_lt k (Nat.zero_lt_of_lt lower)) upper
      exact digitChar_inj _ (bounded n) _ (bounded m) (List.singleton_inj.mp lasts)
    -- the digits in front are none for one of the numbers only if they are for both
    split at fronts
    next smallN =>
      split at fronts
      next smallM => rwa [Nat.mod_eq_of_lt smallN, Nat.mod_eq_of_lt smallM] at last
      · exact absurd fronts.symm Nat.toDigits_ne_nil
    next largeN =>
      split at fronts
      · exact absurd fronts Nat.toDigits_ne_nil
      · have smaller : n / base < n := Nat.div_lt_self (by omega) lower
        have front := ih (n / base) smaller fronts
        rw [← Nat.div_add_mod n base, ← Nat.div_add_mod m base, front, last]

theorem isAlphanum_of_mem_toDigits {n : Nat} {c : Char} (member : c ∈ Nat.toDigits base n) :
    c.isAlphanum = true := by
  induction n using Nat.strongRecOn with
  | ind n ih =>
    rw [toDigits_concat lower n] at member
    rcases List.mem_append.mp member with front | last
    · split at front
      · cases front
      next large => exact ih (n / base) (Nat.div_lt_self (by omega) lower) front
    · rw [List.mem_singleton.mp last]
      apply isAlphanum_digitChar
      exact Nat.lt_of_lt_of_le (Nat.mod_lt n (Nat.zero_lt_of_lt lower)) upper

end

theorem toList_hexText (word : UInt32) :
    (hexText word).toList = '0' :: 'x' :: Nat.toDigits 16 word.toNat := by
  simp [hexText]

theorem hexText_inj {a b : UInt32} (same : (hexText a).toList = (hexText b).toList) : a = b := by
  rw [toList_hexText, toList_hexText] at same
  have digits : Nat.toDigits 16 a.toNat = Nat.toDigits 16 b.toNat := by simpa using same
  exact UInt32.toNat_inj.mp (toDigits_inj (by decide) (by decide) digits)

theorem isAlphanum_of_mem_hexText {word : UInt32} {c : Char} (member : c ∈ (hexText word).toList) :
    c.isAlphanum = true := by
  rw [toList_hexText] at member
  rcases List.mem_cons.mp member with rfl | member
  · rfl
  · rcases List.mem_cons.mp member with rfl | digit
    · rfl
    · exact isAlphanum_of_mem_toDigits (by decide) (by decide) digit

/-! ### Classes of characters -/

/-- The characters of words, such as the names of operations. -/
def isWordChar (c : Char) : Bool := c.isAlphanum || c == '_'

/-- The characters in front of a register that say how its value is taken. -/
def isSignChar (c : Char) : Bool := c == '-' || c == '1'

/-- The characters between two commas of a line. -/
def isItemChar (c : Char) : Bool := c != ',' && c != '\n'

def isLineChar (c : Char) : Bool := c != '\n'

theorem isWordChar_of_isAlphanum {c : Char} (alphanumeric : c.isAlphanum = true) :
    isWordChar c = true := by
  simp [isWordChar, alphanumeric]

theorem isLineChar_of_isItemChar {c : Char} (item : isItemChar c = true) : isLineChar c = true :=
  (Bool.and_eq_true _ _ |>.mp item).2

theorem isItemChar_of_isWordChar {c : Char} (word : isWordChar c = true) : isItemChar c = true := by
  unfold isItemChar
  by_cases comma : c = ','
  · simp [comma, isWordChar] at word
  · by_cases newline : c = '\n'
    · simp [newline, isWordChar] at word
    · simp [comma, newline]

theorem isLineChar_of_isWordChar {c : Char} (word : isWordChar c = true) : isLineChar c = true :=
  isLineChar_of_isItemChar (isItemChar_of_isWordChar word)

theorem isLineChar_of_isAlphanum {c : Char} (alphanumeric : c.isAlphanum = true) :
    isLineChar c = true :=
  isLineChar_of_isWordChar (isWordChar_of_isAlphanum alphanumeric)

theorem isItemChar_of_isSignChar {c : Char} (sign : isSignChar c = true) : isItemChar c = true := by
  rcases Bool.or_eq_true _ _ |>.mp sign with minus | one
  · simp [beq_iff_eq.mp minus, isItemChar]
  · simp [beq_iff_eq.mp one, isItemChar]

/-! ### Names or hexadecimal -/

/-- Some codes have names of their own, which do not look like numbers; the others are written
in hexadecimal. -/
structure Names (name : UInt32 → List Char) (known : List UInt32) : Prop where
  others : ∀ code ∉ known, name code = (hexText code).toList
  distinct : (known.map name).Nodup
  noNumber : (known.map name).all (·.head? != some '0') = true

namespace Names

variable {name : UInt32 → List Char} {known : List UInt32}

/-- A name tells its code. -/
theorem injective (names : Names name known) : Function.Injective name := by
  -- numbers begin with a zero
  have noNumber {code : UInt32} (member : code ∈ known) (other : UInt32) :
      name code ≠ (hexText other).toList := by
    intro same
    have first := List.all_eq_true.mp names.noNumber _ (List.mem_map_of_mem member)
    rw [same, toList_hexText] at first
    simp at first
  intro a b same
  by_cases left : a ∈ known
  · by_cases right : b ∈ known
    · exact List.inj_on_of_nodup_map names.distinct left right same
    · exact absurd (same.trans (names.others b right)) (noNumber left b)
  · by_cases right : b ∈ known
    · exact absurd (same.symm.trans (names.others a left)) (noNumber right a)
    · rw [names.others a left, names.others b right] at same
      exact hexText_inj same

/-- What holds of numbers and of the known names holds of all. -/
theorem satisfy (names : Names name known) (property : List Char → Bool)
    (numbers : ∀ code, property (hexText code).toList = true)
    (own : (known.map name).all property = true) (code : UInt32) :
    property (name code) = true := by
  by_cases member : code ∈ known
  · exact List.all_eq_true.mp own _ (List.mem_map_of_mem member)
  · rw [names.others code member]
    exact numbers code

end Names

namespace Code

def namedRegisters : List UInt32 :=
  tempRegisters ++ constantRegisters ++ textureUnits ++ [primaryColor, secondaryColor]

theorem names_register : Names (fun r => (registerName r).toList) namedRegisters where
  others := by
    intro r unnamed
    simp only [namedRegisters, List.mem_append, List.mem_cons, List.not_mem_nil, or_false,
      not_or] at unnamed
    obtain ⟨⟨⟨temp, constant⟩, texture⟩, primary, secondary⟩ := unnamed
    have none {file : List UInt32} (absent : r ∉ file) : ordinal? file r = none :=
      List.idxOf?_eq_none_iff.mpr absent
    simp [registerName, none temp, none constant, none texture, primary, secondary]
  distinct := by decide +kernel
  noNumber := by decide +kernel

theorem isAlphanum_of_mem_registerName {register : UInt32} {c : Char}
    (member : c ∈ (registerName register).toList) : c.isAlphanum = true := by
  have all := names_register.satisfy (·.all Char.isAlphanum)
    (fun _ => List.all_eq_true.mpr fun _ => isAlphanum_of_mem_hexText) (by decide +kernel) register
  exact List.all_eq_true.mp all c member

/-- A register in front of something that does not continue its name. -/
theorem registerName_append_inj {r q : UInt32} {rest behind : List Char}
    (stops : Stops Char.isAlphanum rest) (ends : Stops Char.isAlphanum behind)
    (same : (registerName r).toList ++ rest = (registerName q).toList ++ behind) :
    r = q ∧ rest = behind := by
  obtain ⟨registers, others⟩ := split_unique (fun _ => isAlphanum_of_mem_registerName)
    (fun _ => isAlphanum_of_mem_registerName) stops ends same
  exact ⟨names_register.injective registers, others⟩

/-- No register is taken for a sign. -/
theorem stops_registerName (register : UInt32) (rest : List Char) :
    Stops isSignChar ((registerName register).toList ++ rest) := by
  have first := names_register.satisfy (·.head?.any (!isSignChar ·))
    (fun code => by rw [toList_hexText]; rfl) (by decide +kernel) register
  obtain ⟨c, head, outside⟩ := (Option.any_eq_true _ _).mp first
  intro d begins
  obtain rfl : c = d := by simpa [List.head?_append, head] using begins
  simpa using outside

/-- A table of names leaves the other codes in hexadecimal. -/
theorem getD_lookup_of_not_mem {table : List (UInt32 × String)} {code : UInt32}
    (unnamed : code ∉ table.map (·.1)) :
    (table.lookup code).getD (hexText code) = hexText code := by
  have none : table.lookup code = none := by
    rw [List.lookup_eq_none_iff]
    intro entry member
    rw [bne_iff_ne]
    rintro rfl
    exact unnamed (List.mem_map_of_mem member)
  rw [none, Option.getD_none]

theorem isWordChar_of_mem_lookup {table : List (UInt32 × String)}
    (own : table.all (·.2.toList.all isWordChar) = true) {code : UInt32} {c : Char}
    (member : c ∈ ((table.lookup code).getD (hexText code)).toList) : isWordChar c = true := by
  cases found : table.lookup code with
  | none =>
    rw [found] at member
    exact isWordChar_of_isAlphanum (isAlphanum_of_mem_hexText member)
  | some name =>
    rw [found] at member
    obtain ⟨front, behind, rfl, -⟩ := List.lookup_eq_some_iff.mp found
    have all := List.all_eq_true.mp own (code, name) (by simp)
    exact List.all_eq_true.mp all c member

/-- Operations are told apart by what comes before the first underscore. -/
theorem names_operation :
    Names (fun o => (operationName o).toList.takeWhile Char.isAlphanum)
      (operationNames.map (·.1)) where
  others := by
    intro o unnamed
    rw [operationName, getD_lookup_of_not_mem unnamed, List.takeWhile_eq_self_iff]
    exact fun c => isAlphanum_of_mem_hexText
  distinct := by decide +kernel
  noNumber := by decide +kernel

theorem names_swizzle :
    Names (fun s => (swizzleName s).toList) (swizzleNames.map (·.1)) where
  others := by
    intro s unnamed
    rw [swizzleName, getD_lookup_of_not_mem unnamed]
  distinct := by decide +kernel
  noNumber := by decide +kernel

/-! ### Bits -/

theorem prefixCode_of_all {texts : List (UInt32 × String)}
    (apart : (texts.all fun a =>
      texts.all fun b => a.2.toList.isPrefixOf b.2.toList → a = b) = true)
    (nonempty : texts.all (!·.2.toList.isEmpty) = true) :
    PrefixCode (· ∈ texts) (·.2.toList) where
  apart := by
    intro a b left right begins
    have row := List.all_eq_true.mp apart a left
    have entry := List.all_eq_true.mp row b right
    exact decide_eq_true_eq.mp entry (List.isPrefixOf_iff_prefix.mpr begins)
  nonempty := by
    intro a member none
    have some := List.all_eq_true.mp nonempty a member
    simp [none] at some

/-- Words below the bound are the union of the bits that have texts. -/
def Covers (texts : List (UInt32 × String)) (bound : Nat) : Bool :=
  (List.range bound).all fun n =>
    (texts.filter fun (bit, _) => n.toUInt32 &&& bit != 0).foldl (· ||| ·.1) 0 == n.toUInt32

theorem toList_bitTexts (texts : List (UInt32 × String)) (word : UInt32) :
    (bitTexts texts word).toList =
      (texts.filter fun (bit, _) => word &&& bit != 0).flatMap (·.2.toList) := by
  rw [bitTexts, String.toList_join, List.flatMap_map]

/-- The texts of the bits of a word tell the word. -/
theorem bitTexts_inj {texts : List (UInt32 × String)} {bound : Nat}
    (isCode : PrefixCode (· ∈ texts) (·.2.toList)) (covers : Covers texts bound = true)
    {a b : UInt32} (left : a.toNat < bound) (right : b.toNat < bound)
    (same : (bitTexts texts a).toList = (bitTexts texts b).toList) : a = b := by
  have union {word : UInt32} (small : word.toNat < bound) :
      (texts.filter fun (bit, _) => word &&& bit != 0).foldl (· ||| ·.1) 0 = word := by
    have whole := List.all_eq_true.mp covers word.toNat (List.mem_range.mpr small)
    simpa using whole
  rw [toList_bitTexts, toList_bitTexts] at same
  have bits := isCode.flatMap_inj (fun _ member => (List.mem_filter.mp member).1)
    (fun _ member => (List.mem_filter.mp member).1) same
  rw [← union left, bits, union right]

theorem all_bitTexts {texts : List (UInt32 × String)} {inside : Char → Bool}
    (own : (texts.all (·.2.toList.all inside)) = true) {word : UInt32} {c : Char}
    (member : c ∈ (bitTexts texts word).toList) : inside c = true := by
  rw [toList_bitTexts] at member
  obtain ⟨entry, chosen, inText⟩ := List.mem_flatMap.mp member
  have all := List.all_eq_true.mp own entry (List.mem_filter.mp chosen).1
  exact List.all_eq_true.mp all c inText

/-- Texts that all begin with one mark do not go on with a class to which it does not belong. -/
theorem stops_bitTexts {texts : List (UInt32 × String)} (mark : Char)
    (marked : texts.all (·.2.toList.head? == some mark) = true) {inside : Char → Bool}
    (outside : inside mark = false) (word : UInt32) :
    Stops inside (bitTexts texts word).toList := by
  rw [toList_bitTexts]
  cases chosen : texts.filter fun (bit, _) => word &&& bit != 0 with
  | nil => simp
  | cons entry others =>
    have member : entry ∈ texts :=
      List.mem_of_mem_filter (chosen ▸ List.mem_cons_self : entry ∈ texts.filter _)
    have first := List.all_eq_true.mp marked entry member
    intro c head
    obtain rfl : mark = c := by simpa [beq_iff_eq.mp first] using head
    exact outside

/-! ### Modifiers and masks of destinations -/

def destinationModifiers : List (UInt32 × String) :=
  [(times2, "_x2"), (times4, "_x4"), (times8, "_x8"), (half, "_d2"), (quarter, "_d4"),
   (eighth, "_d8"), (saturate, "_sat")]

theorem destinationModifierText_eq (modifier : UInt32) :
    destinationModifierText modifier = bitTexts destinationModifiers modifier := rfl

/-- The operation and the modifiers, which are written as one word. -/
theorem operationWord_inj {o p m n : UInt32} (left : m < 0x80) (right : n < 0x80)
    (same : (operationName o).toList ++ (destinationModifierText m).toList =
      (operationName p).toList ++ (destinationModifierText n).toList) : o = p ∧ m = n := by
  -- every modifier begins with an underscore, so none adds to the operation
  have stops (modifier : UInt32) :
      Stops Char.isAlphanum (destinationModifierText modifier).toList := by
    rw [destinationModifierText_eq]
    exact stops_bitTexts '_' (by decide +kernel) rfl modifier
  have runs := congrArg (List.takeWhile Char.isAlphanum) same
  rw [takeWhile_append_of_stops _ (stops m), takeWhile_append_of_stops _ (stops n)] at runs
  obtain rfl : o = p := names_operation.injective runs
  have modifiers := List.append_cancel_left same
  have isCode : PrefixCode (· ∈ destinationModifiers) (·.2.toList) :=
    prefixCode_of_all (by decide +kernel) (by decide +kernel)
  exact ⟨rfl, bitTexts_inj isCode (by decide +kernel : Covers destinationModifiers 0x80 = true)
    left right modifiers⟩

theorem isWordChar_of_mem_operationWord {o m : UInt32} {c : Char}
    (member : c ∈ (operationName o).toList ++ (destinationModifierText m).toList) :
    isWordChar c = true := by
  rcases List.mem_append.mp member with inName | inModifiers
  · exact isWordChar_of_mem_lookup (by decide +kernel) inName
  · rw [destinationModifierText_eq] at inModifiers
    exact all_bitTexts (by decide +kernel) inModifiers

def channelTexts : List (UInt32 × String) :=
  [(red, "r"), (green, "g"), (blue, "b"), (alpha, "a")]

/-- The mask holds colour channels only, and at least one. -/
def IsColorMask (mask : UInt32) : Prop := mask ≠ 0 ∧ mask &&& rgb = mask

instance (mask : UInt32) : Decidable (IsColorMask mask) :=
  inferInstanceAs (Decidable (mask ≠ 0 ∧ mask &&& rgb = mask))

namespace IsColorMask

variable {mask other : UInt32}

theorem toNat_lt (color : IsColorMask mask) : mask.toNat < 8 := by
  rw [← color.2, UInt32.toNat_and]
  exact Nat.lt_succ_of_le Nat.and_le_right

theorem toList_maskText (color : IsColorMask mask) :
    (maskText mask).toList = '.' :: (bitTexts channelTexts mask).toList := by
  -- the mask that shows no channels has alpha
  have notAll : mask &&& rgba ≠ rgba := by
    intro full
    have most := Nat.and_le_left (n := mask.toNat) (m := rgba.toNat)
    rw [← UInt32.toNat_and, full] at most
    exact absurd (Nat.lt_of_le_of_lt most color.toNat_lt) (by decide)
  simp [maskText, color.1, notAll, channelTexts]

theorem stops_maskText (color : IsColorMask mask) (rest : List Char) :
    Stops Char.isAlphanum ((maskText mask).toList ++ rest) := by
  simp [color.toList_maskText]

theorem isItemChar_of_mem_maskText (color : IsColorMask mask) {c : Char}
    (member : c ∈ (maskText mask).toList) : isItemChar c = true := by
  rw [color.toList_maskText] at member
  rcases List.mem_cons.mp member with rfl | inChannels
  · rfl
  · exact all_bitTexts (by decide +kernel) inChannels

theorem maskText_inj (color : IsColorMask mask) (colorOther : IsColorMask other)
    (same : (maskText mask).toList = (maskText other).toList) : mask = other := by
  rw [color.toList_maskText, colorOther.toList_maskText] at same
  have isCode : PrefixCode (· ∈ channelTexts) (·.2.toList) :=
    prefixCode_of_all (by decide +kernel) (by decide +kernel)
  exact bitTexts_inj isCode (by decide +kernel : Covers channelTexts 8 = true) color.toNat_lt
    colorOther.toNat_lt (List.tail_eq_of_cons_eq same)

end IsColorMask

end Code
end PixelAsm
