import PixelAsm.Proofs.Names
import PixelAsm.Proofs.Refinement
import PixelAsm.Proofs.RoundTrip

/-!
# Listings lose nothing

The listing of a schedule determines its words, as long as masks, modifiers and channels are
among those that have a text. Codes of operations, registers and swizzles can be any words.
A line is taken apart from the left: every part of it is a run of a class of characters that
what follows does not continue. Lines end with a newline that occurs nowhere else in them, so
they form a code in which no line begins another one. A compiled program has no other masks,
modifiers and channels, so its listing can stand for it.
-/
namespace PixelAsm

/-! ### Operands -/

namespace Operand

/-- What the channel of an operand can be: none or the one that is copied to the others. -/
def channels : List UInt32 :=
  [0, Code.replicateRed, Code.replicateGreen, Code.replicateBlue, Code.replicateAlpha]

/-- The operand has no modifier and no channel that the listing passes over. -/
structure Listable (o : Operand) : Prop where
  modifier : o.modifier < 0x10
  channel : o.channel ∈ channels

instance (o : Operand) : Decidable o.Listable :=
  decidable_of_iff (o.modifier < 0x10 ∧ o.channel ∈ channels)
    ⟨fun both => ⟨both.1, both.2⟩, fun listable => ⟨listable.modifier, listable.channel⟩⟩

/-- The modifiers that are written in front of the register. -/
def signText (modifier : UInt32) : String :=
  (if modifier &&& Code.negate != 0 then "-" else "")
    ++ (if modifier &&& Code.complement != 0 then "1-" else "")

theorem toList_text (o : Operand) : o.text.toList =
    (signText o.modifier).toList ++ ((Code.registerName o.register).toList ++
      ((scaleText o.modifier).toList ++ (Code.replicateText o.channel).toList)) := by
  simp [text, signText]

theorem isSignChar_of_mem_signText (modifier : UInt32) :
    ∀ c ∈ (signText modifier).toList, isSignChar c = true := by
  rw [← List.all_eq_true]
  unfold signText
  split <;> split <;> decide

theorem isWordChar_of_mem_scaleText (modifier : UInt32) :
    ∀ c ∈ (scaleText modifier).toList, isWordChar c = true := by
  rw [← List.all_eq_true]
  unfold scaleText
  dsimp only
  split
  · decide
  · split
    · decide
    · split <;> decide

theorem isItemChar_of_mem_replicateText {channel : UInt32} (known : channel ∈ channels) :
    ∀ c ∈ (Code.replicateText channel).toList, isItemChar c = true := by
  have all : channels.all
      (fun channel => (Code.replicateText channel).toList.all isItemChar) = true := by
    decide +kernel
  exact List.all_eq_true.mp (List.all_eq_true.mp all channel known)

/-- A channel is written behind a point. -/
theorem stops_replicateText {channel : UInt32} (known : channel ∈ channels) {inside : Char → Bool}
    (point : inside '.' = false) : Stops inside (Code.replicateText channel).toList := by
  have all : channels.all
      (fun channel => (Code.replicateText channel).toList.head?.all (· == '.')) = true := by
    decide +kernel
  have begins := List.all_eq_true.mp all channel known
  intro c head
  obtain rfl : c = '.' := by simpa [Option.mem_def.mp head] using begins
  exact point

/-- Behind a register comes an underscore, a point or nothing. -/
theorem stops_behind_register {o : Operand} (listable : o.Listable) :
    Stops Char.isAlphanum
      ((scaleText o.modifier).toList ++ (Code.replicateText o.channel).toList) := by
  unfold scaleText
  dsimp only
  split
  · simp
  · split
    · simp
    · split
      · simp
      · simpa using stops_replicateText listable.channel rfl

theorem isItemChar_of_mem_text {o : Operand} (listable : o.Listable) :
    ∀ c ∈ o.text.toList, isItemChar c = true := by
  rw [toList_text]
  simp only [List.forall_mem_append]
  refine ⟨fun c sign => ?_, fun c register => ?_, fun c scale => ?_, ?_⟩
  · exact isItemChar_of_isSignChar (isSignChar_of_mem_signText o.modifier c sign)
  · exact isItemChar_of_isWordChar
      (isWordChar_of_isAlphanum (Code.isAlphanum_of_mem_registerName register))
  · exact isItemChar_of_isWordChar (isWordChar_of_mem_scaleText o.modifier c scale)
  · exact isItemChar_of_mem_replicateText listable.channel

/-- Sign and scale tell the modifiers apart. -/
theorem modifier_inj {a b : UInt32} (left : a < 0x10) (right : b < 0x10)
    (signs : (signText a).toList = (signText b).toList)
    (scales : (scaleText a).toList = (scaleText b).toList) : a = b := by
  have distinct : ((List.range 0x10).map fun n =>
      ((signText n.toUInt32).toList, (scaleText n.toUInt32).toList)).Nodup := by
    decide +kernel
  have same : a.toNat = b.toNat := by
    apply List.inj_on_of_nodup_map distinct
    · exact List.mem_range.mpr left
    · exact List.mem_range.mpr right
    · simp [signs, scales]
  exact UInt32.toNat_inj.mp same

theorem channel_inj {a b : UInt32} (left : a ∈ channels) (right : b ∈ channels)
    (same : (Code.replicateText a).toList = (Code.replicateText b).toList) : a = b := by
  have distinct : (channels.map fun channel => (Code.replicateText channel).toList).Nodup := by
    decide +kernel
  exact List.inj_on_of_nodup_map distinct left right same

/-- An operand is determined by its text. -/
theorem text_inj {o p : Operand} (left : o.Listable) (right : p.Listable)
    (same : o.text.toList = p.text.toList) : o = p := by
  rw [toList_text, toList_text] at same
  -- from the left: the signs, the register, the scale, and what is left is the channel
  obtain ⟨signs, same⟩ := split_unique (isSignChar_of_mem_signText _)
    (isSignChar_of_mem_signText _) (Code.stops_registerName _ _) (Code.stops_registerName _ _) same
  obtain ⟨registers, same⟩ := Code.registerName_append_inj (stops_behind_register left)
    (stops_behind_register right) same
  obtain ⟨scales, channels⟩ := split_unique (isWordChar_of_mem_scaleText _)
    (isWordChar_of_mem_scaleText _) (stops_replicateText left.channel rfl)
    (stops_replicateText right.channel rfl) same
  cases o
  cases p
  rw [mk.injEq]
  exact ⟨registers, channel_inj left.channel right.channel channels,
    modifier_inj left.modifier right.modifier signs scales⟩

end Operand

/-! ### Instructions -/

namespace Instruction

theorem toList_operandsText (operands : List Operand) :
    (operandsText operands).toList = operands.flatMap fun o => ',' :: ' ' :: o.text.toList := by
  simp [operandsText, String.toList_join, List.flatMap_map]

theorem stops_operandsText {inside : Char → Bool} (comma : inside ',' = false)
    (operands : List Operand) : Stops inside (operandsText operands).toList := by
  rw [toList_operandsText]
  cases operands with
  | nil => simp
  | cons o rest => simpa using comma

theorem operandsText_inj {os ps : List Operand} (left : ∀ o ∈ os, o.Listable)
    (right : ∀ p ∈ ps, p.Listable)
    (same : (operandsText os).toList = (operandsText ps).toList) : os = ps := by
  induction os generalizing ps with
  | nil =>
    cases ps with
    | nil => rfl
    | cons p ps => simp [toList_operandsText] at same
  | cons o os ih =>
    cases ps with
    | nil => simp [toList_operandsText] at same
    | cons p ps =>
      have here := left o (by simp)
      have there := right p (by simp)
      have behind : o.text.toList ++ (operandsText os).toList =
          p.text.toList ++ (operandsText ps).toList := by
        simpa [toList_operandsText] using same
      -- an operand has no comma, and the next one begins with one
      obtain ⟨first, others⟩ := split_unique (Operand.isItemChar_of_mem_text here)
        (Operand.isItemChar_of_mem_text there) (stops_operandsText rfl os)
        (stops_operandsText rfl ps) behind
      rw [Operand.text_inj here there first, ih (fun o member => left o (by simp [member]))
        (fun p member => right p (by simp [member])) others]

/-- The mask, the modifiers and the operands of an instruction have texts. -/
def Listable : Instruction → Prop
  | color _ target operands =>
    Code.IsColorMask target.mask ∧ target.modifier < 0x80 ∧ ∀ o ∈ operands, o.Listable
  | alpha _ target operands => target.modifier < 0x80 ∧ ∀ o ∈ operands, o.Listable
  | setConstants _ _ | passTexCoord _ _ _ | sampleMap _ _ _ => True

instance : (i : Instruction) → Decidable i.Listable
  | color _ target operands => inferInstanceAs (Decidable
      (Code.IsColorMask target.mask ∧ target.modifier < 0x80 ∧ ∀ o ∈ operands, o.Listable))
  | alpha _ target operands =>
    inferInstanceAs (Decidable (target.modifier < 0x80 ∧ ∀ o ∈ operands, o.Listable))
  | setConstants _ _ | passTexCoord _ _ _ | sampleMap _ _ _ => inferInstanceAs (Decidable True)

theorem Listable.redirect {i : Instruction} (listable : i.Listable) (register : UInt32) :
    (i.redirect register).Listable := by
  cases i <;> exact listable

def keyword : Instruction → List Char
  | color _ _ _ => "color".toList
  | alpha _ _ _ => "alpha".toList
  | setConstants _ _ => "setconst".toList
  | passTexCoord _ _ _ => "passtexcoord".toList
  | sampleMap _ _ _ => "samplemap".toList

/-- The operation with its modifiers and the register that it writes, in front of the rest. -/
def operationText (operation modifier register : UInt32) (rest : List Char) : List Char :=
  ((Code.operationName operation).toList ++ (Code.destinationModifierText modifier).toList) ++
    ' ' :: ((Code.registerName register).toList ++ rest)

def textureText (register coordinate swizzle : UInt32) : List Char :=
  (Code.registerName register).toList ++ ',' :: ' ' :: ((Code.registerName coordinate).toList ++
    '.' :: (Code.swizzleName swizzle).toList)

def constantsText (register index : UInt32) : List Char :=
  (Code.registerName register).toList ++
    ',' :: (" pool[".toList ++ (Nat.toDigits 10 index.toNat ++ [']']))

def arguments : Instruction → List Char
  | color operation target operands =>
    operationText operation target.modifier target.register
      ((Code.maskText target.mask).toList ++ (operandsText operands).toList)
  | alpha operation target operands =>
    operationText operation target.modifier target.register (operandsText operands).toList
  | setConstants register index => constantsText register index
  | passTexCoord register coordinate swizzle => textureText register coordinate swizzle
  | sampleMap register interpolator swizzle => textureText register interpolator swizzle

theorem toList_text (i : Instruction) : i.text.toList = i.keyword ++ ' ' :: i.arguments := by
  unfold text keyword arguments
  cases i with
  | color operation target operands => simp [operationText]
  | alpha operation target operands => simp [operationText]
  | setConstants register index => simp [constantsText]
  | passTexCoord register coordinate swizzle => simp [textureText]
  | sampleMap register interpolator swizzle => simp [textureText]

theorem operationText_inj {o p m n r q : UInt32} {rest behind : List Char} (left : m < 0x80)
    (right : n < 0x80) (stops : Stops Char.isAlphanum rest)
    (ends : Stops Char.isAlphanum behind)
    (same : operationText o m r rest = operationText p n q behind) :
    (o = p ∧ m = n) ∧ r = q ∧ rest = behind := by
  obtain ⟨words, others⟩ := split_unique (fun _ => Code.isWordChar_of_mem_operationWord)
    (fun _ => Code.isWordChar_of_mem_operationWord) (stops_cons.mpr rfl) (stops_cons.mpr rfl) same
  exact ⟨Code.operationWord_inj left right words,
    Code.registerName_append_inj stops ends (List.tail_eq_of_cons_eq others)⟩

theorem textureText_inj {r c s q d t : UInt32} (same : textureText r c s = textureText q d t) :
    r = q ∧ c = d ∧ s = t := by
  obtain ⟨registers, same⟩ :=
    Code.registerName_append_inj (stops_cons.mpr rfl) (stops_cons.mpr rfl) same
  simp only [List.cons.injEq, true_and] at same
  obtain ⟨coordinates, same⟩ :=
    Code.registerName_append_inj (stops_cons.mpr rfl) (stops_cons.mpr rfl) same
  exact ⟨registers, coordinates, Code.names_swizzle.injective (List.tail_eq_of_cons_eq same)⟩

theorem constantsText_inj {r i q j : UInt32} (same : constantsText r i = constantsText q j) :
    r = q ∧ i = j := by
  obtain ⟨registers, same⟩ :=
    Code.registerName_append_inj (stops_cons.mpr rfl) (stops_cons.mpr rfl) same
  have digits := List.append_cancel_right
    (List.append_cancel_left (List.tail_eq_of_cons_eq same))
  exact ⟨registers, UInt32.toNat_inj.mp (toDigits_inj (by decide) (by decide) digits)⟩

theorem isAlphanum_of_mem_keyword (i : Instruction) : ∀ c ∈ i.keyword, c.isAlphanum = true := by
  rw [← List.all_eq_true]
  unfold keyword
  split <;> decide

/-- An instruction is determined by its text. -/
theorem text_inj {i j : Instruction} (left : i.Listable) (right : j.Listable)
    (same : i.text.toList = j.text.toList) : i = j := by
  rw [toList_text, toList_text] at same
  obtain ⟨keywords, same⟩ := split_unique i.isAlphanum_of_mem_keyword j.isAlphanum_of_mem_keyword
    (stops_cons.mpr rfl) (stops_cons.mpr rfl) same
  have same := List.tail_eq_of_cons_eq same
  -- keywords are different for different kinds of instructions
  unfold keyword at keywords
  unfold arguments at same
  cases i with
  | color o target os =>
    cases j with
    | color p other ps =>
      obtain ⟨color, modifier, operands⟩ := left
      obtain ⟨colorOther, modifierOther, operandsOther⟩ := right
      obtain ⟨⟨rfl, modifiers⟩, registers, same⟩ := operationText_inj modifier modifierOther
        (color.stops_maskText _) (colorOther.stops_maskText _) same
      -- the mask ends where the first operand begins with its comma
      obtain ⟨masks, operandTexts⟩ := split_unique (fun _ => color.isItemChar_of_mem_maskText)
        (fun _ => colorOther.isItemChar_of_mem_maskText) (stops_operandsText rfl os)
        (stops_operandsText rfl ps) same
      obtain rfl : target = other := by
        cases target
        cases other
        rw [ColorTarget.mk.injEq]
        exact ⟨registers, color.maskText_inj colorOther masks, modifiers⟩
      rw [operandsText_inj operands operandsOther operandTexts]
    | _ => simp at keywords
  | alpha o target os =>
    cases j with
    | alpha p other ps =>
      obtain ⟨⟨rfl, modifiers⟩, registers, operandTexts⟩ := operationText_inj left.1 right.1
        (stops_operandsText rfl os) (stops_operandsText rfl ps) same
      obtain rfl : target = other := by
        cases target
        cases other
        rw [AlphaTarget.mk.injEq]
        exact ⟨registers, modifiers⟩
      rw [operandsText_inj left.2 right.2 operandTexts]
    | _ => simp at keywords
  | setConstants r n =>
    cases j with
    | setConstants q m =>
      obtain ⟨rfl, rfl⟩ := constantsText_inj same
      rfl
    | _ => simp at keywords
  | passTexCoord r c s =>
    cases j with
    | passTexCoord q d t =>
      obtain ⟨rfl, rfl, rfl⟩ := textureText_inj same
      rfl
    | _ => simp at keywords
  | sampleMap r c s =>
    cases j with
    | sampleMap q d t =>
      obtain ⟨rfl, rfl, rfl⟩ := textureText_inj same
      rfl
    | _ => simp at keywords

/-! ### Lines -/

section

variable {r q n s : UInt32}

theorem registerName_inLine : ∀ c ∈ (Code.registerName r).toList, isLineChar c = true :=
  fun _ member => isLineChar_of_isAlphanum (Code.isAlphanum_of_mem_registerName member)

theorem operationText_inLine {rest : List Char} (inLine : ∀ c ∈ rest, isLineChar c = true) :
    ∀ c ∈ operationText s n r rest, isLineChar c = true := by
  unfold operationText
  rw [List.forall_mem_append, List.forall_mem_cons]
  exact ⟨fun _ member => isLineChar_of_isWordChar (Code.isWordChar_of_mem_operationWord member),
    rfl, List.forall_mem_append.mpr ⟨registerName_inLine, inLine⟩⟩

theorem textureText_inLine : ∀ c ∈ textureText r q s, isLineChar c = true := by
  unfold textureText
  simp only [List.forall_mem_append, List.forall_mem_cons]
  refine ⟨registerName_inLine, rfl, rfl, registerName_inLine, rfl, fun c member => ?_⟩
  exact isLineChar_of_isWordChar (Code.isWordChar_of_mem_lookup (by decide +kernel) member)

theorem constantsText_inLine : ∀ c ∈ constantsText r n, isLineChar c = true := by
  unfold constantsText
  simp only [List.forall_mem_append, List.forall_mem_cons]
  refine ⟨registerName_inLine, rfl, List.all_eq_true.mp (by decide), fun c digit => ?_, rfl,
    by simp⟩
  exact isLineChar_of_isAlphanum (isAlphanum_of_mem_toDigits (by decide) (by decide) digit)

end

theorem operandsText_inLine {operands : List Operand} (listable : ∀ o ∈ operands, o.Listable) :
    ∀ c ∈ (operandsText operands).toList, isLineChar c = true := by
  intro c member
  rw [toList_operandsText, List.mem_flatMap] at member
  obtain ⟨o, inside, member⟩ := member
  have inLine : ∀ c ∈ ',' :: ' ' :: o.text.toList, isLineChar c = true := by
    simp only [List.forall_mem_cons]
    exact ⟨rfl, rfl, fun c member =>
      isLineChar_of_isItemChar (Operand.isItemChar_of_mem_text (listable o inside) c member)⟩
  exact inLine c member

theorem text_inLine {i : Instruction} (listable : i.Listable) :
    ∀ c ∈ i.text.toList, isLineChar c = true := by
  rw [toList_text, List.forall_mem_append, List.forall_mem_cons]
  refine ⟨fun c member => isLineChar_of_isAlphanum (i.isAlphanum_of_mem_keyword c member), rfl, ?_⟩
  unfold arguments
  cases i with
  | color operation target operands =>
    obtain ⟨color, -, operands⟩ := listable
    apply operationText_inLine
    rw [List.forall_mem_append]
    exact ⟨fun c member => isLineChar_of_isItemChar (color.isItemChar_of_mem_maskText member),
      operandsText_inLine operands⟩
  | alpha operation target operands => exact operationText_inLine (operandsText_inLine listable.2)
  | setConstants register index => exact constantsText_inLine
  | passTexCoord register coordinate swizzle => exact textureText_inLine
  | sampleMap register interpolator swizzle => exact textureText_inLine

end Instruction

/-- The lines of a listing. -/
inductive Line where
  | header (stage : Stage)
  | record (i : Instruction)

namespace Line

def content : Line → List Char
  | header stage => ';' :: ' ' :: stage.name.toList
  | record i => ' ' :: ' ' :: i.text.toList

def text (l : Line) : List Char := l.content ++ ['\n']

def isRecord : Line → Bool
  | header _ => false
  | record _ => true

def Listable : Line → Prop
  | header _ => True
  | record i => i.Listable

theorem content_inLine {l : Line} (listable : l.Listable) :
    ∀ c ∈ l.content, isLineChar c = true := by
  cases l with
  | header stage =>
    rw [← List.all_eq_true]
    cases stage <;> decide
  | record i =>
    simp only [content, List.forall_mem_cons]
    exact ⟨rfl, rfl, Instruction.text_inLine listable⟩

theorem content_inj {l m : Line} (left : l.Listable) (right : m.Listable)
    (same : l.content = m.content) : l = m := by
  cases l with
  | header stage =>
    cases m with
    | header other =>
      have names : stage.name.toList = other.name.toList := by simpa [content] using same
      have distinct : ∀ stage other : Stage, stage.name = other.name → stage = other := by
        intro stage other
        cases stage <;> cases other <;> decide
      rw [distinct stage other (String.toList_injective names)]
    | record i => simp [content] at same
  | record i =>
    cases m with
    | header other => simp [content] at same
    | record j =>
      have texts : i.text.toList = j.text.toList := by simpa [content] using same
      rw [Instruction.text_inj left right texts]

/-- No line begins another one. -/
theorem prefixCode : PrefixCode Listable text where
  apart := by
    rintro l m left right ⟨behind, same⟩
    rw [text, text, List.append_assoc] at same
    -- the first newline is where both lines end
    obtain ⟨contents, -⟩ := split_unique (content_inLine left) (content_inLine right)
      (stops_cons.mpr rfl) (stops_cons.mpr rfl) same
    exact content_inj left right contents
  nonempty := by simp [text]

end Line

/-! ### Schedules -/

namespace Schedule

/-- Each stage with its instructions behind it. -/
def lines (instructions : Stage → List Instruction) (stages : List Stage) : List Line :=
  stages.flatMap fun stage => .header stage :: (instructions stage).map .record

theorem toList_text {s : Schedule} {instructions : Stage → List Instruction}
    (decodes : s.Decodes instructions) :
    s.text.toList = (lines instructions Stage.all).flatMap Line.text := by
  have queue (stage : Stage) :
      (s.get stage).text.toList = ((instructions stage).map Line.record).flatMap Line.text := by
    rw [Queue.text, decodes stage, String.toList_join]
    simp only [List.flatMap_map]
    congr 1
    funext i
    simp [Line.text, Line.content]
  rw [text, lines, String.toList_join, List.flatMap_map, List.flatMap_assoc]
  congr 1
  funext stage
  simp [queue, Line.text, Line.content]

theorem lines_inj {is js : Stage → List Instruction} {stages : List Stage}
    (same : lines is stages = lines js stages) : ∀ stage ∈ stages, is stage = js stage := by
  induction stages with
  | nil => simp
  | cons stage stages ih =>
    have stops (is : Stage → List Instruction) : Stops Line.isRecord (lines is stages) := by
      cases stages <;> simp [lines, Line.isRecord]
    have records (is : List Instruction) : ∀ l ∈ is.map Line.record, l.isRecord = true := by
      simp [Line.isRecord]
    -- the records of a stage end where the next header stands
    obtain ⟨here, others⟩ := split_unique (records _) (records _) (stops is) (stops js)
      (List.tail_eq_of_cons_eq same)
    rw [List.forall_mem_cons]
    exact ⟨(List.map_inj_right fun _ _ => Line.record.inj).mp here, ih others⟩

/-- All words of the queues belong to instructions that have a text of their own. -/
def Listable (s : Schedule) : Prop :=
  ∃ instructions, s.Decodes instructions ∧ ∀ stage, ∀ i ∈ instructions stage, i.Listable

theorem text_inj {s t : Schedule} (left : s.Listable) (right : t.Listable)
    (same : s.text = t.text) : s = t := by
  obtain ⟨is, read, listable⟩ := left
  obtain ⟨js, readOther, listableOther⟩ := right
  have inLines {is : Stage → List Instruction} (listable : ∀ stage, ∀ i ∈ is stage, i.Listable) :
      ∀ l ∈ lines is Stage.all, l.Listable := by
    intro l member
    obtain ⟨stage, -, member⟩ := List.mem_flatMap.mp member
    rcases List.mem_cons.mp member with rfl | record
    · trivial
    · obtain ⟨i, inside, rfl⟩ := List.mem_map.mp record
      exact listable stage i inside
  have texts : (lines is Stage.all).flatMap Line.text = (lines js Stage.all).flatMap Line.text := by
    rw [← toList_text read, ← toList_text readOther, same]
  have sameLines := Line.prefixCode.flatMap_inj (inLines listable) (inLines listableOther) texts
  have queues (stage : Stage) : s.get stage = t.get stage := by
    have instructions : is stage = js stage :=
      lines_inj sameLines stage (by cases stage <;> decide)
    have held := Queue.holds_of_records (read stage)
    rw [instructions] at held
    exact held.unique (Queue.holds_of_records (readOther stage))
  cases s
  cases t
  rw [mk.injEq]
  exact ⟨queues .texture1, queues .alu1, queues .texture2, queues .alu2⟩

end Schedule

/-! ### Compiled programs -/

namespace Syntax

theorem Terminal.codeOf_lt {rule : Symbol} {bound : Nat}
    (small : rule.terminals.all (·.code.toNat < bound) = true) (positive : 0 < bound)
    (t? : Option (Terminal rule)) : (Terminal.codeOf t?).toNat < bound := by
  cases t? with
  | none => exact positive
  | some t => exact decide_eq_true_eq.mp (List.all_eq_true.mp small t.symbol t.member)

theorem Destination.modifier_lt (d : Destination) : d.modifier < 0x80 := by
  show (d.modifier).toNat < 2 ^ 7
  rw [Destination.modifier, UInt32.toNat_or]
  exact Nat.or_lt_two_pow (Terminal.codeOf_lt (by decide +kernel) (by decide) _)
    (Terminal.codeOf_lt (by decide +kernel) (by decide) _)

theorem Source.operand_listable (s : Source) : s.operand.Listable where
  modifier := by
    show (s.operand.modifier).toNat < 2 ^ 4
    rw [Source.operand, UInt32.toNat_or]
    exact Nat.or_lt_two_pow (Terminal.codeOf_lt (by decide +kernel) (by decide) _)
      (Terminal.codeOf_lt (by decide +kernel) (by decide) _)
  channel := by
    have known : (Symbol.terminals .srcRep).all (Operand.channels.contains ·.code) = true := by
      decide +kernel
    cases replicate : s.replicate? with
    | none => simp [Source.operand, replicate, Terminal.codeOf, Operand.channels]
    | some t =>
      have member := List.all_eq_true.mp known t.symbol t.member
      simpa [Source.operand, replicate, Terminal.codeOf, Terminal.code] using member

theorem Arithmetic.instructions_listable (s : Arithmetic) : ∀ i ∈ s.instructions, i.Listable := by
  have operands : ∀ o ∈ s.sources.map (·.operand), o.Listable := by
    simpa using fun source _ => Source.operand_listable source
  unfold instructions
  rw [List.forall_mem_append]
  constructor
  · split
    next some =>
      have color : Code.IsColorMask (s.target.channels &&& Code.rgb) :=
        ⟨some, by rw [UInt32.and_assoc, UInt32.and_self]⟩
      simpa using ⟨color, s.target.modifier_lt, operands⟩
    · simp
  · split
    · simpa using ⟨s.target.modifier_lt, operands⟩
    · simp

theorem Simple.issues_listable (setting : Setting) (s : Simple) :
    ∀ issue ∈ s.issues setting, issue.instruction.Listable := by
  cases s with
  | define register => simp [issues, Instruction.Listable]
  | texture s =>
    simp only [issues, List.forall_mem_singleton, Texture.instruction]
    split <;> trivial
  | legacyTexture s =>
    simp only [issues, List.forall_mem_singleton, LegacyTexture.instruction]
    split <;> trivial
  | arithmetic s => simpa [issues] using s.instructions_listable
  | phaseMarker => simp [issues]

theorem issuesBehind_listable (legacy : Bool) (before statements : List Statement) :
    ∀ issue ∈ issuesBehind legacy before statements, issue.instruction.Listable := by
  induction statements generalizing before with
  | nil => simp [issuesBehind]
  | cons s rest ih =>
    rw [issuesBehind, List.forall_mem_append]
    refine ⟨?_, ih _⟩
    cases s with
    | simple s => exact s.issues_listable _
    | composite s =>
      intro issue member
      obtain ⟨part, -, member⟩ := List.mem_flatMap.mp member
      exact part.issues_listable _ issue member

theorem Shader.queues_listable (p : Shader) (stage : Stage) :
    ∀ i ∈ p.queues stage, i.Listable := by
  have contributed (stage : Stage) : ∀ i ∈ instructionsOn p.issues stage, i.Listable := by
    intro i member
    obtain ⟨issue, chosen, rfl⟩ := List.mem_map.mp member
    exact issuesBehind_listable _ _ _ issue (List.mem_of_mem_filter chosen)
  cases stage with
  | texture2 =>
    -- registers are handed on without modifiers
    rw [Shader.queues, List.forall_mem_append]
    exact ⟨contributed _, by simp [Instruction.Listable]⟩
  | texture1 | alu1 | alu2 => exact contributed _

theorem Shader.delivered_listable (p : Shader) (stage : Stage) :
    ∀ i ∈ p.delivered stage, i.Listable := by
  unfold Shader.delivered
  split
  · intro i member
    obtain ⟨j, inside, rfl | rfl⟩ := mem_deliver member
    · exact p.queues_listable stage i inside
    · exact (p.queues_listable stage j inside).redirect _
  · exact p.queues_listable stage

end Syntax

theorem Dialect.compile_listable {c : Compiler} (dialect : c.grammar = grammar) {source : String}
    (accepted : (c.compile source).1 = .ok ()) : (c.compile source).2.schedule.Listable := by
  obtain ⟨a, -, ⟨p, represents⟩, -⟩ := compile_shows_log dialect accepted
  exact ⟨p.delivered, compile_decodes dialect accepted represents, p.delivered_listable⟩

/-- Schedules whose masks, modifiers and channels have texts are told apart by their listings,
and so are compiled programs: sources with the same listing have the same words. -/
theorem Schedule.text_lossless :
    (∀ s t : Schedule, s.Listable → t.Listable → s.text = t.text → s = t) ∧
      ∀ source other : String,
        (Compiler.standard.compile source).1 = .ok () →
        (Compiler.standard.compile other).1 = .ok () →
        (Compiler.standard.compile source).2.schedule.text =
          (Compiler.standard.compile other).2.schedule.text →
        ∀ stage, ((Compiler.standard.compile source).2.schedule.get stage).words =
          ((Compiler.standard.compile other).2.schedule.get stage).words := by
  refine ⟨fun s t => text_inj, fun source other first second same stage => ?_⟩
  have listable {source : String} (accepted : (Compiler.standard.compile source).1 = .ok ()) :=
    Dialect.compile_listable Compiler.grammar_standard accepted
  rw [text_inj (listable first) (listable second) same]

/-- Instructions whose codes have no names, with every modifier that has a text. -/
def unnamedCodes : List Instruction :=
  [.color 0x2 ⟨0x89210, 5, 0x7F⟩ [⟨0, 0, 0xF⟩, ⟨0x1903, Code.replicateAlpha, 6⟩],
   .setConstants 7 0xFFFFFFFF, .passTexCoord 0 Code.r0 0x8970]

def recordedSchedule : Schedule := { alu1 := ⟨(unnamedCodes.flatMap Instruction.words).toArray⟩ }

/-- The words of the same records, written down. -/
def writtenSchedule : Schedule :=
  { alu1 := ⟨#[1, 2, 0x89210, 5, 0x7F, 0, 0, 0xF, 0x1903, 0x1906, 6,
      6, 7, 0xFFFFFFFF, 7, 0, 0x8921, 0x8970]⟩ }

private theorem listable_schedules : recordedSchedule.Listable ∧ writtenSchedule.Listable := by
  have listable (stage : Stage) :
      ∀ i ∈ if stage = .alu1 then unnamedCodes else [], i.Listable := by
    cases stage <;> decide
  constructor
  · exact ⟨_, fun stage => by cases stage <;> decide +kernel, listable⟩
  · exact ⟨_, fun stage => by cases stage <;> decide +kernel, listable⟩

/-- A sum in a dialect before ps.1.4. -/
def legacySumText : String := "ps.1.1\ntex t0\nadd_x2_sat r0, t0_bx2, 1-c1.a // saturated\n"

/-- The same sum in ps.1.4. -/
def currentSumText : String :=
  "ps.1.4\ntexld r0, t0\nphase\nadd_x2_sat r0, r0_bx2, 1-c1.a\n"

private theorem compile_sumTexts :
    let legacy := Compiler.standard.compile legacySumText
    let current := Compiler.standard.compile currentSumText
    legacy.1 = .ok () ∧ current.1 = .ok () ∧
      legacy.2.schedule.text = current.2.schedule.text := by
  decide +kernel

theorem Schedule.text_lossless_acrossDialects :
    (recordedSchedule.Listable ∧ writtenSchedule.Listable ∧
      recordedSchedule.text = writtenSchedule.text ∧ recordedSchedule = writtenSchedule) ∧
    (Compiler.standard.compile legacySumText).1 = .ok () ∧
      (Compiler.standard.compile currentSumText).1 = .ok () ∧
      (Compiler.standard.compile legacySumText).2.schedule.text =
        (Compiler.standard.compile currentSumText).2.schedule.text ∧
      ∀ stage, ((Compiler.standard.compile legacySumText).2.schedule.get stage).words =
        ((Compiler.standard.compile currentSumText).2.schedule.get stage).words := by
  obtain ⟨schedules, sources⟩ := text_lossless
  obtain ⟨recorded, written⟩ := listable_schedules
  obtain ⟨legacy, current, same⟩ := compile_sumTexts
  have texts : recordedSchedule.text = writtenSchedule.text := by decide +kernel
  exact ⟨⟨recorded, written, texts, schedules _ _ recorded written texts⟩,
    legacy, current, same, sources _ _ legacy current same⟩

end PixelAsm
