import PixelAsm.Proofs.Derivation
import PixelAsm.Proofs.Trivia

/-!
# Texts of programs

How a program may be written down. A terminal has one or more spellings, a numeral is any
decimal number, and trivia may stand anywhere between two terminals. Between two statements
there has to be some.

What matters to a reader is where the next symbol starts, not which trivia are in front of it.
`Reads` says of a text without leading trivia that certain leaves come first in it and what
follows them, again without leading trivia; every text of a program can be read in this way.
-/
namespace PixelAsm

open Syntax Reader

/-! ### Spellings -/

/-- The texts that a terminal may be written as. A numeral has none of its own. -/
def Symbol.spellings : Symbol → List String
  | .ps14 => ["ps.1.4"]
  | .ps11 => ["ps.1.1"]
  | .ps12 => ["ps.1.2"]
  | .ps13 => ["ps.1.3"]
  | .define => ["def"]
  | .comma => [","]
  | .phase => ["phase"]
  | .coIssue => ["+"]
  | .r0 | .ps11R0 => ["r0"]
  | .r1 | .ps11R1 => ["r1"]
  | .r2 => ["r2"]
  | .r3 => ["r3"]
  | .r4 => ["r4"]
  | .r5 => ["r5"]
  | .t0 | .ps11T0 => ["t0"]
  | .t1 | .ps11T1 => ["t1"]
  | .t2 | .ps11T2 => ["t2"]
  | .t3 | .ps11T3 => ["t3"]
  | .t4 => ["t4"]
  | .t5 => ["t5"]
  | .c0 => ["c0"]
  | .c1 => ["c1"]
  | .c2 => ["c2"]
  | .c3 => ["c3"]
  | .c4 => ["c4"]
  | .c5 => ["c5"]
  | .c6 => ["c6"]
  | .c7 => ["c7"]
  | .v0 => ["v0"]
  | .v1 => ["v1"]
  | .add => ["add"]
  | .sub => ["sub"]
  | .mul => ["mul"]
  | .mad => ["mad"]
  | .lrp => ["lrp"]
  | .mov => ["mov"]
  | .cmp => ["cmp"]
  | .cnd => ["cnd"]
  | .dp2Add => ["dp2add"]
  | .dp3 => ["dp3"]
  | .dp4 => ["dp4"]
  | .texcrd => ["texcrd"]
  | .texld => ["texld"]
  | .tex => ["tex"]
  | .texcoord => ["texcoord"]
  | .texreg2ar => ["texreg2ar"]
  | .texreg2gb => ["texreg2gb"]
  | .texdp3 => ["texdp3"]
  | .texdp3tex => ["texdp3tex"]
  | .texm3x2pad => ["texm3x2pad"]
  | .texm3x2tex => ["texm3x2tex"]
  | .texm3x3pad => ["texm3x3pad"]
  | .texm3x3tex => ["texm3x3tex"]
  | .texm3x3spec => ["texm3x3spec"]
  | .x2 | .srcX2 => ["_x2"]
  | .x4 => ["_x4"]
  | .x8 => ["_x8"]
  | .d2 => ["_d2"]
  | .d4 => ["_d4"]
  | .d8 => ["_d8"]
  | .sat => ["_sat"]
  | .maskR | .repR => [".r", ".x"]
  | .maskG | .repG => [".g", ".y"]
  | .maskB | .repB => [".b", ".z"]
  | .maskA | .repA => [".a", ".w"]
  | .maskRg => [".rg", ".xy"]
  | .maskRb => [".rb", ".xz"]
  | .maskRa => [".ra", ".xw"]
  | .maskGb => [".gb", ".yz"]
  | .maskGa => [".ga", ".yw"]
  | .maskBa => [".ba", ".zw"]
  | .maskRgb | .swizzleStr => [".rgb", ".xyz"]
  | .maskRga | .swizzleStq => [".rga", ".xyw"]
  | .maskRba => [".rba", ".xzw"]
  | .maskGba => [".gba", ".yzw"]
  | .maskRgba | .swizzleStrq => [".rgba", ".xyzw"]
  | .swizzleStrDr => ["_dz", "_db"]
  | .swizzleStqDq => ["_dw", "_da"]
  | .negate => ["-"]
  | .invert => ["1-"]
  | .bias => ["_bias"]
  | .bx2 => ["_bx2"]
  | _ => []

/-- A decimal number as it is written, with a digit on at least one side of the point. -/
structure Literal where
  negative : Bool
  whole : List (Fin 10)
  /-- The digits behind the point, if there is one. -/
  fraction? : Option (List (Fin 10))
  has_digit : whole ≠ [] ∨ fraction?.getD [] ≠ []

namespace Literal

def digit (d : Fin 10) : UInt8 := UInt8.ofNat (0x30 + d)

def sign (negative : Bool) : List UInt8 := if negative then [0x2D] else []

def point (fraction? : Option (List (Fin 10))) : List UInt8 :=
  fraction?.elim [] fun digits => 0x2E :: digits.map digit

def bytes (l : Literal) : List UInt8 := sign l.negative ++ (l.whole.map digit ++ point l.fraction?)

def decimal (digits : List (Fin 10)) : Nat := digits.foldl (fun value d => 10 * value + d.val) 0

/-- The single precision number nearest to the number that is written. -/
def value (l : Literal) : Binary32 :=
  Binary32.ofRatio l.negative (decimal (l.whole ++ l.fraction?.getD []))
    (Nat.pow 10 (l.fraction?.getD []).length)

end Literal

/-! ### Texts -/

/-- Bytes that may stand between two terminals: blanks, control bytes, and comments with the
newline that ends them. -/
inductive Trivia : List UInt8 → Prop
  | nothing : Trivia []
  | blank {b : UInt8} {more : List UInt8} (low : b ≤ 0x20) (rest : Trivia more) :
      Trivia (b :: more)
  | comment {mark words more : List UInt8} {newline : UInt8}
      (starts : mark ∈ [utf8 "//", utf8 ";", utf8 "#"])
      (inside : ∀ b ∈ words, b ≠ 0x0A ∧ b ≠ 0x0D) (ends : newline = 0x0A ∨ newline = 0x0D)
      (rest : Trivia more) : Trivia (mark ++ (words ++ newline :: more))

/-- A text of a leaf, with the value that it denotes if it is a numeral. -/
inductive Spelled : Leaf → List UInt8 → List Binary32 → Prop
  | text {l : Leaf} {text : String} (member : text ∈ l.symbol.spellings) :
      Spelled l (utf8 text) []
  | numeral {l : Leaf} (isValue : l.symbol = .value) (n : Literal) : Spelled l n.bytes [n.value]

/-- A text of the leaves of a statement, with the values of its numerals. -/
inductive SpelledOut : List Leaf → List UInt8 → List Binary32 → Prop
  | last {l : Leaf} {bytes : List UInt8} {values : List Binary32}
      (spelled : Spelled l bytes values) : SpelledOut [l] bytes values
  | andThen {l : Leaf} {ls : List Leaf} {bytes gap more : List UInt8}
      {values others : List Binary32} (spelled : Spelled l bytes values) (trivia : Trivia gap)
      (rest : SpelledOut ls more others) :
      SpelledOut (l :: ls) (bytes ++ (gap ++ more)) (values ++ others)

/-- A text of statements, each behind some trivia, up to the end of the source. -/
inductive Listed : List (List Leaf) → List UInt8 → List Binary32 → Prop
  | finished {gap : List UInt8} (trivia : Trivia gap) : Listed [] gap []
  | next {ls : List Leaf} {rest : List (List Leaf)} {gap bytes more : List UInt8}
      {values others : List Binary32} (trivia : Trivia gap) (some : gap ≠ [])
      (spelledOut : SpelledOut ls bytes values) (behind : Listed rest more others) :
      Listed (ls :: rest) (gap ++ (bytes ++ more)) (values ++ others)

namespace Syntax

/-- A text of a program: its version, which trivia may precede, and its statements. -/
def Shader.Text (p : Shader) (bytes : List UInt8) (values : List Binary32) : Prop :=
  ∃ lead version more, Trivia lead ∧ Spelled p.version.leaf version [] ∧
    Listed (p.statements.map (·.leaves)) more values ∧ bytes = lead ++ (version ++ more)

/-- The program has none of the symbols that the dialect of its version excludes. -/
def Shader.Legal (p : Shader) : Prop :=
  ∀ l ∈ p.statements.flatMap (·.leaves), l.symbol ∉ Dialect.excluded p.version.symbol

instance (p : Shader) : Decidable p.Legal :=
  inferInstanceAs (Decidable (∀ l ∈ p.statements.flatMap (·.leaves),
    l.symbol ∉ Dialect.excluded p.version.symbol))

end Syntax

/-! ### Where symbols start -/

/-- The byte can start a symbol and no comment. -/
def startsSymbol (b : UInt8) : Bool := isPrintable b && b != 0x2F && b != 0x3B && b != 0x23

theorem settled_of_startsSymbol {b : UInt8} (starts : startsSymbol b = true)
    (rest : List UInt8) : Settled (b :: rest) := by
  simp only [startsSymbol, Bool.and_eq_true, bne_iff_ne] at starts
  obtain ⟨⟨⟨printable, slash⟩, semicolon⟩, hash⟩ := starts
  refine ⟨printable, ?_⟩
  unfold startsComment
  split
  next same => exact absurd (List.cons.inj same).1 slash
  next other _ same =>
    obtain ⟨rfl, -⟩ := List.cons.inj same
    simp [semicolon, hash]
  next same => cases same

private theorem spellings_start : ∀ s ∈ Symbol.all, ∀ text ∈ s.spellings,
    (utf8 text).head?.any startsSymbol = true := by
  decide +kernel

theorem startsSymbol_digit (d : Fin 10) : startsSymbol (Literal.digit d) = true := by
  revert d
  decide

theorem Literal.head?_bytes (l : Literal) : l.bytes.head?.any startsSymbol = true := by
  obtain ⟨negative, whole, fraction?, has⟩ := l
  cases negative with
  | true => simp [bytes, sign, startsSymbol, isPrintable]
  | false =>
    cases whole with
    | cons d rest => simp [bytes, sign, startsSymbol_digit]
    | nil =>
      cases fraction? with
      | none => simp at has
      | some digits => simp [bytes, sign, point, startsSymbol, isPrintable]

theorem Spelled.head? {l : Leaf} {bytes : List UInt8} {values : List Binary32}
    (spelled : Spelled l bytes values) : bytes.head?.any startsSymbol = true := by
  cases spelled with
  | text member =>
    exact spellings_start l.symbol (List.mem_of_getElem? l.symbol.ofId?_id) _ member
  | numeral _ n => exact n.head?_bytes

theorem settled_of_head? {bytes : List UInt8} (starts : bytes.head?.any startsSymbol = true)
    (more : List UInt8) : Settled (bytes ++ more) := by
  cases bytes with
  | nil => cases starts
  | cons b rest => exact settled_of_startsSymbol (by simpa using starts) _

theorem SpelledOut.settled {ls : List Leaf} {bytes : List UInt8} {values : List Binary32}
    (spelledOut : SpelledOut ls bytes values) (more : List UInt8) : Settled (bytes ++ more) := by
  cases spelledOut with
  | last spelled => exact settled_of_head? spelled.head? more
  | andThen spelled _ _ =>
    rw [List.append_assoc]
    exact settled_of_head? spelled.head? _

namespace Trivia

theorem skips {gap : List UInt8} (trivia : Trivia gap) (after : List UInt8) :
    Skips (gap ++ after) after := by
  induction trivia with
  | nothing => exact .here _
  | blank low _ ih => exact .blank (by simpa [isPrintable] using low) ih
  | @comment mark words more newline starts inside ends rest ih =>
    have isNewline : isNewline newline = true := by
      rcases ends with rfl | rfl <;> rfl
    have marks : ∀ mark ∈ [utf8 "//", utf8 ";", utf8 "#"],
        mark.all (!Reader.isNewline ·) = true := by decide
    -- a comment runs over its mark and its words up to the newline
    have passed : ((mark ++ (words ++ newline :: more)) ++ after).dropWhile (!Reader.isNewline ·) =
        newline :: (more ++ after) := by
      have clean : ∀ b ∈ mark ++ words, (!Reader.isNewline b) = true := by
        intro b member
        rcases List.mem_append.mp member with own | word
        · exact List.all_eq_true.mp (marks mark starts) b own
        · obtain ⟨feed, back⟩ := inside b word
          simp [Reader.isNewline, feed, back]
      rw [show (mark ++ (words ++ newline :: more)) ++ after =
        (mark ++ words) ++ newline :: (more ++ after) by simp]
      rw [List.dropWhile_append_of_pos clean]
      simp [isNewline]
    refine .comment ?_ ?_
    · simp only [List.mem_cons, List.not_mem_nil, or_false] at starts
      rcases starts with rfl | rfl | rfl <;> rfl
    · rw [passed]
      exact .blank (Skips.blank_of_newline isNewline) ih

/-- Trivia that are there can be told from a symbol. -/
theorem not_settled {gap : List UInt8} (trivia : Trivia gap) (some : gap ≠ [])
    (after : List UInt8) : ¬ Settled (gap ++ after) := by
  intro settled
  have same := (trivia.skips after).eq_of_settled settled
  exact some (by simpa using same)

end Trivia

/-! ### Reading leaves one after the other -/

/-- At this position a symbol has come to an end for certain. -/
def Apart (bytes : List UInt8) : Prop := bytes = [] ∨ ¬ Settled bytes

/-- The leaves come first in a text, and behind the last of them its rest has the given
property. Neither the text nor what follows the leaves has trivia in front. -/
inductive Reads (closing : List UInt8 → Prop) :
    List Leaf → List UInt8 → List UInt8 → List Binary32 → Prop
  | nothing {text : List UInt8} : Reads closing [] text text []
  | next {l : Leaf} {ls : List Leaf} {bytes more after rest : List UInt8}
      {values others : List Binary32} (spelled : Spelled l bytes values)
      (skips : Skips more after) (settled : Settled after) (closes : ls = [] → closing more)
      (behind : Reads closing ls after rest others) :
      Reads closing (l :: ls) (bytes ++ more) rest (values ++ others)

namespace Reads

variable {closing : List UInt8 → Prop}

/-- Leaves in two groups are read one group after the other. -/
theorem split {ls ks : List Leaf} {text rest : List UInt8} {values : List Binary32}
    (reads : Reads closing (ls ++ ks) text rest values) :
    ∃ middle us ws, Reads (fun more => ks = [] → closing more) ls text middle us ∧
      Reads closing ks middle rest ws ∧ values = us ++ ws := by
  induction ls generalizing text values with
  | nil => exact ⟨text, [], values, .nothing, reads, rfl⟩
  | cons l ls ih =>
    cases reads with
    | next spelled skips settled closes behind =>
      obtain ⟨middle, us, ws, first, second, rfl⟩ := ih behind
      refine ⟨middle, _ ++ us, ws, .next spelled skips settled ?_ first, second,
        (List.append_assoc _ _ _).symm⟩
      rintro rfl rfl
      exact closes rfl

end Reads

theorem SpelledOut.reads {ls : List Leaf} {bytes : List UInt8} {values : List Binary32}
    (spelledOut : SpelledOut ls bytes values) {more after : List UInt8} (skips : Skips more after)
    (settled : Settled after) (apart : Apart more) :
    Reads Apart ls (bytes ++ more) after values := by
  induction spelledOut with
  | @last l bytes values spelled =>
    have read := Reads.next spelled skips settled (fun _ => apart) Reads.nothing
    rwa [List.append_nil] at read
  | @andThen l ls bytes gap rest values others spelled trivia spelledOut ih =>
    have notLast : ls ≠ [] := by
      rintro rfl
      cases spelledOut
    rw [List.append_assoc, List.append_assoc]
    exact .next spelled (trivia.skips _) (spelledOut.settled more) (fun last => absurd last notLast)
      ih

/-- Statements that are read one after the other, with what follows the last of them. -/
inductive ReadsAll : List (List Leaf) → List UInt8 → List UInt8 → List Binary32 → Prop
  | finished {text : List UInt8} : ReadsAll [] text text []
  | next {ls : List Leaf} {groups : List (List Leaf)} {text middle rest : List UInt8}
      {values others : List Binary32} (reads : Reads Apart ls text middle values)
      (behind : ReadsAll groups middle rest others) :
      ReadsAll (ls :: groups) text rest (values ++ others)

theorem ReadsAll.split {groups others : List (List Leaf)} {text rest : List UInt8}
    {values : List Binary32} (reads : ReadsAll (groups ++ others) text rest values) :
    ∃ middle us ws, ReadsAll groups text middle us ∧ ReadsAll others middle rest ws ∧
      values = us ++ ws := by
  induction groups generalizing text values with
  | nil => exact ⟨text, [], values, .finished, reads, rfl⟩
  | cons ls groups ih =>
    cases reads with
    | next first behind =>
      obtain ⟨middle, us, ws, second, third, rfl⟩ := ih behind
      exact ⟨middle, _ ++ us, ws, .next first second, third, (List.append_assoc _ _ _).symm⟩

theorem Listed.apart {groups : List (List Leaf)} {bytes : List UInt8} {values : List Binary32}
    (listed : Listed groups bytes values) : Apart bytes := by
  cases listed with
  | @finished _ trivia =>
    by_cases empty : bytes = []
    · exact .inl empty
    · have unsettled := trivia.not_settled empty []
      rw [List.append_nil] at unsettled
      exact .inr unsettled
  | next trivia some _ _ => exact .inr (trivia.not_settled some _)

theorem Listed.readsAll {groups : List (List Leaf)} {bytes : List UInt8}
    {values : List Binary32} (listed : Listed groups bytes values) :
    ∃ text, Skips bytes text ∧ Settled text ∧ ReadsAll groups text [] values := by
  induction listed with
  | finished trivia =>
    have skips := trivia.skips []
    rw [List.append_nil] at skips
    exact ⟨[], skips, trivial, .finished⟩
  | next trivia _ spelledOut behind ih =>
    obtain ⟨text, skips, settled, readsAll⟩ := ih
    exact ⟨_, trivia.skips _, spelledOut.settled _,
      .next (spelledOut.reads skips settled behind.apart) readsAll⟩

end PixelAsm
