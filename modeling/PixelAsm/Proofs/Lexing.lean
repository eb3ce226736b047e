import PixelAsm.Proofs.Evaluation
import PixelAsm.Proofs.Lines
import PixelAsm.Proofs.Numerals

/-!
# Tokens in their source

Reading tries alternatives, skips trivia in vain and goes back, but what is left in the end is a
plain account of the source: tokens one after the other, each at the first byte behind the trivia
that follow the token before it, with its line, and as long as the literal or the numeral that it
was accepted for. Behind the last one there are trivia up to the end of the source, or up to the
place that is reported.
-/
namespace PixelAsm

open Reader

namespace Grammar

/-! ### Literals of a table -/

/-- The text is a literal of the symbol, at some step of the table. -/
def HasLiteral (g : Grammar) (id : SymbolId) (text : String) : Prop :=
  ∃ term ∈ g.steps.filterMap Step.term?, term.symbol = id ∧ term.text? = some text

/-- No literal of the table holds a newline byte. -/
def LiteralsInLine (g : Grammar) : Prop :=
  ∀ id text, g.HasLiteral id text → ∀ b ∈ utf8 text, isNewline b = false

/-- The text that a symbol has by default is one of its literals. -/
theorem hasLiteral_of_defaultText? {symbols : List SymbolDef} {steps : List Step}
    {valueSymbol : SymbolId} {initialContexts : UInt32} {g : Grammar}
    (linked : link symbols steps valueSymbol initialContexts = .ok g) {id : SymbolId}
    {text : String} (given : g.defaultText? id = some text) : g.HasLiteral id text := by
  simp only [defaultText?, step?, Option.bind_eq_bind, Option.bind_eq_some_iff] at given
  obtain ⟨entry, known, index, first, step, there, term, own, spelled⟩ := given
  rw [link_eq_ok linked] at known there
  simp only [symbol?, List.getElem?_mapIdx] at known
  obtain ⟨definition, -, rfl⟩ := Option.map_eq_some_iff.mp known
  simp only [recorded, Option.none_or, Nat.add_zero, Option.map_id'] at first
  obtain ⟨inside, gives, -⟩ := List.findIdx?_eq_some_iff_getElem.mp first
  obtain rfl : steps[index] = step := by simpa [inside] using there
  have names : term.symbol = id := by
    simp only [Step.givesText, own, Bool.and_eq_true, beq_iff_eq] at gives
    exact gives.1
  refine ⟨term, ?_, names, spelled⟩
  rw [link_eq_ok linked]
  exact List.mem_filterMap.mpr ⟨_, List.getElem_mem inside, own⟩

/-! ### Tokens one after the other -/

/-- What is written at an offset is a literal of the symbol, or a numeral if that is what the
symbol stands for, and has the given length. -/
def Written (g : Grammar) (source : List UInt8) (id : SymbolId) (offset length : Nat) : Prop :=
  if id = g.valueSymbol then ∃ value, (located source offset).number? = some (value, length)
  else ∃ text, g.HasLiteral id text ∧ (source.drop offset).take length = utf8 text

/-- The token is the next one behind an offset: it starts where skipping trivia leads to from
there, on the line that it says, and takes some bytes of the source. -/
structure Follows (g : Grammar) (source : List UInt8) (start : Nat) (t : Token) (length : Nat) :
    Prop where
  lands : (located source start).skipTrivia = (true, located source t.place.offset)
  gap : Skips (source.drop start) (source.drop t.place.offset)
  line : t.place.line = 1 + newlines (source.take t.place.offset)
  positive : 1 ≤ length
  inside : t.place.offset + length ≤ source.length
  written : g.Written source t.id t.place.offset length

/-- The tokens account for the source from one offset up to another one. -/
inductive Lexes (g : Grammar) (source : List UInt8) : Nat → List Token → Nat → Prop
  | nothing {offset : Nat} : Lexes g source offset [] offset
  | token {start stop length : Nat} {t : Token} {ts : List Token}
      (own : g.Follows source start t length)
      (behind : Lexes g source (t.place.offset + length) ts stop) :
      Lexes g source start (t :: ts) stop

variable {g : Grammar} {source : List UInt8}

theorem Lexes.append {start middle stop : Nat} {ts us : List Token}
    (first : g.Lexes source start ts middle) (second : g.Lexes source middle us stop) :
    g.Lexes source start (ts ++ us) stop := by
  induction first with
  | nothing => exact second
  | token own _ ih => exact .token own (ih second)

/-- A token does not start in front of the offset from which it was looked for. -/
theorem Follows.le {start length : Nat} {t : Token} (own : g.Follows source start t length) :
    start ≤ t.place.offset := by
  obtain ⟨bytes, passes⟩ := (located source start).exists_passes_skipTrivia
  have offset := passes.offset
  rw [own.lands] at offset
  have same : t.place.offset = start + bytes.length := offset
  omega

theorem Lexes.le {start stop : Nat} {ts : List Token} (lexes : g.Lexes source start ts stop) :
    ∀ t ∈ ts, start ≤ t.place.offset := by
  induction lexes with
  | nothing => simp
  | token own _ ih =>
    intro u member
    rcases List.mem_cons.mp member with rfl | behind
    · exact own.le
    · have first := own.le
      have later := ih u behind
      omega

theorem Lexes.pairwise {start stop : Nat} {ts : List Token}
    (lexes : g.Lexes source start ts stop) :
    ts.Pairwise fun t u => t.place.offset < u.place.offset := by
  induction lexes with
  | nothing => exact .nil
  | @token _ _ length t _ own behind ih =>
    refine .cons (fun u member => ?_) ih
    have later := behind.le u member
    have positive := own.positive
    omega

end Grammar

/-! ### Lengths -/

namespace Literal

/-- A literal is written with a sign, a point and digits. -/
theorem of_mem_bytes {l : Literal} {b : UInt8} (member : b ∈ l.bytes) :
    b = 0x2D ∨ b = 0x2E ∨ ∃ d, b = digit d := by
  simp only [bytes, List.mem_append, List.mem_map] at member
  rcases member with inSign | ⟨d, -, rfl⟩ | inPoint
  · left
    cases negative : l.negative with
    | false => simp [sign, negative] at inSign
    | true => simpa [sign, negative] using inSign
  · exact .inr (.inr ⟨d, rfl⟩)
  · cases fraction : l.fraction? with
    | none => simp [point, fraction] at inPoint
    | some behind =>
      simp only [point, fraction, Option.elim_some, List.mem_cons, List.mem_map] at inPoint
      rcases inPoint with rfl | ⟨d, -, rfl⟩
      · exact .inr (.inl rfl)
      · exact .inr (.inr ⟨d, rfl⟩)

/-- A literal is written in one line. -/
theorem isNewline_of_mem_bytes {l : Literal} {b : UInt8} (member : b ∈ l.bytes) :
    isNewline b = false := by
  have digits : ∀ d : Fin 10, isNewline (digit d) = false := by decide
  rcases of_mem_bytes member with rfl | rfl | ⟨d, rfl⟩
  · rfl
  · rfl
  · exact digits d

end Literal

namespace Reader

variable {r : Reader}

/-- The bytes of a numeral are there, and none of them is a newline. -/
theorem clean_of_number? (settled : Settled r.rest) {value : Binary32} {length : Nat}
    (number : r.number? = some (value, length)) :
    length ≤ r.rest.length ∧ ∀ b ∈ r.rest.take length, isNewline b = false := by
  obtain ⟨⟨n, width⟩, scanned, same⟩ := Option.map_eq_some_iff.mp number
  cases same
  rw [Literal.takeWhile_isBlank settled, List.length_nil, List.drop_zero] at scanned
  obtain ⟨l, rfl, rfl, stands, -⟩ := Literal.scan?_longest scanned
  simp only [Literal.takeWhile_isBlank settled, List.length_nil, Nat.zero_add]
  constructor
  · exact stands.length_le
  · rw [← List.prefix_iff_eq_take.mp stands]
    exact fun b => Literal.isNewline_of_mem_bytes

theorem take_of_isAtLiteral {text : String} (literal : r.isAtLiteral text = true) :
    text.utf8ByteSize ≤ r.rest.length ∧ r.rest.take text.utf8ByteSize = utf8 text := by
  have length : (utf8 text).length = text.utf8ByteSize := by simp [utf8]
  simp only [isAtLiteral, Bool.and_eq_true, List.isPrefixOf_iff_prefix] at literal
  rw [← length]
  exact ⟨literal.2.length_le, (List.prefix_iff_eq_take.mp literal.2).symm⟩

/-- Advancing over bytes that are there is skipping them. -/
theorem advance_eq_skip {count : Nat} (inside : r.offset ≤ r.size)
    (enough : count ≤ r.rest.length) : r.advance count = r.skip count := by
  have left := r.length_rest
  have offset : min (r.offset + count) r.size = r.offset + count := by omega
  simp [advance, skip, offset]

end Reader

/-! ### What is kept while reading -/

/-- The tokens account for the source up to a reader, and the progress stands there or behind
the trivia that follow. -/
def Progress.Lexed (g : Grammar) (source : List UInt8) (p : Progress) : Prop :=
  ∃ (bytes : List UInt8) (r : Reader), (start source).Passes bytes r ∧
    g.Lexes source 0 p.tokens.toList r.offset ∧ (p.reader = r ∨ p.reader = r.skipTrivia.2)

namespace Grammar

variable {g : Grammar} {source : List UInt8}

theorem lexed_start : (g.start source).Lexed g source :=
  ⟨[], Reader.start source, .refl _, .nothing, .inl rfl⟩

/-- A token that is accepted behind the trivia follows those that were accepted before. -/
theorem lexed_accept {bytes : List UInt8} {r : Reader} {p : Progress}
    (passes : (Reader.start source).Passes bytes r)
    (lexes : g.Lexes source 0 p.tokens.toList r.offset) (found : r.skipTrivia.1 = true)
    (constants : Trail Binary32) (definition : SymbolDef) {id : SymbolId} (rule : SymbolId)
    {length : Nat} (positive : 0 < length) (enough : length ≤ r.skipTrivia.2.rest.length)
    (clean : ∀ b ∈ r.skipTrivia.2.rest.take length, isNewline b = false)
    (written : g.Written source id r.skipTrivia.2.offset length) :
    (({ p with reader := r.skipTrivia.2, constants } : Progress).accept definition id rule
      length).Lexed g source := by
  obtain ⟨trivia, skipped⟩ := r.exists_passes_skipTrivia
  have reached := passes.trans skipped
  have here := reached.eq_located
  have left := r.skipTrivia.2.length_rest
  have size : r.skipTrivia.2.size = source.length := reached.size
  have inside : r.skipTrivia.2.offset ≤ r.skipTrivia.2.size := by omega
  have own : g.Follows source r.offset
      ⟨id, rule, ⟨r.skipTrivia.2.line, r.skipTrivia.2.offset⟩⟩ length := by
    constructor
    · rw [← passes.eq_located, ← here]
      exact Prod.ext found rfl
    · have gap := r.skipTrivia_skips.1
      rw [congrArg Reader.rest passes.eq_located, congrArg Reader.rest here] at gap
      exact gap
    · rw [here]
      rfl
    · exact positive
    · simp only
      omega
    · exact written
  refine ⟨_, r.skipTrivia.2.skip length, reached.trans (passes_skip enough clean), ?_, .inl ?_⟩
  · simp only [Progress.accept, Trail.toList_push]
    exact lexes.append (.token own .nothing)
  · exact advance_eq_skip inside enough

/-- Whether a terminal is accepted or not, the tokens account for the source. -/
theorem lexed_matchTerminal {symbols : List SymbolDef} {steps : List Step}
    {valueSymbol : SymbolId} {initialContexts : UInt32}
    (linked : link symbols steps valueSymbol initialContexts = .ok g) (inLine : g.LiteralsInLine)
    {term : Term} (named : term ∈ g.steps.filterMap Step.term?) (definition : SymbolDef)
    (rule : SymbolId) {p : Progress} (lexed : p.Lexed g source) :
    (g.matchTerminal term definition rule p).2.Lexed g source := by
  obtain ⟨bytes, r, passes, lexes, stands⟩ := lexed
  -- the trivia that were skipped in vain before are skipped again
  have again : p.reader.skipTrivia = r.skipTrivia := by
    rcases stands with rfl | moved
    · rfl
    · rw [moved, skipTrivia_skipTrivia]
  obtain ⟨trivia, skipped⟩ := r.exists_passes_skipTrivia
  have here := (passes.trans skipped).eq_located
  have tries := g.tries_matchTerminal term definition rule p
  generalize g.matchTerminal term definition rule p = outcome at tries
  cases tries with
  | refused =>
    rw [again]
    exact ⟨bytes, r, passes, lexes, .inr rfl⟩
  | @numeral value length found isValue number =>
    rw [again] at found number ⊢
    obtain ⟨enough, clean⟩ := clean_of_number? r.skipTrivia_skips.2.1 number
    apply lexed_accept passes lexes found _ definition rule (number?_length_pos number) enough
      clean
    rw [Written, if_pos isValue, ← here]
    exact ⟨value, number⟩
  | @literal text found other spelled there =>
    rw [again] at found there ⊢
    obtain ⟨enough, bytes_eq⟩ := take_of_isAtLiteral there
    have known : g.HasLiteral term.symbol text := by
      rcases Option.or_eq_some_iff.mp spelled with own | ⟨-, default⟩
      · exact ⟨term, named, rfl, own⟩
      · exact hasLiteral_of_defaultText? linked default
    apply lexed_accept passes lexes found p.constants definition rule
      (length_pos_of_isAtLiteral there) enough
    · rw [bytes_eq]
      exact inLine _ _ known
    · rw [Written, if_neg other]
      refine ⟨text, known, ?_⟩
      rw [← bytes_eq, here]
      rfl

/-! ### The whole source -/

/-- How the source ends behind an offset, if reading ends with this verdict. -/
inductive Ends (source : List UInt8) (stop : Nat) : Except CompileError Unit → Prop
  | rejected : Ends source stop (.error .rejected)
  /-- Only trivia are left. -/
  | accepted (lands : (located source stop).skipTrivia = (false, located source source.length)) :
      Ends source stop (.ok ())
  /-- The place is that of the first byte behind the trivia. -/
  | trailing {offset : Nat}
      (lands : (located source stop).skipTrivia = (true, located source offset)) :
      Ends source stop
        (.error (.trailingInput { line := 1 + newlines (source.take offset), offset }))

theorem ends_verdict {bytes : List UInt8} {r : Reader}
    (passes : (Reader.start source).Passes bytes r) {p : Progress}
    (stands : p.reader = r ∨ p.reader = r.skipTrivia.2) (matched : Bool) :
    Ends source r.offset (verdict matched p) := by
  have again : p.reader.skipTrivia = r.skipTrivia := by
    rcases stands with same | moved
    · rw [same]
    · rw [moved, skipTrivia_skipTrivia]
  obtain ⟨trivia, skipped⟩ := r.exists_passes_skipTrivia
  have reached := passes.trans skipped
  have here := reached.eq_located
  obtain ⟨-, -, found⟩ := r.skipTrivia_skips
  cases matched with
  | false => exact .rejected
  | true =>
    unfold verdict
    rw [again]
    cases landed : r.skipTrivia with
    | mk more next =>
      simp only [landed] at here found reached
      cases more with
      | true =>
        have line : next.line = 1 + newlines (source.take next.offset) := congrArg Reader.line here
        simp only [Bool.not_true, Bool.false_eq_true, if_false, line]
        apply Ends.trailing
        rw [← passes.eq_located, landed, ← here]
      | false =>
        apply Ends.accepted
        -- nothing is left, so the reader is at the end
        have none : next.rest = [] := by simpa using found
        have position : source = bytes ++ trivia ++ next.rest := reached.rest
        have offset : next.offset = 0 + (bytes ++ trivia).length := reached.offset
        have atEnd : next.offset = source.length := by rw [offset, position, none]; simp
        rw [← passes.eq_located, landed, ← atEnd, ← here]

end Grammar

/-- The shader dialects have no literal with a newline in it. -/
theorem Dialect.literalsInLine : Dialect.linked.LiteralsInLine := by
  have each : (Dialect.linked.steps.filterMap Step.term?).all (fun term =>
      term.text?.all fun text => (utf8 text).all (!isNewline ·)) = true := by decide +kernel
  rintro id text ⟨term, named, -, spelled⟩ b member
  have clean := List.all_eq_true.mp each term named
  rw [spelled, Option.all_some] at clean
  simpa using List.all_eq_true.mp clean b member

namespace Grammar

/-- Whatever the verdict on a source is, the tokens that are left account for it without a gap,
from its beginning up to where the verdict says that it ends. -/
theorem matchSource_lossless {symbols : List SymbolDef} {steps : List Step}
    {valueSymbol : SymbolId} {initialContexts : UInt32} {g : Grammar}
    (linked : link symbols steps valueSymbol initialContexts = .ok g) (inLine : g.LiteralsInLine)
    {source : List UInt8} {matched : Bool} {p : Progress}
    (found : g.matchSource source = some (matched, p)) :
    ∃ stop, g.Lexes source 0 p.reading.tokens stop ∧
      p.reading.tokens.Pairwise (fun t u => t.place.offset < u.place.offset) ∧
      Ends source stop (verdict matched p) := by
  have lexed : p.Lexed g source := by
    apply (evaluates_of_matchSource linked found).preserves_among (rulesName_steps g)
    · intro term entry owner q named _ _ _
      exact lexed_matchTerminal linked inLine named entry.definition owner
    · simp [Goal.terms]
    · exact lexed_start
  obtain ⟨bytes, r, passes, lexes, stands⟩ := lexed
  exact ⟨r.offset, lexes, lexes.pairwise, ends_verdict passes stands matched⟩

/-- The shader grammar, at a program with both kinds of line ends, pairs of them and comments
between its tokens, and with a byte behind it that no symbol starts with. -/
theorem matchSource_lossless_trailing :
    let source := utf8
      "ps.1.1 ; v\r\n\n\rdef c0, 1, -.5, 2., 0 // x\n\nmov r0, c0\n  ; end\r\n ! zz"
    link Dialect.symbols Dialect.rules Symbol.value.id Context.base = .ok Dialect.linked ∧
      Dialect.linked.LiteralsInLine ∧
      ∃ p, Dialect.linked.matchSource source = some (true, p) ∧
        p.reading.tokens.map (·.place.line) = [1, 3, 3, 3, 3, 3, 3, 3, 3, 3, 3, 5, 5, 5, 5] ∧
        ∃ stop, Dialect.linked.Lexes source 0 p.reading.tokens stop ∧
          p.reading.tokens.Pairwise (fun t u => t.place.offset < u.place.offset) ∧
          Ends source stop (verdict true p) := by
  intro source
  have accepted : (Dialect.linked.matchSource source).map
      (fun found => (found.1, found.2.reading.tokens.map (·.place.line))) =
        some (true, [1, 3, 3, 3, 3, 3, 3, 3, 3, 3, 3, 5, 5, 5, 5]) := by decide +kernel
  obtain ⟨⟨matched, p⟩, found, same⟩ := Option.map_eq_some_iff.mp accepted
  obtain ⟨rfl, lines⟩ := Prod.mk.inj same
  exact ⟨Dialect.grammar_eq_linked, Dialect.literalsInLine, p, found, lines,
    matchSource_lossless Dialect.grammar_eq_linked Dialect.literalsInLine found⟩

end Grammar
end PixelAsm
