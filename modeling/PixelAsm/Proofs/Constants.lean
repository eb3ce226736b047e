import Mathlib.Data.List.Forall2
import PixelAsm.Proofs.Evaluation
import PixelAsm.Proofs.Numerals

/-!
# The constants of a reading

A constant is kept together with the token of its numeral, and both are given back together.
So whatever alternatives were tried, in the end the constants are the numbers that are written
where the tokens of the numerals stand, in the order of the tokens.
-/
namespace PixelAsm

namespace Reader

/-- The reader stands in the source. -/
structure In (source : List UInt8) (r : Reader) : Prop where
  rest : r.rest <:+ source
  size : r.size = source.length
  inside : r.offset ≤ r.size

variable {source : List UInt8}

theorem in_start (source : List UInt8) : (start source).In source :=
  ⟨List.suffix_refl source, rfl, Nat.zero_le _⟩

theorem In.position {r : Reader} (here : r.In source) : r.rest = source.drop r.offset := by
  have left := r.length_rest
  have whole := here.size
  have inside := here.inside
  rw [List.suffix_iff_eq_drop.mp here.rest]
  congr 1
  omega

theorem In.onward {r s : Reader} (here : r.In source) (reaches : r.Reaches s)
    (left : s.rest <:+ r.rest) : s.In source := by
  obtain ⟨size, forward⟩ := reaches
  refine ⟨left.trans here.rest, size.trans here.size, ?_⟩
  rw [size]
  exact (forward here.inside).2

theorem In.skipTrivia {r : Reader} (here : r.In source) : r.skipTrivia.2.In source :=
  here.onward r.reaches_skipTrivia r.skipTrivia_skips.1.suffix

theorem In.advance {r : Reader} (here : r.In source) (count : Nat) :
    (r.advance count).In source :=
  here.onward (r.reaches_advance count) (List.drop_suffix count r.rest)

/-- Reading something moves the reader. -/
theorem In.lt_advance {r : Reader} (here : r.In source) {count : Nat} (some : 0 < count)
    (bytes : r.rest ≠ []) : r.offset < (r.advance count).offset := by
  have closer := r.remaining_advance_lt some bytes
  have moved := r.reaches_advance count
  have forward := (moved.2 here.inside).1
  simp only [remaining, moved.1] at closer
  omega

end Reader

/-- The constant is the number that is written where the token stands. -/
def Token.Denotes (source : List UInt8) (t : Token) (value : Binary32) : Prop :=
  ∃ l : Literal, l.WrittenAt source t.place.offset ∧ l.value = value

namespace Progress

/-- What has been accepted up to the reader: every token has taken a byte, and the constants
are those of the numerals. -/
structure Recounts (valueSymbol : SymbolId) (source : List UInt8) (p : Progress) : Prop where
  reader : p.reader.In source
  tokens : p.tokens.size ≤ p.reader.offset
  constants : (p.tokens.toList.filter (·.id == valueSymbol)).Forall₂ (Token.Denotes source)
    p.constants.toList

variable {valueSymbol : SymbolId} {source : List UInt8} {p : Progress}

theorem Recounts.skipTrivia (recounts : p.Recounts valueSymbol source) :
    ({ p with reader := p.reader.skipTrivia.2 } : Progress).Recounts valueSymbol source := by
  have forward := (p.reader.reaches_skipTrivia.2 recounts.reader.inside).1
  exact ⟨recounts.reader.skipTrivia, recounts.tokens.trans forward, recounts.constants⟩

/-- Accepting a terminal adds its token, and the value if it is a numeral. -/
theorem Recounts.accept (recounts : p.Recounts valueSymbol source) {values : Trail Binary32}
    {own : List Binary32} (grown : values.toList = p.constants.toList ++ own)
    (definition : SymbolDef) {id rule : SymbolId}
    (read : ([({ id, rule, place := p.place } : Token)].filter (·.id == valueSymbol)).Forall₂
      (Token.Denotes source) own)
    {length : Nat} (some : 0 < length) (bytes : p.reader.rest ≠ []) :
    (Progress.accept { p with constants := values } definition id rule length).Recounts
      valueSymbol source := by
  have further := recounts.reader.lt_advance some bytes
  constructor
  · exact recounts.reader.advance length
  · exact (Nat.succ_le_succ recounts.tokens).trans further
  · simp only [Progress.accept, Trail.toList_push, List.filter_append, grown]
    exact List.rel_append recounts.constants read

end Progress

namespace Grammar

/-- Whether a terminal is accepted or not, the constants are those of the numerals. -/
theorem recounts_matchTerminal (g : Grammar) {source : List UInt8} (term : Term)
    (definition : SymbolDef) (rule : SymbolId) {p : Progress}
    (recounts : p.Recounts g.valueSymbol source) :
    (g.matchTerminal term definition rule p).2.Recounts g.valueSymbol source := by
  have skipped := recounts.skipTrivia
  obtain ⟨-, settled, found⟩ := p.reader.skipTrivia_skips
  unfold matchTerminal
  dsimp only
  split
  · exact skipped
  next some =>
    have bytes : p.reader.skipTrivia.2.rest ≠ [] := found.mp (by simpa using some)
    split
    next isValue =>
      split
      next value length number =>
        obtain ⟨l, written, same⟩ :=
          Literal.exists_of_number? skipped.reader.position settled number
        have positive := Reader.number?_length_pos number
        apply skipped.accept (Trail.toList_push _ value) definition _ positive bytes
        rw [List.filter_cons_of_pos (by simpa using isValue)]
        exact .cons ⟨l, written, same⟩ .nil
      · exact skipped
    next other =>
      split
      next text known =>
        split
        next literal =>
          have positive := Reader.length_pos_of_isAtLiteral literal
          apply skipped.accept (List.append_nil _).symm definition _ positive bytes
          rw [List.filter_cons_of_neg (by simpa using other)]
          exact .nil
        · exact skipped
      · exact skipped

variable {g : Grammar}

/-- Whatever the verdict on a source is, every constant belongs to a numeral that is left. -/
theorem recounts_matchSource (wellFormed : g.WellFormed) {symbol : SymbolId} {body : List Step}
    (opens : g.steps.drop 0 = .rule symbol :: body) {source : List UInt8} {verdict : Bool}
    {q : Progress} (found : g.matchSource source = some (verdict, q)) :
    q.Recounts g.valueSymbol source := by
  have evaluates : Evaluates g (.rule 0) (g.start source) verdict q :=
    matchRule_sound wellFormed opens found
  refine evaluates.preserves (fun term entry owner p _ _ _ recounts =>
    g.recounts_matchTerminal term entry.definition owner recounts) ?_
  exact ⟨Reader.in_start source, Nat.zero_le _, .nil⟩

end Grammar
end PixelAsm
