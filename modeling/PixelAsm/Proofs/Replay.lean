import PixelAsm.Proofs.Constants
import PixelAsm.Proofs.Phrases
import PixelAsm.Reading

/-!
# Replaying the tokens

An alternative that fails gives back its tokens, its constants and the contexts that it had
switched. So what a reading ends with can be told from the tokens that are left, as if nothing
else had been tried: the contexts are what these tokens make of the initial ones, each of them
was allowed by the contexts that those in front of it had left, and the constants are the values
of the numerals among them.
-/
namespace PixelAsm

namespace Grammar

/-- The contexts behind a token. -/
def contextsBehind (g : Grammar) (contexts : UInt32) (t : Token) : UInt32 :=
  match g.symbol? t.id with
  | some entry => entry.definition.contextsAfter contexts
  | none => contexts

/-- The contexts behind some tokens, at the beginning of a source. -/
def replay (g : Grammar) (ts : List Token) : UInt32 := ts.foldl g.contextsBehind g.initialContexts

/-- The contexts allow the symbol of the token. -/
def Admits (g : Grammar) (contexts : UInt32) (t : Token) : Prop :=
  ∃ entry, g.symbol? t.id = some entry ∧ entry.definition.contextKey &&& contexts ≠ 0

/-- The value is read off the source where the token stands. -/
def ReadAt (source : List UInt8) (t : Token) (value : Binary32) : Prop :=
  ∃ length, (Reader.seek source t.place.offset t.place.line).number? = some (value, length)

/-- The reading is what its tokens alone make of the source. -/
structure Replays (g : Grammar) (source : List UInt8) (r : Reading) : Prop where
  contexts : r.contexts = g.replay r.tokens
  admitted : ∀ before t behind, r.tokens = before ++ t :: behind → g.Admits (g.replay before) t
  constants : (r.tokens.filter (·.id == g.valueSymbol)).Forall₂ (ReadAt source) r.constants

/-- What is kept while reading: the reader stands in the source, and the tokens tell the rest. -/
def Retraces (g : Grammar) (source : List UInt8) (p : Progress) : Prop :=
  p.reader.In source ∧ g.Replays source p.reading

variable {g : Grammar} {source : List UInt8}

theorem replay_append (ts us : List Token) :
    g.replay (ts ++ us) = us.foldl g.contextsBehind (g.replay ts) :=
  List.foldl_append

theorem retraces_start (source : List UInt8) : g.Retraces source (g.start source) := by
  refine ⟨Reader.in_start source, ?_⟩
  constructor
  · rfl
  · intro before t behind split
    simp [start, Progress.reading] at split
  · exact .nil

/-- One more token, which the contexts allow, with its value if it is a numeral. -/
theorem Replays.snoc {r : Reading} (replays : g.Replays source r) {t : Token}
    {entry : SymbolEntry} (known : g.symbol? t.id = some entry)
    (active : entry.definition.contextKey &&& r.contexts ≠ 0) {values : List Binary32}
    (read : ([t].filter (·.id == g.valueSymbol)).Forall₂ (ReadAt source) values) :
    g.Replays source
      { tokens := r.tokens ++ [t], constants := r.constants ++ values
        contexts := entry.definition.contextsAfter r.contexts } := by
  constructor
  · rw [replay_append, ← replays.contexts]
    simp [contextsBehind, known]
  · intro before u behind split
    rcases List.eq_nil_or_concat behind with rfl | ⟨inner, last, rfl⟩
    · obtain ⟨rfl, same⟩ := List.append_inj' split rfl
      obtain rfl : t = u := by simpa using same
      exact ⟨entry, known, replays.contexts ▸ active⟩
    · apply replays.admitted before u inner
      have regrouped : r.tokens ++ [t] = (before ++ u :: inner) ++ [last] := by
        simpa using split
      exact (List.append_inj' regrouped rfl).1
  · rw [List.filter_append]
    exact List.rel_append replays.constants read

theorem reading_accept (p : Progress) (definition : SymbolDef) (id rule : SymbolId)
    (length : Nat) :
    (p.accept definition id rule length).reading =
      { tokens := p.reading.tokens ++ [{ id, rule, place := p.place }]
        constants := p.reading.constants
        contexts := definition.contextsAfter p.contexts } := by
  simp [Progress.reading, Progress.accept, SymbolDef.contextsAfter, Trail.toList_push]

/-- Whether a terminal is accepted or not, the tokens tell the rest. -/
theorem retraces_matchTerminal {term : Term} {entry : SymbolEntry}
    (known : g.symbol? term.symbol = some entry) {p : Progress}
    (active : entry.definition.contextKey &&& p.contexts ≠ 0) (owner : SymbolId)
    (retraces : g.Retraces source p) :
    g.Retraces source (g.matchTerminal term entry.definition owner p).2 := by
  obtain ⟨here, replays⟩ := retraces
  have tries := g.tries_matchTerminal term entry.definition owner p
  generalize g.matchTerminal term entry.definition owner p = outcome at tries
  have skipped := here.skipTrivia
  cases tries with
  | refused => exact ⟨skipped, replays⟩
  | @numeral value length found isValue number =>
    refine ⟨skipped.advance length, ?_⟩
    have read : ReadAt source ⟨term.symbol, owner, p.reader.skipTrivia.2.line,
        p.reader.skipTrivia.2.offset⟩ value := by
      refine ⟨length, ?_⟩
      rw [← number]
      simp [Reader.number?, Reader.seek, skipped.position]
    rw [reading_accept]
    simp only [Progress.reading, Trail.toList_push]
    apply replays.snoc known active
    rw [List.filter_cons_of_pos (by simpa using isValue)]
    exact .cons read .nil
  | @literal text found other spelled there =>
    refine ⟨skipped.advance text.utf8ByteSize, ?_⟩
    rw [reading_accept, ← List.append_nil (Progress.reading _).constants]
    apply replays.snoc known active
    rw [List.filter_cons_of_neg (by simpa using other)]
    exact .nil

/-- What is left of reading a source is what the tokens alone make of it, and nothing at all is
left if the source is rejected. -/
theorem matchSource_leaves_no_trace {symbols : List SymbolDef} {steps : List Step}
    {valueSymbol : SymbolId} {initialContexts : UInt32} {g : Grammar}
    (linked : link symbols steps valueSymbol initialContexts = .ok g) {source : List UInt8}
    {matched : Bool} {p : Progress} (found : g.matchSource source = some (matched, p)) :
    g.Replays source p.reading ∧
      (verdict matched p = .error .rejected →
        p.reading = { tokens := [], constants := [], contexts := initialContexts }) := by
  constructor
  · have retraces : g.Retraces source p := by
      apply (evaluates_of_matchSource linked found).preserves _ (retraces_start source)
      intro term entry owner q known active _ before
      exact retraces_matchTerminal known active owner before
    exact retraces.2
  · intro rejected
    have failed : matched = false := by
      cases matched with
      | false => rfl
      | true =>
        unfold verdict at rejected
        split at rejected
        · contradiction
        · split at rejected <;> cases rejected
    subst failed
    have same : p = g.start source := g.matchRule_restores found
    rw [same, link_eq_ok linked]
    rfl

/-- The shader grammar, at a program whose version and phase marker switch contexts and whose
statements are tried as others first. -/
theorem matchSource_leaves_no_trace_phases :
    let source := utf8 "ps.1.4\ndef c2, 1, -.5, 2., 0\ntexld r0, t0\nphase\nmov r0, c2"
    link Dialect.symbols Dialect.rules Symbol.value.id Context.base = .ok Dialect.linked ∧
      ∃ p, Dialect.linked.matchSource source = some (true, p) ∧
        p.reading.constants.length = 4 ∧ p.reading.contexts ≠ Context.base ∧
        Dialect.linked.Replays source p.reading := by
  intro source
  have accepted : (Dialect.linked.matchSource source).map
      (fun found => (found.1, found.2.reading.constants.length,
        decide (found.2.reading.contexts = Context.base))) = some (true, 4, false) := by
    decide +kernel
  obtain ⟨⟨matched, p⟩, found, same⟩ := Option.map_eq_some_iff.mp accepted
  obtain ⟨rfl, constants, contexts⟩ := by simpa using same
  exact ⟨Dialect.grammar_eq_linked, p, found, constants, contexts,
    (matchSource_leaves_no_trace Dialect.grammar_eq_linked found).1⟩

end Grammar
end PixelAsm
