import PixelAsm.Binary32.Basic
import PixelAsm.Grammar.Basic
import PixelAsm.Source.Numeral
import PixelAsm.Source.Reader
import PixelAsm.Token
import PixelAsm.Trail

/-!
# Matching a grammar

Rules are evaluated step by step against the source, with backtracking. A rule
that fails gives back everything that was accepted since it was entered. A lone
terminal that fails accepts nothing, but leaves the reader behind the trivia it
passed.

Evaluation carries a bound on the nesting of rules and answers `none` when the
bound is hit. Nested rules that accept nothing in between can only repeat each
other, so a bound of one nesting per rule and source position is hit by endless
recursion alone.
-/
namespace PixelAsm

/-- What has been accepted so far, and where reading goes on. -/
structure Progress where
  reader : Reader
  tokens : Trail Token := .empty
  constants : Trail Binary32 := .empty
  contexts : UInt32
  deriving DecidableEq, Repr

/-- The sizes and the position to which a failed rule returns. -/
structure Mark where
  tokens : Nat
  constants : Nat
  reader : Reader
  contexts : UInt32
  deriving DecidableEq, Repr

namespace Progress

def mark (p : Progress) : Mark :=
  { tokens := p.tokens.size, constants := p.constants.size
    reader := p.reader, contexts := p.contexts }

def rollback (p : Progress) (m : Mark) : Progress :=
  { reader := m.reader, tokens := p.tokens.truncate m.tokens
    constants := p.constants.truncate m.constants, contexts := m.contexts }

def place (p : Progress) : Place := { line := p.reader.line, offset := p.reader.offset }

/-- Accepts a terminal of the given length at the reader's position. -/
def accept (p : Progress) (definition : SymbolDef) (id rule : SymbolId) (length : Nat) :
    Progress :=
  { p with
    reader := p.reader.advance length
    tokens := p.tokens.push { id, rule, place := p.place }
    contexts := p.contexts &&& ~~~definition.contextClear ||| definition.contextSet }

end Progress

/-- The verdict on a term or rule and the progress after it; `none` if the bound
on nesting was hit. -/
abbrev Attempt := Option (Bool × Progress)

namespace Grammar

def matchTerminal (g : Grammar) (term : Term) (definition : SymbolDef) (rule : SymbolId)
    (p : Progress) : Bool × Progress :=
  let (found, reader) := p.reader.skipTrivia
  let p := { p with reader }
  if !found then (false, p)
  else if term.symbol = g.valueSymbol then
    match reader.number? with
    | some (value, length) =>
      let p := { p with constants := p.constants.push value }
      (true, p.accept definition term.symbol rule length)
    | none => (false, p)
  else
    match term.text?.or (g.defaultText? term.symbol) with
    | some text =>
      if reader.isAtLiteral text then
        (true, p.accept definition term.symbol rule text.utf8ByteSize)
      else (false, p)
    | none => (false, p)

/-- Evaluates a term; `enter` evaluates the rule that starts at a step. -/
def matchTerm (g : Grammar) (enter : Nat → Progress → Attempt) (rule : SymbolId) (term : Term)
    (p : Progress) : Attempt :=
  match g.symbol? term.symbol with
  | none => some (false, p)
  | some entry =>
    if entry.definition.contextKey &&& p.contexts = 0 then some (false, p)
    else match entry.ruleIndex? with
      | some index => enter index p
      | none => some (g.matchTerminal term entry.definition rule p)

/-- Repeats a term until it fails or accepts nothing, and tells whether it matched
at all. Every repetition but the last moves the reader, so the rounds are bounded
by the bytes that remain. -/
def matchMany (attempt : Progress → Attempt) : Nat → Bool → Progress → Attempt
  | 0, _, _ => none
  | rounds + 1, matched, p =>
    match attempt p with
    | none => none
    | some (false, next) => some (matched, next)
    | some (true, next) =>
      if next.reader.offset = p.reader.offset then some (true, next)
      else matchMany attempt rounds true next

/-- Walks the steps behind the start of a rule. The flag tells whether the rule
still holds; leaving the list or meeting another rule counts as failure. -/
def matchSteps (attempt : Term → Progress → Attempt) (entry : Mark) :
    List Step → Bool → Progress → Attempt
  | [], _, p => some (false, p)
  | .rule _ :: _, _, p => some (false, p)
  | .done :: _, passed, p => some (passed, p)
  | .orElse term :: rest, passed, p =>
    if passed then some (true, p)
    else match attempt term (p.rollback entry) with
      | none => none
      | some (verdict, next) => matchSteps attempt entry rest verdict next
  | .require term :: rest, passed, p =>
    if !passed then matchSteps attempt entry rest false p
    else match attempt term p with
      | none => none
      | some (verdict, next) => matchSteps attempt entry rest verdict next
  | .maybe term :: rest, passed, p =>
    if !passed then matchSteps attempt entry rest false p
    else match attempt term p with
      | none => none
      | some (_, next) => matchSteps attempt entry rest true next
  | .many term :: rest, passed, p =>
    if !passed then matchSteps attempt entry rest false p
    else match matchMany (attempt term) (p.reader.remaining + 1) false p with
      | none => none
      | some (verdict, next) => matchSteps attempt entry rest verdict next

/-- Evaluates the rule that starts at a step, with at most `depth` nested rules. -/
def matchRule (g : Grammar) : (depth : Nat) → (index : Nat) → Progress → Attempt
  | 0, _, _ => none
  | depth + 1, index, p =>
    match g.steps.drop index with
    | .rule symbol :: body =>
      match matchSteps (g.matchTerm (g.matchRule depth) symbol) p.mark body true p with
      | none => none
      | some (true, next) => some (true, next)
      | some (false, next) => some (false, next.rollback p.mark)
    | _ => some (false, p)

/-- One nesting per step and source position. -/
def depthBound (g : Grammar) (source : List UInt8) : Nat :=
  g.steps.length * (source.length + 1)

def start (g : Grammar) (source : List UInt8) : Progress :=
  { reader := .start source, contexts := g.initialContexts }

/-- Evaluates the root rule on a whole source. -/
def matchSource (g : Grammar) (source : List UInt8) : Attempt :=
  g.matchRule (g.depthBound source) 0 (g.start source)

end Grammar
end PixelAsm
