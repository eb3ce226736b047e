/-!
# Grammars

A grammar is a table of symbols and a flat list of steps. A rule starts with a
`rule` step that names the symbol it produces and ends with a `done` step; the
steps between them require, offer or repeat further symbols. A symbol with a rule
stands for whatever its rule matches. A symbol without one is a terminal and
stands for a literal text, except for the one symbol that stands for a numeral.

Symbols are gated by contexts: a set of bits that accepted terminals change. A
symbol is recognised only while one of the bits of its key is active.
-/
namespace PixelAsm

abbrev SymbolId := Nat

/-- A symbol as a step mentions it, with the literal text to match, if any. -/
structure Term where
  symbol : SymbolId
  text? : Option String := none
  deriving DecidableEq, Repr

inductive Step where
  /-- Opens the rule that produces a symbol. -/
  | rule (symbol : SymbolId)
  /-- The rule fails if the term does not match. -/
  | require (term : Term)
  /-- Starts the rule over with this term if it failed so far. -/
  | orElse (term : Term)
  /-- The term may match. -/
  | maybe (term : Term)
  /-- The term matches at least once and as often as it can. -/
  | many (term : Term)
  /-- Closes a rule. -/
  | done
  deriving DecidableEq, Repr

def Step.term? : Step → Option Term
  | .require t | .orElse t | .maybe t | .many t => some t
  | .rule _ | .done => none

structure SymbolDef where
  id : SymbolId
  /-- What the symbol means to the target: an operation, a register, modifier bits. -/
  code : UInt32
  /-- The symbol is recognised only while one of these contexts is active. -/
  contextKey : UInt32
  /-- Contexts that become active when the symbol is accepted. -/
  contextSet : UInt32 := 0
  /-- Contexts that end, before the others become active, when the symbol is accepted. -/
  contextClear : UInt32 := 0
  deriving DecidableEq, Repr

/-- A symbol with the steps that concern it. -/
structure SymbolEntry where
  definition : SymbolDef
  /-- The first step that gives the symbol a literal text. -/
  textIndex? : Option Nat := none
  /-- The step that opens the symbol's rule; terminals have none. -/
  ruleIndex? : Option Nat := none
  deriving DecidableEq, Repr

structure Grammar where
  symbols : List SymbolEntry
  steps : List Step
  /-- The terminal that stands for a numeral. -/
  valueSymbol : SymbolId
  initialContexts : UInt32
  deriving DecidableEq, Repr

namespace Grammar

def symbol? (g : Grammar) (id : SymbolId) : Option SymbolEntry := g.symbols[id]?

def step? (g : Grammar) (index : Nat) : Option Step := g.steps[index]?

/-- A symbol's code. Symbols outside the table mean nothing to the target. -/
def code (g : Grammar) (id : SymbolId) : UInt32 :=
  match g.symbol? id with
  | some entry => entry.definition.code
  | none => 0

/-- The text that a terminal matches where its step gives none. -/
def defaultText? (g : Grammar) (id : SymbolId) : Option String := do
  let entry ← g.symbol? id
  let index ← entry.textIndex?
  let step ← g.step? index
  let term ← step.term?
  term.text?

end Grammar
end PixelAsm
