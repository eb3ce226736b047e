import PixelAsm.Grammar.Basic

/-!
# Linking a grammar

Linking checks a symbol table against a list of steps and records, per symbol,
where its rule starts and where it first gets a literal text. The first fault in
reading order is reported.
-/
namespace PixelAsm

inductive GrammarError where
  | symbolOutOfOrder (index : Nat) (id : SymbolId)
  | unknownSymbol (step : Nat) (id : SymbolId)
  | missingRoot
  | unterminatedRule (step : Nat) (id : SymbolId)
  | duplicateRule (id : SymbolId)
  | missingText (step : Nat) (id : SymbolId)
  deriving DecidableEq, Repr

def GrammarError.message : GrammarError → String
  | .symbolOutOfOrder index id =>
    s!"symbol table entry {index} declares id {id}; ids must be dense and ordered"
  | .unknownSymbol step id => s!"rule step {step} references unknown symbol id {id}"
  | .missingRoot => "rule table must start with a rule step"
  | .unterminatedRule step id =>
    s!"rule for symbol id {id} starting at step {step} is not terminated by an end step"
  | .duplicateRule id => s!"symbol id {id} has more than one rule"
  | .missingText step id => s!"terminal symbol id {id} at step {step} has no literal text"

namespace Grammar

/-- What linking knows after the steps it has passed. -/
structure Linking where
  entries : List SymbolEntry
  /-- The rule that has not been closed yet, with the step that opened it. -/
  openRule? : Option (Nat × SymbolId) := none
  deriving Repr

/-- Symbols stand in the table at the position that their id names. -/
def checkOrder : Nat → List SymbolDef → Except GrammarError Unit
  | _, [] => .ok ()
  | index, definition :: rest =>
    if definition.id = index then checkOrder (index + 1) rest
    else .error (.symbolOutOfOrder index definition.id)

def checkRoot : List Step → Except GrammarError Unit
  | .rule _ :: _ => .ok ()
  | _ => .error .missingRoot

def linkRule (index : Nat) (id : SymbolId) (l : Linking) : Except GrammarError Linking :=
  match l.entries[id]? with
  | none => .error (.unknownSymbol index id)
  | some entry =>
    match l.openRule?, entry.ruleIndex? with
    | some (start, openId), _ => .error (.unterminatedRule start openId)
    | none, some _ => .error (.duplicateRule id)
    | none, none =>
      .ok { entries := l.entries.modify id ({ · with ruleIndex? := some index })
            openRule? := some (index, id) }

def linkTerm (index : Nat) (term : Term) (l : Linking) : Except GrammarError Linking :=
  match l.entries[term.symbol]? with
  | none => .error (.unknownSymbol index term.symbol)
  | some entry =>
    match term.text?, entry.textIndex? with
    | some _, none =>
      .ok { l with entries := l.entries.modify term.symbol ({ · with textIndex? := some index }) }
    | _, _ => .ok l

def linkSteps : Nat → List Step → Linking → Except GrammarError Linking
  | _, [], l => .ok l
  | index, step :: rest, l =>
    let linked := match step with
      | .rule id => linkRule index id l
      | .done => .ok { l with openRule? := none }
      | .require term | .orElse term | .maybe term | .many term => linkTerm index term l
    match linked with
    | .error fault => .error fault
    | .ok next => linkSteps (index + 1) rest next

def checkClosed (l : Linking) : Except GrammarError Unit :=
  match l.openRule? with
  | some (start, id) => .error (.unterminatedRule start id)
  | none => .ok ()

/-- A terminal that is not the numeral needs some text to match. -/
def lacksText (entries : List SymbolEntry) (valueSymbol : SymbolId) (term : Term) : Bool :=
  match entries[term.symbol]? with
  | none => false
  | some entry =>
    entry.ruleIndex?.isNone && term.symbol != valueSymbol
      && term.text?.isNone && entry.textIndex?.isNone

def checkTexts (entries : List SymbolEntry) (valueSymbol : SymbolId) :
    Nat → List Step → Except GrammarError Unit
  | _, [] => .ok ()
  | index, step :: rest =>
    match step.term? with
    | some term =>
      if lacksText entries valueSymbol term then .error (.missingText index term.symbol)
      else checkTexts entries valueSymbol (index + 1) rest
    | none => checkTexts entries valueSymbol (index + 1) rest

/-- Builds a grammar from its parts. The rule that the first step opens is the root. -/
def link (symbols : List SymbolDef) (steps : List Step) (valueSymbol : SymbolId)
    (initialContexts : UInt32) : Except GrammarError Grammar := do
  checkOrder 0 symbols
  checkRoot steps
  let linked ← linkSteps 0 steps { entries := symbols.map ({ definition := · }) }
  checkClosed linked
  checkTexts linked.entries valueSymbol 0 steps
  return { symbols := linked.entries, steps, valueSymbol, initialContexts }

end Grammar
end PixelAsm
