import PixelAsm.Grammar.Link
import PixelAsm.Text.Hex
import PixelAsm.Token

/-!
# Compile errors

Why a source does not compile, and the words for it.
-/
namespace PixelAsm

inductive CompileError where
  | noGrammar
  | grammar (fault : GrammarError)
  | sourceTooLarge (size limit : Nat)
  /-- The grammar has a rule that enters itself without reading anything. -/
  | endlessRecursion
  | rejected
  | trailingInput (place : Place)
  | pipeNotCleared (place : Place)
  | operandOverflow (place : Place)
  | missingOperand (operand : Nat) (place : Place)
  | badOperandCount (count : Nat) (place : Place)
  | undefinedRead (register : UInt32) (place : Place)
  | expansionOperand (operand : Nat) (register : UInt32)
  | missingConstants (index available : Nat)
  | unexpectedToken (token : Token)
  deriving DecidableEq, Repr

def Place.text (p : Place) : String := s!"line {p.line}, offset {p.offset}"

def CompileError.message : CompileError → String
  | noGrammar => "no rule table configured"
  | grammar fault => fault.message
  | sourceTooLarge size limit => s!"shader source is {size} bytes (max {limit})"
  | endlessRecursion => "rule table recurses without reading input"
  | rejected => "shader source was not recognised by the grammar"
  | trailingInput place => s!"unexpected trailing input at {place.text}"
  | pipeNotCleared place => s!"instruction pipe not cleared at {place.text}"
  | operandOverflow place => s!"too many operands at {place.text}"
  | missingOperand operand place => s!"missing operand {operand} at {place.text}"
  | badOperandCount count place => s!"instruction at {place.text} has {count} source operands"
  | undefinedRead register place =>
    s!"register {hexText register} read at {place.text} was never written"
  | expansionOperand operand register =>
    s!"macro operand {operand} register {hexText register} has no counterpart in the expansion"
  | missingConstants index available =>
    s!"constant definition at index {index} needs 4 values but the pool holds {available}"
  | unexpectedToken token =>
    s!"unexpected token id {token.id} (rule {token.rule}) at {token.place.text}"

end PixelAsm
