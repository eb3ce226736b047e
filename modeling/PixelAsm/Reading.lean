import PixelAsm.CompileError
import PixelAsm.Grammar.Match

/-!
# Readings

A reading is what a grammar finds in a source: the accepted terminals, the values
of the numerals among them, and the contexts at the end. It is kept also when the
source is refused, as far as it went.
-/
namespace PixelAsm

structure Reading where
  tokens : List Token := []
  constants : List Binary32 := []
  contexts : UInt32 := 0
  deriving DecidableEq, Repr

/-- Longer sources are refused unread. -/
def sourceLimit : Nat := 65536

def Progress.reading (p : Progress) : Reading :=
  { tokens := p.tokens.toList, constants := p.constants.toList, contexts := p.contexts }

namespace Grammar

/-- A source is accepted if the root rule matches and nothing but trivia follows. -/
def verdict (matched : Bool) (p : Progress) : Except CompileError Unit :=
  if !matched then .error .rejected
  else match p.reader.skipTrivia with
    | (true, next) => .error (.trailingInput { line := next.line, offset := next.offset })
    | (false, _) => .ok ()

/-- Reads a source. A source that is too large leaves the previous reading. -/
def read (g : Grammar) (source : String) (previous : Reading) :
    Except CompileError Unit × Reading :=
  let bytes := utf8 source
  if sourceLimit < bytes.length then
    (.error (.sourceTooLarge bytes.length sourceLimit), previous)
  else match g.matchSource bytes with
    | none => (.error .endlessRecursion, previous)
    | some (matched, p) => (verdict matched p, p.reading)

end Grammar

/-- A grammar, if one is configured, with its latest reading. -/
structure Recognizer where
  grammar? : Option Grammar
  reading : Reading := {}
  deriving DecidableEq, Repr

def Recognizer.read (r : Recognizer) (source : String) : Except CompileError Unit × Recognizer :=
  match r.grammar? with
  | none => (.error .noGrammar, r)
  | some g =>
    let (verdict, reading) := g.read source r.reading
    (verdict, { r with reading })

end PixelAsm
