import PixelAsm.Grammar.Basic

/-!
# Tokens
-/
namespace PixelAsm

/-- A place in a source text. Lines count from one, offsets are bytes from zero. -/
structure Place where
  line : Nat := 0
  offset : Nat := 0
  deriving DecidableEq, Repr

/-- An accepted terminal with the symbol whose rule accepted it. -/
structure Token where
  id : SymbolId
  rule : SymbolId
  place : Place := {}
  deriving DecidableEq, Repr

end PixelAsm
