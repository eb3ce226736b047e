import PixelAsm.Assembler.Build
import PixelAsm.Dialect.Rules
import PixelAsm.Reading

/-!
# The compiler

A compiler reads a source with its grammar and assembles the reading. It keeps
the latest reading and the assembler, as the latest program has left it: with its
queues and, if the program was given up, with whatever else was at hand.
-/
namespace PixelAsm

structure Compiler where
  grammar : Except GrammarError Grammar
  reading : Reading := {}
  assembler : Assembler := {}

namespace Compiler

/-- The queues of the latest program. -/
def schedule (c : Compiler) : Schedule := c.assembler.schedule

/-- The compiler of the shader dialects. -/
def standard : Compiler := { grammar := Dialect.grammar }

instance : Inhabited Compiler := ⟨standard⟩

/-- Compiles a source. The assembler is reset first, so the queues of an earlier
program are dropped in any case, unless the compiler has no grammar to work with.
The reading is kept until another source is read. -/
def compile (c : Compiler) (source : String) : Except CompileError Unit × Compiler :=
  match c.grammar with
  | .error fault => (.error (.grammar fault), c)
  | .ok g =>
    match g.read source c.reading with
    | (.error fault, reading) => (.error fault, { c with reading, assembler := c.assembler.reset })
    | (.ok (), reading) =>
      match Assembler.assemble g reading c.assembler.reset with
      | .ok () assembler => (.ok (), { c with reading, assembler })
      | .error fault assembler => (.error fault, { c with reading, assembler })

/-- Of what the compiler has kept, only the reading can have a part in the outcome. -/
theorem compile_apply {c : Compiler} {g : Grammar} (known : c.grammar = .ok g)
    (source : String) :
    c.compile source =
      match g.read source c.reading with
      | (.error fault, reading) => (.error fault, { grammar := .ok g, reading })
      | (.ok (), reading) =>
        match Assembler.assemble g reading {} with
        | .ok () assembler => (.ok (), { grammar := .ok g, reading, assembler })
        | .error fault assembler => (.error fault, { grammar := .ok g, reading, assembler }) := by
  unfold compile
  rw [known]
  rfl

/-- The symbols of the tokens, leaving out ids that name no symbol. -/
def tokenSymbols (c : Compiler) : List Symbol :=
  c.reading.tokens.filterMap fun token => Symbol.ofId? token.id

/-- The active contexts, leaving out bits that name none. -/
def contexts (c : Compiler) : UInt32 := c.reading.contexts &&& Context.known

end Compiler
end PixelAsm
