/-!
# Contexts

Contexts tell the shader dialects apart. A program's version opens its dialect,
and a dialect of the family before ps.1.4 includes the earlier ones.
-/
namespace PixelAsm.Context

def base : UInt32 := 0x01
def ps11 : UInt32 := 0x02
def ps12 : UInt32 := 0x04
def ps13 : UInt32 := 0x08
def ps14 : UInt32 := 0x10
/-- The first phase of a ps.1.4 program, which the phase marker ends. -/
def phase1 : UInt32 := 0x20

/-- The bits that name a context. -/
def known : UInt32 := base ||| ps11 ||| ps12 ||| ps13 ||| ps14 ||| phase1

end PixelAsm.Context
