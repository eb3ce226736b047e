import PixelAsm.Report

/-!
# Command line

`<shader> [--tokens] [--bind]` prints the report on a shader file.
-/
namespace PixelAsm.CommandLine

/-- The shader's path and the options. Flags may stand on either side of the path. -/
def parse? (args : List String) : Option (String × ReportOptions) :=
  let (flags, paths) := args.partition (·.startsWith "--")
  match paths with
  | [path] =>
    if flags.all ["--tokens", "--bind"].contains then
      some (path, { tokens := flags.contains "--tokens", bind := flags.contains "--bind" })
    else none
  | _ => none

/-- What failed, then its causes. -/
def failureText : List String → String
  | [] => ""
  | [fault] => s!"Error: {fault}"
  | fault :: causes => s!"Error: {fault}\n\nCaused by:\n    " ++ "\n    ".intercalate causes

def fileBytes? (path : String) : IO (Option ByteArray) := do
  try return some (← IO.FS.readBinFile path)
  catch _ => return none

end PixelAsm.CommandLine

def main (args : List String) : IO UInt32 := do
  match PixelAsm.CommandLine.parse? args with
  | none =>
    IO.eprintln "usage: <shader> [--tokens] [--bind]"
    return 2
  | some (path, options) =>
    let bytes? ← PixelAsm.CommandLine.fileBytes? path
    let report := PixelAsm.Report.ofFile path options (PixelAsm.fileText bytes?)
    IO.print report.output
    match report.failure? with
    | none => return 0
    | some chain =>
      IO.eprintln (PixelAsm.CommandLine.failureText chain)
      return 1
