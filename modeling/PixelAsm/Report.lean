import PixelAsm.Binary32.Shortest
import PixelAsm.Compiler
import PixelAsm.Device.Upload
import PixelAsm.Instruction.Listing

/-!
# Reports

What the command line shows for a shader: on request its tokens, then its queues
and constants, and on request the device calls of an upload.
-/
namespace PixelAsm

/-- Why a file's text cannot be had. -/
inductive FileError where
  | missing
  | notText
  deriving DecidableEq, Repr

def FileError.message : FileError → String
  | missing => "No such file or directory (os error 2)"
  | notText => "stream did not contain valid UTF-8"

/-- The text of a file, given its bytes if there is such a file. -/
def fileText (bytes? : Option ByteArray) : Except FileError String :=
  match bytes? with
  | none => .error .missing
  | some bytes =>
    match String.fromUTF8? bytes with
    | some text => .ok text
    | none => .error .notText

structure ReportOptions where
  tokens : Bool := false
  bind : Bool := false
  deriving DecidableEq, Repr

/-- The text that was written and, after a failure, what failed, from the outermost
task to the cause. -/
structure Report where
  output : String
  failure? : Option (List String) := none
  deriving DecidableEq, Repr

namespace Report

def padLeft (width : Nat) (text : String) : String :=
  String.ofList (List.replicate (width - text.length) ' ') ++ text

def padRight (width : Nat) (text : String) : String :=
  text ++ String.ofList (List.replicate (width - text.length) ' ')

def symbolName (id : SymbolId) : String :=
  match Symbol.ofId? id with
  | some symbol => symbol.name
  | none => "?"

def tokenLine (t : Token) : String :=
  "  " ++ padLeft 4 (toString t.place.line) ++ ":" ++ padRight 5 (toString t.place.offset)
    ++ " " ++ padRight 12 (symbolName t.id) ++ " " ++ symbolName t.rule ++ "\n"

def tokensText (tokens : List Token) : String :=
  "; tokens\n" ++ String.join (tokens.map tokenLine)

def constantsText (constants : List Binary32) : String :=
  if constants.isEmpty then "" else "; constant pool " ++ Binary32.listText constants ++ "\n"

def callsText (calls : List Call) : String :=
  "; api calls\n" ++ String.join (calls.map fun call => "  " ++ call.text ++ "\n")

/-- The report on a compiled shader. -/
def ofCompiler (options : ReportOptions) (c : Compiler) : Report :=
  let output := c.schedule.text ++ constantsText c.reading.constants
  if !options.bind then { output }
  else match ({} : Recorder).upload c.schedule c.reading.constants with
    | (.error fault, _) =>
      { output, failure? := some ["bind machine instructions", fault.message] }
    | (.ok (), device) => { output := output ++ callsText device.calls.toList }

def ofSource (path : String) (options : ReportOptions) (source : String) : Report :=
  let (result, compiler) := Compiler.standard.compile source
  let tokens := if options.tokens then tokensText compiler.reading.tokens else ""
  match result with
  | .error fault =>
    { output := tokens, failure? := some [s!"compile {path}", fault.message] }
  | .ok () =>
    let report := ofCompiler options compiler
    { report with output := tokens ++ report.output }

def ofFile (path : String) (options : ReportOptions) (text : Except FileError String) : Report :=
  match text with
  | .error fault => { output := "", failure? := some [s!"read shader {path}", fault.message] }
  | .ok source => ofSource path options source

end Report
end PixelAsm
