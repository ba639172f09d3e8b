import Oberon.Check.Declarations
import Oberon.CommandLine.Arguments
import Oberon.Constant.Evaluator
import Oberon.File
import Oberon.Source
import Oberon.Syntax.Counter
import Oberon.Syntax.Listing
import Oberon.Text.Format

/-!
# Sessions

A session reads a module, runs the passes that the command line asks for and ends with an exit
code.  The passes always run in the same order: listing, canonical source, checks, constants,
statistics.  An error ends the session and keeps what has been written before it.
-/

namespace Oberon.CommandLine

structure Output where
  exitCode : Nat
  stdout : String
  stderr : String
deriving DecidableEq, Repr

structure PhaseTimes where
  scanning : String
  parsing : String
  passes : String
deriving DecidableEq, Repr

/-! ## Passes -/

def diagnosticLines (colored : Bool) (diagnostics : List Diagnostic) : String :=
  String.join (diagnostics.map fun d => d.render colored ++ "\n")

def valueLines (values : List (String × Value)) : String :=
  String.join (values.map fun (name, value) => name ++ " = " ++ value.text ++ "\n")

structure Passes where
  stdout : String
  stderr : String
  /-- Did the checks find no error? -/
  clean : Bool
  /-- The error that stopped the evaluation of the constants. -/
  failure : Option Error

def passes (colored : Bool) (options : Options) (m : Module) : Passes :=
  let source := if options.has .print then Node.print options.indent (.root m) else ""
  let diagnostics := if options.has .check then m.check else []
  let (error, values) := if options.has .eval then Evaluator.evaluateModule m else (none, [])
  { stdout := source ++ if error.isSome then "" else valueLines values
    stderr := diagnosticLines colored diagnostics
    clean := !Diagnostic.hasErrors diagnostics
    failure := error.map EvalError.toError }

/-! ## Statistics -/

/-- A number of nanoseconds as seconds, rounded to thousandths and at least eight characters
wide. -/
def secondsText (nanoseconds : Nat) : String :=
  let thousandths := (nanoseconds + 500000) / 1000000
  padLeft 8 ' '
    (Nat.repr (thousandths / 1000) ++ "." ++ padLeft 3 '0' (Nat.repr (thousandths % 1000))) ++ "s"

def statistics (times : PhaseTimes) (tokenCount : Nat) (m : Module) : String :=
  let counter := Counter.ofNode (.root m)
  "\nCompilation Statistics:\n" ++
    "  Lexical Analysis  " ++ times.scanning ++ "\n" ++
    "  Parsing           " ++ times.parsing ++ "\n" ++
    "  Passes            " ++ times.passes ++ "\n" ++
    "\nCode Metrics:\n" ++
    "  Tokens:     " ++ Nat.repr tokenCount ++ "\n" ++
    "  AST Nodes:  " ++ Nat.repr counter.total ++ "\n" ++
    String.join (counter.census.map fun (kind, count) =>
      "    " ++ padRight 24 ' ' kind.name ++ Nat.repr count ++ "\n")

/-! ## Sessions -/

def Output.fail (output : Output) (e : Error) : Output :=
  { output with exitCode := 1, stderr := output.stderr ++ "Error: " ++ e.message ++ "\n" }

def Output.silent : Output :=
  ⟨0, "", ""⟩

def moduleSession (colored : Bool) (times : PhaseTimes) (options : Options) (tokenCount : Nat)
    (m : Module) : Output :=
  let result := passes colored options m
  let listing := if options.has .showTree then m.listing.text ++ "\n" else ""
  match result.failure with
  | some e => Output.fail ⟨1, listing ++ result.stdout, result.stderr⟩ e
  | none =>
    let report := if options.has .stats then statistics times tokenCount m else ""
    ⟨if result.clean then 0 else 1, listing ++ result.stdout ++ report, result.stderr⟩

def session (colored : Bool) (times : PhaseTimes) (options : Options)
    (source : Except Error String) : Output :=
  match source.bind Source.tokens with
  | .error e => Output.silent.fail e
  | .ok tokens =>
    match Source.moduleOfTokens tokens with
    | .error e => Output.silent.fail e
    | .ok m => moduleSession colored times options tokens.length m

/-! ## Sessions without a module -/

def versionText : String :=
  "oberonc 0.1.0\n"

def usageText : String :=
  "Usage: oberonc [OPTIONS] <PATH>\n"

def helpText : String :=
  "Front end for an Oberon declaration subset.\n" ++
    "Parses a module, then runs the requested passes over its syntax tree.\n\n" ++
    usageText ++ "\n" ++
    "Options:\n" ++
    "  -p, --print            Print canonical source\n" ++
    "  -c, --check            Report declaration errors\n" ++
    "  -e, --eval             Print constant values\n" ++
    "  -s, --stats            Show node counts and timing\n" ++
    "      --show-ast         Show the syntax tree\n" ++
    "      --indent <INDENT>  Indent width used by --print\n" ++
    "  -v, --verbose          Enable verbose output\n" ++
    "  -h, --help             Print help\n" ++
    "  -V, --version          Print version\n"

def Stop.output : Stop → Output
  | version => ⟨0, versionText, ""⟩
  | help => ⟨0, helpText, ""⟩
  | usage e =>
    ⟨2, "", "error: " ++ e.message ++ "\n\n" ++ usageText ++
      "\nFor more information, try '--help'.\n"⟩

def run (times : PhaseTimes) (folder : Folder) (arguments : List String) : Output :=
  match parse arguments with
  | .error stop => stop.output
  | .ok options => session false times options (Source.read folder options.path)

end Oberon.CommandLine
