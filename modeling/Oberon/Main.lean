import Oberon.CommandLine.Session

/-!
# The command

Reads the file that the command line names, measures the phases where statistics ask for it, and
writes what the session says.
-/

namespace Oberon.CommandLine

def fileError : IO.Error → FileError
  | .noFileOrDirectory .. => .notFound
  | .inappropriateType _ code _ =>
    if code.toInt32.toInt.natAbs = 21 then .isDirectory else .notDirectory
  | e => .other (toString e)

def readSource (path : String) : IO (Except Error String) := do
  match Source.checkExtension path with
  | .error e => return .error e
  | .ok () =>
    match ← (IO.FS.readBinFile path).toBaseIO with
    | .ok content => return Source.decode (.ok content)
    | .error e => return Source.decode (.error (fileError e))

@[noinline]
def timed {α : Type} (work : Unit → α) : IO (α × String) := do
  let start ← IO.monoNanosNow
  let result ← IO.lazyPure work
  let stop ← IO.monoNanosNow
  return (result, secondsText (stop - start))

def measure (options : Options) (source : Except Error String) : IO PhaseTimes := do
  let (tokens, scanning) ← timed fun _ => source.bind Source.tokens
  let (module, parsing) ← timed fun _ => tokens.bind Source.moduleOfTokens
  let (_, passing) ← timed fun _ => module.map (passes false options)
  return ⟨scanning, parsing, passing⟩

def write (output : Output) : IO UInt32 := do
  IO.print output.stdout
  IO.eprint output.stderr
  return UInt32.ofNat output.exitCode

def start (arguments : List String) : IO UInt32 := do
  match parse arguments with
  | .error stop => write stop.output
  | .ok options =>
    let source ← readSource options.path
    let times ← if options.has .stats then measure options source else pure ⟨"", "", ""⟩
    let colored ← (← IO.getStdout).isTty
    write (session colored times options source)

end Oberon.CommandLine

def main (arguments : List String) : IO UInt32 :=
  Oberon.CommandLine.start arguments
