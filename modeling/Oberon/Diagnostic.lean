/-!
# Diagnostics

Remarks about a module that do not stop the work on it.
-/

namespace Oberon

inductive Severity where
  | error
  | warning
deriving DecidableEq, Repr

namespace Severity

def text : Severity → String
  | .error => "error"
  | .warning => "warning"

def coloredText : Severity → String
  | .error => "\x1b[1;31merror\x1b[0m"
  | .warning => "\x1b[1;33mwarning\x1b[0m"

end Severity

structure Diagnostic where
  severity : Severity
  message : String
  context : Option String
deriving DecidableEq, Repr

namespace Diagnostic

def describe (severity : String) (d : Diagnostic) : String :=
  severity ++ ": " ++ d.message ++
    match d.context with
    | some context => " (in " ++ context ++ ")"
    | none => ""

def text (d : Diagnostic) : String :=
  d.describe d.severity.text

def render (colored : Bool) (d : Diagnostic) : String :=
  d.describe (if colored then d.severity.coloredText else d.severity.text)

def isError (d : Diagnostic) : Bool :=
  d.severity = .error

def errorCount (ds : List Diagnostic) : Nat :=
  ds.countP isError

def warningCount (ds : List Diagnostic) : Nat :=
  ds.countP fun d => d.severity = .warning

def hasErrors (ds : List Diagnostic) : Bool :=
  ds.any isError

end Diagnostic

end Oberon
