import Oberon.Syntax.Printer

/-!
# Command line arguments

The command line names one path and any number of options.  Arguments are read from left to right,
and the first mistake decides the answer.  A path or a value of `--indent` is only examined when
the next option or the end of the line shows that nothing more belongs to it, so a misplaced
argument right behind it is reported first.
-/

namespace Oberon.CommandLine

inductive Flag where
  | print
  | check
  | eval
  | stats
  | showTree
  | verbose
deriving DecidableEq, Repr

inductive Switch where
  | flag (flag : Flag)
  | version
  | help
deriving DecidableEq, Repr

namespace Switch

def all : List Switch :=
  [flag .print, flag .check, flag .eval, flag .stats, flag .showTree, flag .verbose, version, help]

/-- No switch is missing from the list. -/
theorem mem_all (s : Switch) : s ∈ all := by
  rcases s with f | _ | _
  · cases f <;> simp [all]
  · simp [all]
  · simp [all]

def name : Switch → String
  | flag .print => "--print"
  | flag .check => "--check"
  | flag .eval => "--eval"
  | flag .stats => "--stats"
  | flag .showTree => "--show-ast"
  | flag .verbose => "--verbose"
  | version => "--version"
  | help => "--help"

def letter? : Switch → Option Char
  | flag .print => some 'p'
  | flag .check => some 'c'
  | flag .eval => some 'e'
  | flag .stats => some 's'
  | flag .showTree => none
  | flag .verbose => some 'v'
  | version => some 'V'
  | help => some 'h'

end Switch

def indentOption : String := "--indent"

def indentUsage : String := "--indent <INDENT>"

def pathUsage : String := "<PATH>"

inductive UsageError where
  | unexpectedArgument (argument : String)
  | unexpectedValue (value option : String)
  | repeatedOption (option : String)
  | missingValue (usage : String)
  | invalidIndent (value : String)
  | excessiveIndent (value : String)
  | missingPath
deriving DecidableEq, Repr

def UsageError.message : UsageError → String
  | unexpectedArgument argument => "unexpected argument '" ++ argument ++ "' found"
  | unexpectedValue value option =>
    "unexpected value '" ++ value ++ "' for '" ++ option ++ "' found; no more were expected"
  | repeatedOption option => "the argument '" ++ option ++ "' cannot be used multiple times"
  | missingValue usage => "a value is required for '" ++ usage ++ "' but none was supplied"
  | invalidIndent value =>
    "invalid value '" ++ value ++ "' for '" ++ indentUsage ++ "': Invalid indent width: " ++ value
  | excessiveIndent value =>
    "invalid value '" ++ value ++ "' for '" ++ indentUsage ++ "': Indent width must be at most " ++
      Nat.repr maxIndent
  | missingPath => "the following required arguments were not provided:"

inductive Stop where
  | usage (error : UsageError)
  | version
  | help
deriving DecidableEq, Repr

structure Options where
  path : String
  flags : List Flag
  indent : Nat
deriving DecidableEq, Repr

def Options.has (options : Options) (flag : Flag) : Bool :=
  flag ∈ options.flags

/-! ## Widths -/

/-- A natural number below `2 ^ 64` in decimal digits, perhaps behind a plus sign. -/
def unsigned? (text : String) : Option Nat :=
  let digits :=
    match text.toList with
    | '+' :: rest => rest
    | all => all
  if digits.isEmpty || !digits.all Char.isDigit then none
  else
    let value := Nat.ofDigitChars 10 digits 0
    if value < UInt64.size then some value else none

def indentOfText (text : String) : Except UsageError Nat :=
  match unsigned? text with
  | none => .error (.invalidIndent text)
  | some width => if width ≤ maxIndent then .ok width else .error (.excessiveIndent text)

/-- An accepted width is within the limit. -/
theorem le_maxIndent_of_indentOfText {text : String} {width : Nat}
    (h : indentOfText text = .ok width) : width ≤ maxIndent := by
  unfold indentOfText at h
  split at h
  · cases h
  · split at h
    next hle => cases h; exact hle
    next => cases h

/-! ## Reading arguments -/

inductive Pending where
  /-- The value of `--indent`, once it has come. -/
  | indent (value : Option String)
  | path (text : String)
deriving DecidableEq, Repr

structure Arguments where
  flags : List Flag
  indent : Option Nat
  path : Option String
  pending : Option Pending
deriving DecidableEq, Repr

namespace Arguments

def empty : Arguments :=
  ⟨[], none, none, none⟩

def setIndent (a : Arguments) (value : String) : Except Stop Arguments :=
  if a.indent.isSome then .error (.usage (.repeatedOption indentUsage))
  else
    match indentOfText value with
    | .ok width => .ok { a with indent := some width }
    | .error e => .error (.usage e)

def settle (a : Arguments) : Except Stop Arguments :=
  match a.pending with
  | none => .ok a
  | some (.indent none) => .error (.usage (.missingValue indentUsage))
  | some (.indent (some value)) => { a with pending := none }.setIndent value
  | some (.path text) =>
    if text.isEmpty then .error (.usage (.missingValue pathUsage))
    else .ok { a with path := some text, pending := none }

def hasPath (a : Arguments) : Bool :=
  a.path.isSome ||
    match a.pending with
    | some (.path _) => true
    | _ => false

def positional (a : Arguments) (text : String) : Except Stop Arguments :=
  if a.hasPath then .error (.usage (.unexpectedArgument text))
  else do
    let a ← a.settle
    return { a with pending := some (.path text) }

/-- Takes an argument that is no option: it goes to `--indent` if that waits for its value. -/
def value (a : Arguments) (text : String) : Except Stop Arguments :=
  match a.pending with
  | some (.indent none) => .ok { a with pending := some (.indent (some text)) }
  | _ => a.positional text

def switch (a : Arguments) (s : Switch) : Except Stop Arguments := do
  let a ← a.settle
  match s with
  | .version => .error .version
  | .help => .error .help
  | .flag f =>
    if f ∈ a.flags then .error (.usage (.repeatedOption s.name))
    else .ok { a with flags := a.flags ++ [f] }

def long (a : Arguments) (name : String) (attached : Option String) : Except Stop Arguments :=
  if name = indentOption then do
    let a ← a.settle
    match attached with
    | some text => a.setIndent text
    | none => .ok { a with pending := some (.indent none) }
  else
    -- a name that is not known is reported whatever is pending
    match Switch.all.find? (·.name = name), attached with
    | none, _ => .error (.usage (.unexpectedArgument name))
    | some s, some text => .error (.usage (.unexpectedValue text s.name))
    | some s, none => a.switch s

def letter (a : Arguments) (c : Char) : Except Stop Arguments :=
  match Switch.all.find? (·.letter? = some c) with
  | none => .error (.usage (.unexpectedArgument (String.ofList ['-', c])))
  | some s => a.switch s

def attachedValue (text : List Char) : Option String :=
  match text.dropWhile (· ≠ '=') with
  | [] => none
  | _ :: rest => some (String.ofList rest)

def argument (a : Arguments) (text : String) : Except Stop Arguments :=
  match text.toList with
  | '-' :: '-' :: _ =>
    a.long (String.ofList (text.toList.takeWhile (· ≠ '='))) (attachedValue text.toList)
  | '-' :: c :: cs => (c :: cs).foldlM letter a
  -- a lone `-` is no option
  | _ => a.value text

/-- Takes all arguments; behind `--` none is an option. -/
def arguments (a : Arguments) : List String → Except Stop Arguments
  | [] => .ok a
  | text :: rest =>
    if text = "--" then rest.foldlM positional a
    else do
      let a ← a.argument text
      a.arguments rest

def finish (a : Arguments) : Except Stop Options := do
  let a ← a.settle
  match a.path with
  | some path => .ok ⟨path, a.flags, a.indent.getD defaultIndent⟩
  | none => .error (.usage .missingPath)

end Arguments

def parse (arguments : List String) : Except Stop Options := do
  let a ← Arguments.empty.arguments arguments
  a.finish

end Oberon.CommandLine
