import Oberon.Token

/-!
# Reading a token list

A parser reads located tokens from left to right.  Its position is a `Cursor`; a parser that fails
leaves the cursor where it found the token that it could not use, so a `Failure` is that cursor and
what was expected there.
-/

namespace Oberon

/-- The part of a token list that is still to be read.  `line` is the line of the last token that
was read; it stands in for the line of the end of the list.  `depth` is for readers that count how
many constructs they are inside of. -/
structure Cursor where
  rest : List LocatedToken
  line : Nat
  depth : Nat
deriving DecidableEq

namespace Cursor

def start (tokens : List LocatedToken) : Cursor :=
  ⟨tokens, 1, 0⟩

def token (c : Cursor) : Token :=
  match c.rest with
  | [] => .endOfFile
  | t :: _ => t.token

def tokenLine (c : Cursor) : Nat :=
  match c.rest with
  | [] => c.line
  | t :: _ => t.line

def advance (c : Cursor) : Cursor :=
  match c.rest with
  | [] => c
  | t :: rest => { c with rest, line := t.line }

end Cursor

inductive Nesting where
  | procedures
  | types
  | expressions
deriving DecidableEq, Repr

def maxNesting : Nat := 100

def maxOpenArrays : Nat := 16

inductive Expectation where
  | token (token : Token)
  | identifier
  | type
  | factor
  | lessNesting (what : Nesting)
  | fewerOpenArrays
deriving DecidableEq

namespace Expectation

def text : Expectation → String
  | token t => t.text
  | identifier => "identifier"
  | type => "type"
  | factor => "factor"
  | lessNesting .procedures => "at most " ++ Nat.repr maxNesting ++ " nested procedures"
  | lessNesting .types => "at most " ++ Nat.repr maxNesting ++ " nested types"
  | lessNesting .expressions => "at most " ++ Nat.repr maxNesting ++ " nested expressions"
  | fewerOpenArrays => "at most " ++ Nat.repr maxOpenArrays ++ " open array dimensions"

end Expectation

structure SyntaxError where
  expected : String
  found : String
  line : Nat
deriving DecidableEq, Repr

namespace SyntaxError

def message (e : SyntaxError) : String :=
  "Syntax error at line " ++ Nat.repr e.line ++ ": expected '" ++ e.expected ++ "', found '" ++
    e.found ++ "'"

end SyntaxError

structure Failure where
  expected : Expectation
  cursor : Cursor
deriving DecidableEq

namespace Failure

def error (f : Failure) : SyntaxError :=
  ⟨f.expected.text, f.cursor.token.text, f.cursor.tokenLine⟩

end Failure

abbrev Parser :=
  StateT Cursor (Except Failure)

namespace Parser

variable {α β ω : Type}

def token : Parser Token :=
  return (← get).token

def advance : Parser Unit :=
  modify Cursor.advance

def fail (expected : Expectation) : Parser α := do
  throw ⟨expected, ← get⟩

def accept (t : Token) : Parser Bool := do
  if (← token) = t then
    advance
    return true
  else
    return false

def expect (t : Token) : Parser Unit := do
  if (← token) = t then
    advance
  else
    fail (.token t)

def optional (t : Token) (item : Parser α) : Parser (Option α) := do
  if ← accept t then
    return some (← item)
  else
    return none

def manyUpTo (starts : Token → Bool) (item : Parser α) : (limit : Nat) → Parser (List α)
  | 0 => return []
  | limit + 1 => do
    if starts (← token) then
      let first ← item
      let others ← manyUpTo starts item limit
      return first :: others
    else
      return []

/-- Reads items as long as the token at the cursor starts one.  An item takes at least one token, so
there are no more of them than tokens. -/
def many (starts : Token → Bool) (item : Parser α) : Parser (List α) := do
  manyUpTo starts item (← get).rest.length

def operationsUpTo (operator? : Token → Option ω) (operand : Parser α) (combine : ω → α → β) :
    (limit : Nat) → Parser (List β)
  | 0 => return []
  | limit + 1 => do
    match operator? (← token) with
    | none => return []
    | some operator =>
      advance
      let first ← operand
      let others ← operationsUpTo operator? operand combine limit
      return combine operator first :: others

def operations (operator? : Token → Option ω) (operand : Parser α) (combine : ω → α → β) :
    Parser (List β) := do
  operationsUpTo operator? operand combine (← get).rest.length

def separated (separator : Token) (item : Parser α) : Parser (List α) := do
  let first ← item
  let others ← operations (fun t => if t = separator then some () else none) item (fun _ x => x)
  return first :: others

/-- Runs a parser at a cursor: its result or error, and the cursor afterwards. -/
def runAt (p : Parser α) (c : Cursor) : Except SyntaxError α × Cursor :=
  match p.run c with
  | .ok (result, c) => (.ok result, c)
  | .error failure => (.error failure.error, failure.cursor)

end Parser

end Oberon
