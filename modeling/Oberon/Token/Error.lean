/-!
# Lexical errors

What can go wrong when a text is split into tokens.
-/

namespace Oberon

inductive LexicalError where
  /-- A character that starts no token. -/
  | unknownCharacter (char : Char) (line : Nat)
  /-- A comment that is not closed; the line is that of its opening. -/
  | unterminatedComment (line : Nat)
  /-- A string that is not closed before the end of the text. -/
  | unterminatedString (line : Nat)
  /-- A string that is not closed before the end of its line; the line is the one after it. -/
  | multilineString (line : Nat)
  /-- A numeral that is malformed or out of range. -/
  | invalidNumber (text : String) (line : Nat)
deriving DecidableEq, Repr

namespace LexicalError

def line : LexicalError → Nat
  | unknownCharacter _ line => line
  | unterminatedComment line => line
  | unterminatedString line => line
  | multilineString line => line
  | invalidNumber _ line => line

def message : LexicalError → String
  | unknownCharacter char line =>
    "Unknown token '" ++ String.singleton char ++ "' at line " ++ Nat.repr line
  | unterminatedComment line => "Unterminated comment at line " ++ Nat.repr line
  | unterminatedString line => "Unterminated string literal at line " ++ Nat.repr line
  | multilineString line => "Multiline string literals not supported at line " ++ Nat.repr line
  | invalidNumber text line => "Invalid number '" ++ text ++ "' at line " ++ Nat.repr line

end LexicalError

/-- A scan that stopped: the error, and the line that was reached. -/
structure LexicalFailure where
  error : LexicalError
  line : Nat
deriving DecidableEq, Repr

end Oberon
