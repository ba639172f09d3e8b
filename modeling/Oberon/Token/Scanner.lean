import Oberon.Text.Alphabetic
import Oberon.Text.Characters
import Oberon.Token.Error
import Oberon.Token.Numeral

/-!
# Splitting a text into tokens

Tokens are separated by layout: blanks and comments.  Comments run from `(*` to the `*)` that
balances it, where both pairs are read from left to right without overlap.  A token takes as many
characters as it can.
-/

namespace Oberon.Scanner

open Oberon.Text

def isIdentifierStart (c : Char) : Bool :=
  isAlphabetic c || c = '_'

def isIdentifierPart (c : Char) : Bool :=
  isAlphabetic c || isNumeric c || c = '_'

/-- The line after the character `c` on line `line`.  Lines are counted without bound; a counter
of 64 bits counts the same on fewer than 2 ^ 64 lines. -/
def nextLine (c : Char) (line : Nat) : Nat :=
  if c = '\n' then line + 1 else line

/-- Skips the rest of a comment inside `depth` others: what follows it and the line there, or the
last line if the comment is not closed.  The depth has no bound; a signed counter of 32 bits
agrees with it on fewer than 2 ^ 31 comments inside each other. -/
def skipComment (depth line : Nat) : List Char → Except Nat (List Char × Nat)
  | [] => .error line
  | '(' :: '*' :: rest => skipComment (depth + 1) line rest
  -- `(*)` opens a comment and does not close it: each character belongs to one pair
  | '*' :: ')' :: rest =>
    match depth with
    | 0 => .ok (rest, line)
    | depth + 1 => skipComment depth line rest
  | c :: rest => skipComment depth (nextLine c line) rest

/-- A comment takes at least a character. -/
theorem length_skipComment_lt {depth line line' : Nat} {cs rest : List Char}
    (h : skipComment depth line cs = .ok (rest, line')) : rest.length < cs.length := by
  fun_induction skipComment depth line cs with
  | case1 => cases h
  | case2 _ _ _ ih => have := ih h; simp only [List.length_cons]; omega
  | case3 => cases h; simp only [List.length_cons]; omega
  | case4 _ _ _ ih => have := ih h; simp only [List.length_cons]; omega
  | case5 _ _ _ _ _ _ ih => have := ih h; simp only [List.length_cons]; omega

def skipLayout (cs : List Char) (line : Nat) : Except LexicalFailure (List Char × Nat) :=
  match cs with
  | [] => .ok ([], line)
  | '(' :: '*' :: comment =>
    match _h : skipComment 0 line comment with
    | .error stop => .error ⟨.unterminatedComment line, stop⟩
    | .ok (rest, line) => skipLayout rest line
  | c :: rest => if isBlank c then skipLayout rest (nextLine c line) else .ok (c :: rest, line)
termination_by cs.length
decreasing_by
  · have := length_skipComment_lt _h; simp only [List.length_cons]; omega
  · simp

theorem length_skipLayout_le {cs rest : List Char} {line line' : Nat}
    (h : skipLayout cs line = .ok (rest, line')) : rest.length ≤ cs.length := by
  fun_induction skipLayout cs line with
  | case1 => cases h; simp
  | case2 => cases h
  | case3 _ _ _ _ hcomment ih =>
    have := length_skipComment_lt hcomment
    have := ih h
    simp only [List.length_cons]
    omega
  | case4 _ _ _ _ _ ih => have := ih h; simp only [List.length_cons]; omega
  | case5 => cases h; simp

def wordToken (word : List Char) : Token :=
  match Keyword.ofText? (String.ofList word) with
  | some keyword => .keyword keyword
  | none => .identifier (String.ofList word)

def isStringChar (c : Char) : Bool :=
  c ≠ '"' && c ≠ '\n'

def readString (line : Nat) (rest : List Char) : Except LexicalError (Token × List Char) :=
  match rest.dropWhile isStringChar with
  | [] => .error (.unterminatedString line)
  | '\n' :: _ => .error (.multilineString (line + 1))
  | _ :: tail => .ok (.string (String.ofList (rest.takeWhile isStringChar)), tail)

def readToken (line : Nat) (c : Char) (rest : List Char) :
    Except LexicalError (Token × List Char) :=
  if isIdentifierStart c then
    .ok (wordToken (c :: rest.takeWhile isIdentifierPart), rest.dropWhile isIdentifierPart)
  else if c.isDigit then
    (Numeral.read c rest).mapError (.invalidNumber · line)
  else if c = '"' then
    readString line rest
  else
    match Mark.ofChar? c with
    | some mark => .ok (.mark mark, rest)
    | none => .error (.unknownCharacter c line)

theorem length_readString_le {line : Nat} {rest rest' : List Char} {token : Token}
    (h : readString line rest = .ok (token, rest')) : rest'.length ≤ rest.length := by
  have hlength := Numeral.length_dropWhile_le isStringChar rest
  unfold readString at h
  split at h
  next => cases h
  next => cases h
  next hdrop =>
    cases h
    simp only [hdrop, List.length_cons] at hlength
    omega

theorem length_readToken_le {line : Nat} {c : Char} {rest rest' : List Char} {token : Token}
    (h : readToken line c rest = .ok (token, rest')) : rest'.length ≤ rest.length := by
  unfold readToken at h
  split at h
  · cases h; exact Numeral.length_dropWhile_le _ _
  split at h
  · cases hread : Numeral.read c rest with
    | error => rw [hread] at h; cases h
    | ok => rw [hread] at h; cases h; exact Numeral.length_read_le hread
  split at h
  · exact length_readString_le h
  split at h
  · cases h; exact Nat.le_refl _
  · cases h

def tokens (cs : List Char) (line : Nat) : Except LexicalFailure (List LocatedToken × Nat) :=
  match _hlayout : skipLayout cs line with
  | .error failure => .error failure
  | .ok ([], line) => .ok ([], line)
  | .ok (c :: rest, line) =>
    match _htoken : readToken line c rest with
    | .error error => .error ⟨error, error.line⟩
    | .ok (token, rest) =>
      match tokens rest line with
      | .error failure => .error failure
      | .ok (others, last) => .ok (⟨token, line⟩ :: others, last)
termination_by cs.length
decreasing_by
  have := length_skipLayout_le _hlayout
  have := length_readToken_le _htoken
  simp only [List.length_cons] at *
  omega

/-- Splits a text that starts on line `line` into its tokens.  The result is that of counters of
fixed width for lines and comments as long as these do not overflow: below 2 ^ 64 lines and 2 ^ 31
comments inside each other. -/
def scan (source : String) (line : Nat) : Except LexicalFailure (List LocatedToken × Nat) :=
  tokens source.toList line

end Oberon.Scanner
