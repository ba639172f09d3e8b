import Oberon.Decimal.Text

/-!
# Tokens

The vocabulary of Oberon: identifiers, numbers, strings, the reserved words, and the punctuation
marks and operators of one character.
-/

namespace Oberon

/-- The reserved words.  They are written in capitals, so `module` is an ordinary identifier. -/
inductive Keyword where
  | MODULE | IMPORT | CONST | TYPE | VAR | PROCEDURE | BEGIN | RETURN | END
  | ARRAY | OF | RECORD | POINTER | TO
  | DIV | MOD | OR
deriving DecidableEq, Repr

namespace Keyword

def all : List Keyword :=
  [.MODULE, .IMPORT, .CONST, .TYPE, .VAR, .PROCEDURE, .BEGIN, .RETURN, .END, .ARRAY, .OF, .RECORD,
   .POINTER, .TO, .DIV, .MOD, .OR]

def text : Keyword → String
  | MODULE => "MODULE"
  | IMPORT => "IMPORT"
  | CONST => "CONST"
  | TYPE => "TYPE"
  | VAR => "VAR"
  | PROCEDURE => "PROCEDURE"
  | BEGIN => "BEGIN"
  | RETURN => "RETURN"
  | END => "END"
  | ARRAY => "ARRAY"
  | OF => "OF"
  | RECORD => "RECORD"
  | POINTER => "POINTER"
  | TO => "TO"
  | DIV => "DIV"
  | MOD => "MOD"
  | OR => "OR"

def ofText? (word : String) : Option Keyword :=
  all.find? fun keyword => keyword.text = word

@[simp]
theorem ofText?_text (keyword : Keyword) : ofText? keyword.text = some keyword := by
  cases keyword <;> rfl

/-- Reading a spelling gives the reserved word back, and nothing else has that spelling. -/
theorem ofText?_eq_some_iff {word : String} {keyword : Keyword} :
    ofText? word = some keyword ↔ keyword.text = word := by
  constructor
  · intro h
    simpa using List.find?_some h
  · rintro rfl
    exact ofText?_text keyword

end Keyword

inductive Mark where
  | dot | comma | semicolon | colon | equal | leftParen | rightParen
  | plus | minus | times | slash | ampersand
deriving DecidableEq, Repr

namespace Mark

def char : Mark → Char
  | dot => '.'
  | comma => ','
  | semicolon => ';'
  | colon => ':'
  | equal => '='
  | leftParen => '('
  | rightParen => ')'
  | plus => '+'
  | minus => '-'
  | times => '*'
  | slash => '/'
  | ampersand => '&'

def ofChar? : Char → Option Mark
  | '.' => some dot
  | ',' => some comma
  | ';' => some semicolon
  | ':' => some colon
  | '=' => some equal
  | '(' => some leftParen
  | ')' => some rightParen
  | '+' => some plus
  | '-' => some minus
  | '*' => some times
  | '/' => some slash
  | '&' => some ampersand
  | _ => none

@[simp]
theorem ofChar?_char (mark : Mark) : ofChar? mark.char = some mark := by
  cases mark <;> rfl

def text (mark : Mark) : String :=
  String.singleton mark.char

end Mark

/-- A token.  `endOfFile` stands for the end of the input; the scanner never produces it. -/
inductive Token where
  | identifier (name : String)
  | integer (value : Int64)
  | real (value : Float)
  | string (content : String)
  | keyword (word : Keyword)
  | mark (symbol : Mark)
  | endOfFile
deriving DecidableEq

namespace Token

def text : Token → String
  | .identifier name => "identifier " ++ name
  | .integer value => Int.repr value.toInt
  | .real value => Real.text value
  | .string content => "\"" ++ content ++ "\""
  | .keyword word => word.text
  | .mark symbol => symbol.text
  | .endOfFile => "end of file"

def sameKind : Token → Token → Bool
  | .identifier _, .identifier _ => true
  | .integer _, .integer _ => true
  | .real _, .real _ => true
  | .string _, .string _ => true
  | .keyword a, .keyword b => a = b
  | .mark a, .mark b => a = b
  | .endOfFile, .endOfFile => true
  | _, _ => false

/-- Do two tokens carry the same value?  Reals compare as numbers: both zeros are equal, and a
number that is not one differs from itself.  All other tokens carry the same value iff they are
equal. -/
def sameValue : Token → Token → Bool
  | .real a, .real b => a == b
  | a, b => a = b

end Token

structure LocatedToken where
  token : Token
  line : Nat
deriving DecidableEq

end Oberon
