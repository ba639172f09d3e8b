/-!
# Padding and quotes

Blanks in front of lines, and texts filled up to a width.  A text between quotes has a backslash
in front of quotes and backslashes and escapes for control characters.
-/

namespace Oberon

/-- The blanks in front of a line at nesting depth `depth`, `width` blanks for each level. -/
def margin (width depth : Nat) : String :=
  String.ofList (List.replicate (depth * width) ' ')

def padLeft (width : Nat) (fill : Char) (text : String) : String :=
  String.ofList (List.replicate (width - text.length) fill) ++ text

def padRight (width : Nat) (fill : Char) (text : String) : String :=
  text ++ String.ofList (List.replicate (width - text.length) fill)

/-- A margin is as long as its depth says. -/
@[simp]
theorem length_margin (width depth : Nat) : (margin width depth).length = depth * width := by
  simp [margin]

/-- Padding reaches the width and cuts nothing off. -/
@[simp]
theorem length_padLeft (width : Nat) (fill : Char) (text : String) :
    (padLeft width fill text).length = max width text.length := by
  simp only [padLeft, String.length_append, String.length_ofList, List.length_replicate]
  omega

@[simp]
theorem length_padRight (width : Nat) (fill : Char) (text : String) :
    (padRight width fill text).length = max width text.length := by
  simp only [padRight, String.length_append, String.length_ofList, List.length_replicate]
  omega

namespace Text.Quoted

def isControl (c : Char) : Bool :=
  c.toNat < 32 || c.toNat = 127

def encodeChar (c : Char) : List Char :=
  match c with
  | '"' => ['\\', '"']
  | '\\' => ['\\', '\\']
  | '\t' => ['\\', 't']
  | '\r' => ['\\', 'r']
  | '\n' => ['\\', 'n']
  | '\x00' => ['\\', '0']
  | c => if isControl c then ['\\', 'u', '\x7b'] ++ Nat.toDigits 16 c.toNat ++ ['\x7d'] else [c]

def encode (text : String) : String :=
  "\"" ++ String.ofList (text.toList.flatMap encodeChar) ++ "\""

end Text.Quoted

end Oberon
