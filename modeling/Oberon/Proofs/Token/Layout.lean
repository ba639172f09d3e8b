import Mathlib.Data.List.Infix
import Oberon.Proofs.RoundTrip

/-!
# Texts under any layout

A list of tokens can be written in many ways: integers in two bases, reals with and without an
exponent, and between any two tokens any blanks and comments.  The scanner takes the layout away,
whatever it is, and counts the lines through it.
-/

namespace Oberon

def Numeral.goesOn (text : List Char) (c : Char) : Bool :=
  if 'H' ∈ text then false
  else if '.' ∈ text then c.isDigit || (c = 'E' && 'E' ∉ text)
  else isHexDigit c || c = 'H' || c = '.'

namespace Scanner

open Oberon.Text

theorem nextLine_add_count (c : Char) (cs : List Char) (line : Nat) :
    nextLine c line + cs.count '\n' = line + (c :: cs).count '\n' := by
  unfold nextLine
  rw [List.count_cons]
  split
  next h =>
    rw [if_pos (beq_iff_eq.mpr h)]
    omega
  next h =>
    rw [if_neg (mt beq_iff_eq.mp h)]
    omega

/-! ## Comments -/

/-- What a place in a text does to the nesting of comments. -/
inductive Bracket where
  | opening
  | closing
  | other
deriving DecidableEq

/-- The brackets of a text, read from left to right: a character belongs to one bracket only. -/
def brackets : List Char → List Bracket
  | [] => []
  | '(' :: '*' :: cs => .opening :: brackets cs
  | '*' :: ')' :: cs => .closing :: brackets cs
  | _ :: cs => .other :: brackets cs

def Bracket.step : Bracket → Int
  | opening => 1
  | closing => -1
  | other => 0

/-- How many more brackets are opened than closed. -/
def level (bs : List Bracket) : Int :=
  (bs.map Bracket.step).sum

theorem level_nil : level [] = 0 :=
  rfl

theorem level_cons (b : Bracket) (bs : List Bracket) : level (b :: bs) = b.step + level bs := by
  rw [level, List.map_cons, List.sum_cons, level]

/-- Behind `depth` open brackets the text closes them all, and it never closes one that is not
open. -/
structure Balances (depth : Nat) (bs : List Bracket) : Prop where
  total : depth + level bs = 0
  front : ∀ front ∈ bs.inits, 0 ≤ depth + level front

/-- A comment: a bracket is opened, and the last bracket of the text is the one that balances it. -/
def IsComment (cs : List Char) : Prop :=
  ∃ inner, brackets cs = .opening :: (inner ++ [.closing]) ∧ Balances 0 inner

section Comments

variable {depth line : Nat} {b : Bracket} {bs : List Bracket} {cs tail : List Char}

theorem Balances.eq_zero (h : Balances depth []) : depth = 0 := by
  have htotal := h.total
  rw [level_nil] at htotal
  omega

/-- Behind the first bracket the text balances what is open then. -/
theorem Balances.rest (h : Balances depth (b :: bs)) :
    ∃ inner : Nat, (inner : Int) = depth + b.step ∧ Balances inner bs := by
  have hfront : ∀ front ∈ bs.inits, 0 ≤ depth + (b.step + level front) := by
    intro front hfront
    rw [← level_cons]
    rw [List.mem_inits] at hfront
    exact h.front _ ((List.mem_inits _ _).mpr (List.cons_prefix_cons.mpr ⟨rfl, hfront⟩))
  have hfirst := hfront [] ((List.mem_inits _ _).mpr List.nil_prefix)
  have htotal := h.total
  rw [level_nil] at hfirst
  rw [level_cons] at htotal
  obtain ⟨inner, hinner⟩ := Int.eq_ofNat_of_zero_le hfirst
  refine ⟨inner, by omega, by omega, fun front hmem => ?_⟩
  have := hfront front hmem
  omega

theorem eq_nil_of_brackets (h : brackets cs = []) : cs = [] := by
  unfold brackets at h
  split at h
  next => rfl
  all_goals cases h

/-- A comment is skipped up to the bracket that balances it, whatever follows. -/
theorem skipComment_append (hcs : brackets cs = bs ++ [.closing]) (h : Balances depth bs) :
    skipComment depth line (cs ++ tail) = .ok (tail, line + cs.count '\n') := by
  fun_induction brackets cs generalizing bs depth line with
  | case1 => exact absurd hcs.symm (List.concat_ne_nil _ bs)
  | case2 cs ih =>
    cases bs with
    | nil => cases hcs
    | cons b bs =>
      obtain ⟨rfl, hrest⟩ := List.cons.inj hcs
      obtain ⟨inner, hinner, hbalances⟩ := h.rest
      obtain rfl : inner = depth + 1 := by
        simp only [Bracket.step] at hinner
        omega
      rw [List.cons_append, List.cons_append, skipComment, ih hrest hbalances]
      rfl
  | case3 cs ih =>
    cases bs with
    | nil =>
      obtain ⟨-, hrest⟩ := List.cons.inj hcs
      rw [eq_nil_of_brackets hrest, h.eq_zero]
      rfl
    | cons b bs =>
      obtain ⟨rfl, hrest⟩ := List.cons.inj hcs
      obtain ⟨inner, hinner, hbalances⟩ := h.rest
      obtain rfl : depth = inner + 1 := by
        simp only [Bracket.step] at hinner
        omega
      rw [List.cons_append, List.cons_append, skipComment, ih hrest hbalances]
      rfl
  | case4 c cs hopening hclosing ih =>
    cases bs with
    | nil => cases hcs
    | cons b bs =>
      obtain ⟨rfl, hrest⟩ := List.cons.inj hcs
      obtain ⟨inner, hinner, hbalances⟩ := h.rest
      obtain rfl : inner = depth := by
        simp only [Bracket.step] at hinner
        omega
      -- there is another bracket in the text, so what follows cannot complete one with `c`
      cases cs with
      | nil => exact absurd hrest.symm (List.concat_ne_nil _ bs)
      | cons d cs =>
        rw [List.cons_append, List.cons_append, skipComment, ← List.cons_append, ih hrest hbalances,
          nextLine_add_count]
        · rintro rest rfl ⟨⟩
          exact hopening _ rfl rfl
        · rintro rest rfl ⟨⟩
          exact hclosing _ rfl rfl

theorem text_of_opening (h : brackets cs = .opening :: bs) :
    ∃ rest, cs = '(' :: '*' :: rest ∧ brackets rest = bs := by
  unfold brackets at h
  split at h
  next => cases h
  next rest =>
    obtain ⟨-, hrest⟩ := List.cons.inj h
    exact ⟨rest, rfl, hrest⟩
  all_goals cases h

/-- A comment is skipped as a whole, whatever comments it contains. -/
theorem skipLayout_comment (h : IsComment cs) :
    skipLayout (cs ++ tail) line = skipLayout tail (line + cs.count '\n') := by
  obtain ⟨inner, hcs, hinner⟩ := h
  obtain ⟨rest, rfl, hrest⟩ := text_of_opening hcs
  have hskip : skipComment 0 line (rest ++ tail) = .ok (tail, line + rest.count '\n') :=
    skipComment_append hrest hinner
  rw [List.cons_append, List.cons_append, skipLayout]
  split
  next h =>
    rw [hskip] at h
    cases h
  next h =>
    rw [hskip] at h
    cases h
    rfl

end Comments

/-! ## Layout -/

/-- Blanks and comments in any order. -/
inductive IsLayout : List Char → Prop where
  | nil : IsLayout []
  | blank {c : Char} {cs : List Char} (h : isBlank c = true) (hcs : IsLayout cs) :
    IsLayout (c :: cs)
  | comment {comment cs : List Char} (h : IsComment comment) (hcs : IsLayout cs) :
    IsLayout (comment ++ cs)

/-- Layout is skipped up to its end, and its lines are counted. -/
theorem skipLayout_append {cs : List Char} (h : IsLayout cs) (tail : List Char) (line : Nat) :
    skipLayout (cs ++ tail) line = skipLayout tail (line + cs.count '\n') := by
  induction h generalizing line with
  | nil => rfl
  | blank hblank _ ih =>
    rw [List.cons_append, skipLayout_cons_of_isBlank hblank, ih, nextLine_add_count]
  | comment hcomment _ ih =>
    rw [List.append_assoc, skipLayout_comment hcomment, ih, List.count_append, Nat.add_assoc]

/-- What follows cannot go on a token: there is nothing, a blank or perhaps a comment. -/
def Ends (cs : List Char) : Prop :=
  ∀ c ∈ cs.head?, isBlank c = true ∨ c = '('

/-- Layout ends any token. -/
theorem IsLayout.ends {cs : List Char} (h : IsLayout cs) : Ends cs := by
  cases h with
  | nil => simp [Ends]
  | blank hblank _ =>
    rintro _ ⟨⟩
    exact .inl hblank
  | comment hcomment _ =>
    obtain ⟨_, hcs, _⟩ := hcomment
    obtain ⟨rest, rfl, _⟩ := text_of_opening hcs
    rintro _ ⟨⟩
    exact .inr rfl

theorem Ends.append {cs : List Char} (h : Ends cs) (hsome : cs ≠ []) (tail : List Char) :
    Ends (cs ++ tail) := by
  cases cs with
  | nil => exact absurd rfl hsome
  | cons c cs => exact h

theorem isIdentifierPart_of_ends {cs : List Char} (h : Ends cs) :
    ∀ c ∈ cs.head?, isIdentifierPart c = false := by
  intro c hc
  rcases h c hc with hblank | rfl
  · rw [isIdentifierPart, isAlphabetic_of_isBlank hblank, isNumeric_of_isBlank hblank,
      Bool.false_or, Bool.false_or, decide_eq_false_iff_not]
    rintro rfl
    exact absurd hblank (by decide)
  · decide

/-- What ends a token is no digit, in either base, and no other sign of a numeral. -/
theorem not_numeral_of_ends {cs : List Char} (h : Ends cs) :
    ∀ c ∈ cs.head?, Numeral.isHexDigit c = false ∧ c ≠ 'H' ∧ c ≠ '.' := by
  intro c hc
  rcases h c hc with hblank | rfl
  · refine ⟨Numeral.isHexDigit_of_isBlank hblank, ?_, ?_⟩
    all_goals
      rintro rfl
      exact absurd hblank (by decide)
  · decide

/-! ## Spellings -/

/-- How a token may be written. -/
inductive Spelling : Token → List Char → Prop where
  | identifier {name : String} (h : IsIdentifier name) : Spelling (.identifier name) name.toList
  | keyword (word : Keyword) : Spelling (.keyword word) word.text.toList
  | mark (symbol : Mark) : Spelling (.mark symbol) [symbol.char]
  | string {content : String} (h : ∀ c ∈ content.toList, c ≠ '"' ∧ c ≠ '\n') :
    Spelling (.string content) ('"' :: (content.toList ++ ['"']))
  | decimal {first : Char} {digits : List Char} {value : Int64}
    (hdigits : ∀ d ∈ first :: digits, d.isDigit = true)
    (hvalue : value.toInt = Numeral.decimalValue (first :: digits)) :
    Spelling (.integer value) (first :: digits)
  | hexadecimal {first : Char} {digits : List Char} {value : Int64} (hfirst : first.isDigit = true)
    (hdigits : ∀ d ∈ digits, Numeral.isHexDigit d = true)
    (hvalue : value.toInt = Numeral.hexValue (first :: digits)) :
    Spelling (.integer value) (first :: (digits ++ ['H']))
  | real {first : Char} {whole fraction scale : List Char} {exponent : Int} {value : Float}
    (hwhole : ∀ d ∈ first :: whole, d.isDigit = true) (hfraction : ∀ d ∈ fraction, d.isDigit = true)
    (hscale : Numeral.IsScale scale exponent)
    (hvalue : value = (Decimal.ofDigits (first :: whole) fraction exponent).toFloat)
    (hfinite : value.isFinite = true) :
    Spelling (.real value) (first :: (whole ++ '.' :: (fraction ++ scale)))

def goesOn (text : List Char) (c : Char) : Bool :=
  match text with
  | [] => false
  | first :: _ =>
    if isIdentifierStart first then isIdentifierPart c
    else if first.isDigit then Numeral.goesOn text c
    -- a parenthesis and a star open a comment
    else text = ['('] && c = '*'

/-- The token that is written as `text` ends in front of `rest`. -/
def Stops (text rest : List Char) : Prop :=
  ∀ c ∈ rest.head?, goesOn text c = false

/-- The scanner reads the token from its text when `tail` follows. -/
structure ReadsBefore (tail : List Char) (t : Token) (c : Char) (cs : List Char) : Prop where
  not_blank : isBlank c = false
  not_comment : c = '(' → (cs ++ tail).head? ≠ some '*'
  reads : ∀ line, readToken line c (cs ++ tail) = .ok (t, tail)

theorem not_mem_of_class {p : Char → Bool} {c : Char} {cs : List Char} (h : ∀ d ∈ cs, p d = true)
    (hc : p c = false) : c ∉ cs := by
  intro hmem
  rw [h c hmem] at hc
  cases hc

/-- A decimal integer goes on with digits of either base, with their `H` and with a point. -/
theorem goesOn_decimal {first : Char} {digits : List Char}
    (hdigits : ∀ d ∈ first :: digits, d.isDigit = true)
    (c : Char) : goesOn (first :: digits) c = (Numeral.isHexDigit c || c = 'H' || c = '.') := by
  have hfirst := hdigits first List.mem_cons_self
  have hH : 'H' ∉ first :: digits := not_mem_of_class hdigits (by decide)
  have hpoint : '.' ∉ first :: digits := not_mem_of_class hdigits (by decide)
  rw [goesOn, if_neg (by simp [not_isIdentifierStart_of_isDigit hfirst]), if_pos hfirst,
    Numeral.goesOn, if_neg hH, if_neg hpoint]

theorem not_mem_scale {scale : List Char} {exponent : Int}
    (h : Numeral.IsScale scale exponent) {c : Char}
    (hdigit : c.isDigit = false) (hmarks : c ∉ ['E', '+', '-']) : c ∉ scale := by
  cases h with
  | absent => exact List.not_mem_nil
  | written hsign _ hdigits =>
    have hdigits : c ∉ _ := not_mem_of_class hdigits hdigit
    simp only [List.mem_cons, List.not_mem_nil, or_false, not_or] at hmarks
    rw [List.mem_cons, List.mem_append]
    rcases hsign with rfl | rfl | rfl <;> simp [hdigits, hmarks]

/-- A real goes on with digits and, unless it has an exponent, with one. -/
theorem goesOn_real {first : Char} {whole fraction scale : List Char} {exponent : Int}
    (hwhole : ∀ d ∈ first :: whole, d.isDigit = true) (hfraction : ∀ d ∈ fraction, d.isDigit = true)
    (hscale : Numeral.IsScale scale exponent) (c : Char) :
    goesOn (first :: (whole ++ '.' :: (fraction ++ scale))) c =
      (c.isDigit || c = 'E' && scale = []) := by
  have hfirst := hwhole first List.mem_cons_self
  have hmem (d : Char) (hd : d.isDigit = false) (hpoint : d ≠ '.') :
      d ∈ first :: (whole ++ '.' :: (fraction ++ scale)) ↔ d ∈ scale := by
    have hwhole := not_mem_of_class hwhole hd
    have hfraction := not_mem_of_class hfraction hd
    simp_all
  have hE : 'E' ∉ scale ↔ scale = [] := by
    cases hscale <;> simp
  rw [goesOn, if_neg (by simp [not_isIdentifierStart_of_isDigit hfirst]), if_pos hfirst,
    Numeral.goesOn, if_neg ((hmem 'H' (by decide) (by decide)).not.mpr
      (not_mem_scale hscale (by decide) (by decide))),
    if_pos (by simp), decide_eq_decide.mpr ((hmem 'E' (by decide) (by decide)).not.trans hE)]

section Spellings

variable {tail : List Char}

/-- What ends any token stops each of them. -/
theorem Ends.stops (htail : Ends tail) (text : List Char) : Stops text tail := by
  intro c hc
  have hstar : c ≠ '*' := by
    rintro rfl
    rcases htail '*' hc with hblank | hparen
    · exact absurd hblank (by decide)
    · exact absurd hparen (by decide)
  have hE : c ≠ 'E' := by
    rintro rfl
    rcases htail 'E' hc with hblank | hparen
    · exact absurd hblank (by decide)
    · exact absurd hparen (by decide)
  have hpart := isIdentifierPart_of_ends htail c hc
  obtain ⟨hhex, hH, hpoint⟩ := not_numeral_of_ends htail c hc
  have hdigit : c.isDigit = false := by
    rw [Numeral.isHexDigit, Bool.or_eq_false_iff] at hhex
    exact hhex.1
  unfold goesOn Numeral.goesOn
  split <;> simp [hstar, hE, hpart, hhex, hH, hpoint, hdigit]

theorem readsBefore_word {c : Char} {word : List Char} (hstart : isIdentifierStart c = true)
    (hparts : ∀ d ∈ word, isIdentifierPart d = true) (htail : Stops (c :: word) tail) :
    ReadsBefore tail (wordToken (c :: word)) c word where
  not_blank := isBlank_of_isIdentifierStart hstart
  not_comment := by
    rintro rfl
    exact absurd hstart (by decide)
  reads := by
    refine readToken_word hstart hparts fun d hd => ?_
    have hstop := htail d hd
    rw [goesOn, if_pos hstart] at hstop
    exact hstop

theorem readsBefore_mark (symbol : Mark) (htail : Stops [symbol.char] tail) :
    ReadsBefore tail (.mark symbol) symbol.char [] where
  not_blank := isBlank_mark symbol
  not_comment := by
    intro hparen hstar
    have hstop := htail '*' hstar
    rw [hparen] at hstop
    exact absurd hstop (by decide)
  reads := readToken_mark symbol tail

theorem readsBefore_string {content : String} (h : ∀ c ∈ content.toList, c ≠ '"' ∧ c ≠ '\n') :
    ReadsBefore tail (.string content) '"' (content.toList ++ ['"']) where
  not_blank := by decide
  not_comment := by
    intro hparen
    exact absurd hparen (by decide)
  reads line := by
    rw [List.append_assoc, List.singleton_append]
    exact readToken_string (fun c hc => by simpa [isStringChar] using h c hc) tail line

theorem readsBefore_numeral {t : Token} {c : Char} {cs : List Char} (hdigit : c.isDigit = true)
    (hread : Numeral.read c (cs ++ tail) = .ok (t, tail)) : ReadsBefore tail t c cs where
  not_blank := isBlank_of_isDigit hdigit
  not_comment hparen := absurd hparen (not_isIdentifierStart_of_isDigit hdigit).2.2
  reads := readToken_numeral hdigit hread

theorem integer_eq_ofNat {value : Int64} {n : Nat} (h : value.toInt = n) :
    (n : Int) ≤ Int64.maxValue.toInt ∧ Int64.ofNat n = value := by
  have hlt := value.toInt_lt
  refine ⟨h ▸ value.toInt_le, Int64.toInt_inj.mp ?_⟩
  rw [Int64.toInt_ofNat_of_lt (by omega), h]

/-- A spelling is read in front of anything that stops it. -/
theorem Spelling.readsBefore {t : Token} {text : List Char} (h : Spelling t text)
    (htail : Stops text tail) : ∃ c cs, text = c :: cs ∧ ReadsBefore tail t c cs := by
  cases h with
  | identifier hname =>
    obtain ⟨c, word, hletters, hstart, hparts⟩ := hname.letters
    have hword := readsBefore_word hstart hparts (hletters ▸ htail)
    rw [← hletters, wordToken_of_not_reserved hname.not_reserved] at hword
    exact ⟨c, word, hletters, hword⟩
  | keyword word =>
    obtain ⟨c, letters, hletters, hstart, hparts⟩ := letters_keyword word
    have hword := readsBefore_word hstart hparts (hletters ▸ htail)
    rw [← hletters, wordToken_keyword] at hword
    exact ⟨c, letters, hletters, hword⟩
  | mark symbol => exact ⟨_, _, rfl, readsBefore_mark symbol htail⟩
  | string hcontent => exact ⟨_, _, rfl, readsBefore_string hcontent⟩
  | @decimal first digits value hdigits hvalue =>
    obtain ⟨hle, rfl⟩ := integer_eq_ofNat hvalue
    have hread := Numeral.read_integer hdigits hle fun d hd => by
      have hstop := htail d hd
      rw [goesOn_decimal hdigits] at hstop
      simpa [and_assoc] using hstop
    exact ⟨first, digits, rfl, readsBefore_numeral (hdigits first List.mem_cons_self) hread⟩
  | @hexadecimal first digits value hfirst hdigits hvalue =>
    obtain ⟨hle, rfl⟩ := integer_eq_ofNat hvalue
    refine ⟨first, digits ++ ['H'], rfl, readsBefore_numeral hfirst ?_⟩
    rw [List.append_assoc, List.singleton_append]
    exact Numeral.read_hexadecimal hdigits hle
  | @real first whole fraction scale exponent value hwhole hfraction hscale hvalue hfinite =>
    have hread := Numeral.readReal_append (first :: whole) hfraction hscale fun d hd => by
      have hstop := htail d hd
      rw [goesOn_real hwhole hfraction hscale] at hstop
      simpa [not_imp_not, imp_not_comm] using hstop
    -- a missing fraction is read as a zero
    have hsame : (Decimal.ofDigits (first :: whole) (if fraction.isEmpty then ['0'] else fraction)
        exponent).toFloat = value := by
      cases fraction with
      | nil =>
        rw [hvalue] at hfinite ⊢
        exact Decimal.toFloat_ofDigits_nil (.inl hfinite)
      | cons => exact hvalue.symm
    refine ⟨first, _, rfl, readsBefore_numeral (hwhole first List.mem_cons_self) ?_⟩
    rw [List.append_assoc, List.cons_append, List.append_assoc, Numeral.read_point hwhole, hread]
    unfold Numeral.real
    rw [hsame, if_pos hfinite]

end Spellings

theorem newline_not_mem_word {c : Char} {word : List Char} (hstart : isIdentifierStart c = true)
    (hparts : ∀ d ∈ word, isIdentifierPart d = true) : '\n' ∉ c :: word := by
  rw [List.mem_cons, not_or]
  refine ⟨?_, not_mem_of_class hparts (by decide)⟩
  rintro rfl
  exact absurd hstart (by decide)

/-- Tokens stay on their line. -/
theorem Spelling.newline_not_mem {t : Token} {text : List Char} (h : Spelling t text) :
    '\n' ∉ text := by
  cases h with
  | identifier hname =>
    obtain ⟨c, word, hletters, hstart, hparts⟩ := hname.letters
    rw [hletters]
    exact newline_not_mem_word hstart hparts
  | keyword word =>
    obtain ⟨c, letters, hletters, hstart, hparts⟩ := letters_keyword word
    rw [hletters]
    exact newline_not_mem_word hstart hparts
  | mark symbol => cases symbol <;> decide
  | string hcontent =>
    have hnone : '\n' ∉ _ := fun hmem => (hcontent '\n' hmem).2 rfl
    simp [hnone]
  | decimal hdigits _ => exact not_mem_of_class hdigits (by decide)
  | hexadecimal hfirst hdigits _ =>
    have hfirst : '\n' ∉ [_] := not_mem_of_class (List.forall_mem_singleton.mpr hfirst) (by decide)
    have hdigits : '\n' ∉ _ := not_mem_of_class hdigits (by decide)
    simp_all
  | real hwhole hfraction hscale _ _ =>
    have hwhole : '\n' ∉ _ := not_mem_of_class hwhole (by decide)
    have hfraction : '\n' ∉ _ := not_mem_of_class hfraction (by decide)
    simp_all [not_mem_scale hscale]

/-! ## Texts -/

/-- A token as it is written, with what separates it from the one before. -/
structure SpelledToken where
  before : List Char
  token : Token
  text : List Char
  isLayout : IsLayout before
  spelling : Spelling token text

def SpelledToken.chars (item : SpelledToken) : List Char :=
  item.before ++ item.text

/-- A text of tokens.  They are separated, and there may be layout at both ends. -/
structure LaidOut where
  items : List SpelledToken
  last : List Char
  isLayout : IsLayout last
  separated : ∀ item ∈ items.tail, item.before ≠ []

namespace LaidOut

def tokens (t : LaidOut) : List Token :=
  t.items.map SpelledToken.token

def chars (t : LaidOut) : List Char :=
  t.items.flatMap SpelledToken.chars ++ t.last

def text (t : LaidOut) : String :=
  String.ofList t.chars

end LaidOut

/-- The tokens with their lines in a text that starts on line `line`: one more for each end of a
line in front of the token. -/
def located (line : Nat) (items : List SpelledToken) : List LocatedToken :=
  items.mapIdx fun i item =>
    ⟨item.token, line + ((items.take i).flatMap SpelledToken.chars ++ item.before).count '\n'⟩

/-- Line breaks of a token with its layout are those of the layout. -/
theorem count_chars (item : SpelledToken) : item.chars.count '\n' = item.before.count '\n' := by
  rw [SpelledToken.chars, List.count_append, List.count_eq_zero.mpr item.spelling.newline_not_mem,
    Nat.add_zero]

theorem located_cons (line : Nat) (item : SpelledToken) (items : List SpelledToken) :
    located line (item :: items) = ⟨item.token, line + item.before.count '\n'⟩ ::
      located (line + item.before.count '\n') items := by
  unfold located
  rw [List.mapIdx_cons]
  simp only [List.take_zero, List.flatMap_nil, List.nil_append, List.take_succ_cons,
    List.flatMap_cons, List.append_assoc, List.count_append, count_chars, Nat.add_assoc]

/-- Places do not change the tokens. -/
theorem map_token_located (line : Nat) (items : List SpelledToken) :
    (located line items).map LocatedToken.token = items.map SpelledToken.token := by
  induction items generalizing line with
  | nil => rfl
  | cons item items ih => rw [located_cons, List.map_cons, List.map_cons, ih]

/-- Tokens with layout in front of them end what comes before. -/
theorem ends_of_separated {items : List SpelledToken} {last : List Char} (hlast : IsLayout last)
    (hseparated : ∀ item ∈ items, item.before ≠ []) :
    Ends (items.flatMap SpelledToken.chars ++ last) := by
  cases items with
  | nil => exact hlast.ends
  | cons item items =>
    rw [List.flatMap_cons, SpelledToken.chars, List.append_assoc, List.append_assoc]
    exact item.isLayout.ends.append (hseparated item List.mem_cons_self) _

/-- Behind its separator each token is read up to the next one. -/
theorem tokens_append {items : List SpelledToken} {last : List Char} (hlast : IsLayout last)
    (hseparated : ∀ item ∈ items.tail, item.before ≠ []) (line : Nat) :
    tokens (items.flatMap SpelledToken.chars ++ last) line =
      .ok (located line items, line + (items.flatMap SpelledToken.chars ++ last).count '\n') := by
  induction items generalizing line with
  | nil =>
    have hlayout : skipLayout (last ++ []) line = .ok ([], line + last.count '\n') := by
      rw [skipLayout_append hlast, skipLayout]
    rw [List.append_nil] at hlayout
    exact tokens_of_layout hlayout
  | cons item items ih =>
    have hrest := ih (fun other hother => hseparated other (List.mem_of_mem_tail hother))
      (line + item.before.count '\n')
    -- what comes behind a token ends it: layout, as the next token is separated
    have hends : Ends (items.flatMap SpelledToken.chars ++ last) :=
      ends_of_separated hlast hseparated
    generalize hchars : items.flatMap SpelledToken.chars ++ last = rest at hrest hends
    obtain ⟨c, cs, htext, hreads⟩ := item.spelling.readsBefore (hends.stops item.text)
    have hlayout : skipLayout (item.before ++ (item.text ++ rest)) line =
        .ok (c :: (cs ++ rest), line + item.before.count '\n') := by
      rw [skipLayout_append item.isLayout, htext]
      exact skipLayout_of_not_isBlank hreads.not_blank hreads.not_comment _
    have htokens := tokens_of_readToken hlayout (hreads.reads _) hrest
    rw [List.flatMap_cons, List.append_assoc, hchars, located_cons, List.count_append, count_chars,
      ← Nat.add_assoc, SpelledToken.chars, List.append_assoc]
    exact htokens

/-- Scanning undoes spelling: whatever the layout, the tokens come back with their lines, and the
last line is that of the end of the text.  Texts of the same tokens are the same modules. -/
theorem scan_laidOut (t : LaidOut) :
    (∀ line, scan t.text line = .ok (located line t.items, line + t.chars.count '\n')) ∧
      ∀ other : LaidOut, other.tokens = t.tokens →
        ∀ m, Source.module other.text = .ok m ↔ Source.module t.text = .ok m := by
  have hscan (t : LaidOut) (line : Nat) : Scanner.tokens t.text.toList line =
      .ok (located line t.items, line + t.chars.count '\n') := by
    rw [LaidOut.text, String.toList_ofList]
    exact tokens_append t.isLayout t.separated line
  refine ⟨hscan t, fun other htokens m => ?_⟩
  have hmodule (t : LaidOut) : Source.module t.text = .ok m ↔
      Grammar.IsModule t.tokens m ∧ (Node.root m).tree.Fits maxNesting := by
    rw [Source.module_eq_ok_iff, hscan t 1]
    simp [map_token_located, LaidOut.tokens]
  rw [hmodule, hmodule, htokens]

def shortModule (gap : List Char) (h : IsLayout gap) (hsome : gap ≠ []) : LaidOut where
  items :=
    [⟨[], .keyword .MODULE, _, .nil, .keyword .MODULE⟩,
      ⟨[' '], .identifier "M", _, .blank (by decide) .nil, .identifier (by decide +kernel)⟩,
      ⟨gap, .mark .semicolon, _, h, .mark .semicolon⟩,
      ⟨gap, .keyword .END, _, h, .keyword .END⟩,
      ⟨[' '], .identifier "M", _, .blank (by decide) .nil, .identifier (by decide +kernel)⟩,
      ⟨[' '], .mark .dot, _, .blank (by decide) .nil, .mark .dot⟩]
  last := []
  isLayout := .nil
  separated := by simp [hsome]

theorem isLayout_blank : IsLayout [' '] :=
  .blank (by decide) .nil

/-- The second bracket of this comment opens another one, and the parenthesis behind it closes
nothing. -/
theorem isLayout_nested : IsLayout "(*\n(*)*)*)".toList := by
  have hcomment : IsComment "(*\n(*)*)*)".toList :=
    ⟨[.other, .opening, .other, .closing], by decide, by decide, by decide⟩
  have hlayout := IsLayout.comment hcomment .nil
  rw [List.append_nil] at hlayout
  exact hlayout

theorem scan_laidOut_shortModule :
    let plain := shortModule [' '] isLayout_blank (by simp)
    let nested := shortModule "(*\n(*)*)*)".toList isLayout_nested (by decide)
    scan nested.text 7 = .ok
        ([⟨.keyword .MODULE, 7⟩, ⟨.identifier "M", 7⟩, ⟨.mark .semicolon, 8⟩, ⟨.keyword .END, 9⟩,
          ⟨.identifier "M", 9⟩, ⟨.mark .dot, 9⟩], 9) ∧
      ∀ m, Source.module nested.text = .ok m ↔ Source.module plain.text = .ok m := by
  intro plain nested
  exact ⟨(scan_laidOut nested).1 7, (scan_laidOut plain).2 nested rfl⟩

end Scanner

end Oberon
