import Oberon.Token.Scanner

/-!
# Texts that spell tokens

`Spells cs ts` says that the characters `cs` are split into the tokens `ts`, on whatever line they
start.  Spellings are built from right to left: each lemma puts one more blank or token in front
of characters whose tokens are known, as long as these do not go on the token.
-/

namespace Oberon

namespace Text

/-- Classes whose ranges are apart have no character in common. -/
theorem not_inRanges_of_apart {ranges ranges' : List (Nat × Nat)} {c : Char}
    (h : inRanges ranges c = true)
    (hapart : ∀ r ∈ ranges, ∀ r' ∈ ranges', r.2 < r'.1 ∨ r'.2 < r.1) :
    inRanges ranges' c = false := by
  rw [Bool.eq_false_iff]
  intro h'
  obtain ⟨r, hr, hlow, hhigh⟩ := inRanges_iff.mp h
  obtain ⟨r', hr', hlow', hhigh'⟩ := inRanges_iff.mp h'
  have := hapart r hr r' hr'
  omega

theorem alphabeticRanges_apart :
    ∀ r ∈ blankRanges, ∀ r' ∈ alphabeticRanges, r.2 < r'.1 ∨ r'.2 < r.1 := by
  decide +kernel

theorem toNat_of_isAlpha {c : Char} (h : c.isAlpha = true) :
    65 ≤ c.toNat ∧ c.toNat ≤ 90 ∨ 97 ≤ c.toNat ∧ c.toNat ≤ 122 := by
  change (decide (65 ≤ c.val ∧ c.val ≤ 90) || decide (97 ≤ c.val) && decide (c.val ≤ 122)) =
    true at h
  simp only [Bool.or_eq_true, Bool.and_eq_true, decide_eq_true_eq, UInt32.le_iff_toNat_le] at h
  exact h

/-- A blank is not a letter. -/
theorem isAlphabetic_of_isBlank {c : Char} (h : isBlank c = true) : isAlphabetic c = false := by
  unfold isAlphabetic
  split
  next hascii =>
    -- the blanks of ASCII come before its letters
    obtain ⟨r, hr, hlow, hhigh⟩ := inRanges_iff.mp h
    have hlast : c.toNat ≤ 0x20 := by
      have : ∀ r ∈ blankRanges, r.1 < 0x80 → r.2 ≤ 0x20 := by decide
      have := this r hr (by omega)
      omega
    rw [Bool.eq_false_iff]
    intro halpha
    have := toNat_of_isAlpha halpha
    omega
  next => exact not_inRanges_of_apart h alphabeticRanges_apart

theorem numericRanges_apart :
    ∀ r ∈ blankRanges, ∀ r' ∈ numericRanges, r.2 < r'.1 ∨ r'.2 < r.1 := by
  decide +kernel

theorem toNat_of_isDigit {c : Char} (h : c.isDigit = true) : 48 ≤ c.toNat ∧ c.toNat ≤ 57 := by
  simp only [Char.isDigit, Bool.and_eq_true, decide_eq_true_eq, UInt32.le_iff_toNat_le] at h
  exact h

theorem isBlank_of_isDigit {c : Char} (h : c.isDigit = true) : isBlank c = false := by
  have hrange : inRanges [(48, 57)] c = true :=
    inRanges_iff.mpr ⟨(48, 57), List.mem_singleton_self _, toNat_of_isDigit h⟩
  exact not_inRanges_of_apart hrange (by decide)

/-- A blank is not a digit of any script. -/
theorem isNumeric_of_isBlank {c : Char} (h : isBlank c = true) : isNumeric c = false := by
  unfold isNumeric
  split
  next =>
    rw [Bool.eq_false_iff]
    intro hdigit
    rw [isBlank_of_isDigit hdigit] at h
    cases h
  next => exact not_inRanges_of_apart h numericRanges_apart

end Text

namespace Scanner

open Oberon.Text

/-! ## One step of the scanner -/

theorem tokens_of_layout {cs : List Char} {line last : Nat}
    (h : skipLayout cs line = .ok ([], last)) :
    tokens cs line = .ok ([], last) := by
  rw [tokens]
  split
  next hlayout => rw [h] at hlayout; cases hlayout
  next hlayout => rw [h] at hlayout; cases hlayout; rfl
  next hlayout => rw [h] at hlayout; cases hlayout

/-- A token is read behind layout, and the others behind it. -/
theorem tokens_of_readToken {cs rest rest' : List Char} {c : Char} {line line' last : Nat}
    {token : Token} {others : List LocatedToken}
    (hlayout : skipLayout cs line = .ok (c :: rest, line'))
    (htoken : readToken line' c rest = .ok (token, rest'))
    (hothers : tokens rest' line' = .ok (others, last)) :
    tokens cs line = .ok (⟨token, line'⟩ :: others, last) := by
  rw [tokens]
  split
  next h => rw [hlayout] at h; cases h
  next h => rw [hlayout] at h; cases h
  next h =>
    rw [hlayout] at h
    cases h
    split
    next h => rw [htoken] at h; cases h
    next h =>
      rw [htoken] at h
      cases h
      rw [hothers]

theorem skipLayout_cons_of_isBlank {c : Char} (h : isBlank c = true) (cs : List Char) (line : Nat) :
    skipLayout (c :: cs) line = skipLayout cs (nextLine c line) := by
  have hparen : c ≠ '(' := by
    rintro rfl
    exact absurd h (by decide)
  rw [skipLayout, if_pos h]
  intro comment hc
  exact absurd hc hparen

/-- Layout ends at a character that is not blank and opens no comment. -/
theorem skipLayout_of_not_isBlank {c : Char} {cs : List Char} (h : isBlank c = false)
    (hcomment : c = '(' → cs.head? ≠ some '*') (line : Nat) :
    skipLayout (c :: cs) line = .ok (c :: cs, line) := by
  rw [skipLayout, if_neg (Bool.eq_false_iff.mp h)]
  intro comment hc hcs
  exact hcomment hc (by rw [hcs]; rfl)

/-! ## Spellings -/

/-- The characters are split into these tokens, wherever they start. -/
def Spells (cs : List Char) (ts : List Token) : Prop :=
  ∀ line, ∃ located last, tokens cs line = .ok (located, last) ∧ located.map LocatedToken.token = ts

theorem spells_nil : Spells [] [] := by
  intro line
  have hlayout : skipLayout [] line = .ok ([], line) := by rw [skipLayout]
  exact ⟨[], line, tokens_of_layout hlayout, rfl⟩

theorem Spells.token {c : Char} {cs rest : List Char} {t : Token} {ts : List Token}
    (h : Spells rest ts) (hblank : isBlank c = false) (hcomment : c = '(' → cs.head? ≠ some '*')
    (hread : ∀ line, readToken line c cs = .ok (t, rest)) : Spells (c :: cs) (t :: ts) := by
  intro line
  obtain ⟨located, last, htokens, hmap⟩ := h line
  have hlayout := skipLayout_of_not_isBlank hblank hcomment line
  refine ⟨⟨t, line⟩ :: located, last, tokens_of_readToken hlayout (hread line) htokens, ?_⟩
  rw [List.map_cons, hmap]

theorem Spells.blank {c : Char} {cs : List Char} {ts : List Token} (h : Spells cs ts)
    (hblank : isBlank c = true) : Spells (c :: cs) ts := by
  intro line
  obtain ⟨located, last, htokens, hmap⟩ := h (nextLine c line)
  have hsame : tokens (c :: cs) line = tokens cs (nextLine c line) := by
    rw [tokens, skipLayout_cons_of_isBlank hblank]
    exact (tokens.eq_1 cs (nextLine c line)).symm
  exact ⟨located, last, by rw [hsame, htokens], hmap⟩

theorem Spells.blanks {n : Nat} {cs : List Char} {ts : List Token} (h : Spells cs ts) :
    Spells (List.replicate n ' ' ++ cs) ts := by
  induction n with
  | zero => exact h
  | succ n ih => exact ih.blank (by decide)

/-- A run of characters of one class ends where what follows is not of the class. -/
theorem takeWhile_append_of_stop {p : Char → Bool} {run cs : List Char}
    (hrun : ∀ c ∈ run, p c = true)
    (hstop : ∀ c ∈ cs.head?, p c = false) :
    (run ++ cs).takeWhile p = run ∧ (run ++ cs).dropWhile p = cs := by
  rw [List.takeWhile_append_of_pos hrun, List.dropWhile_append_of_pos hrun]
  cases cs with
  | nil => simp
  | cons c cs =>
    have hc : p c = false := hstop c rfl
    simp [hc]

/-! ## Words -/

theorem isBlank_of_isIdentifierStart {c : Char} (h : isIdentifierStart c = true) :
    isBlank c = false := by
  rw [Bool.eq_false_iff]
  intro hblank
  rw [isIdentifierStart, isAlphabetic_of_isBlank hblank, Bool.false_or, decide_eq_true_eq] at h
  rw [h] at hblank
  exact absurd hblank (by decide)

/-- A word is read up to a character that is no part of it. -/
theorem readToken_word {c : Char} {word cs : List Char} (hstart : isIdentifierStart c = true)
    (hparts : ∀ d ∈ word, isIdentifierPart d = true)
    (hstop : ∀ d ∈ cs.head?, isIdentifierPart d = false) (line : Nat) :
    readToken line c (word ++ cs) = .ok (wordToken (c :: word), cs) := by
  obtain ⟨htake, hdrop⟩ := takeWhile_append_of_stop hparts hstop
  rw [readToken, if_pos hstart, htake, hdrop]

theorem Spells.word {c : Char} {word cs : List Char} {ts : List Token} (h : Spells cs ts)
    (hstart : isIdentifierStart c = true) (hparts : ∀ d ∈ word, isIdentifierPart d = true)
    (hstop : ∀ d ∈ cs.head?, isIdentifierPart d = false) :
    Spells (c :: (word ++ cs)) (wordToken (c :: word) :: ts) := by
  have hparen : c ≠ '(' := by
    rintro rfl
    exact absurd hstart (by decide)
  exact h.token (isBlank_of_isIdentifierStart hstart) (fun hc => absurd hc hparen)
    (readToken_word hstart hparts hstop)

/-- A name that is written as an identifier: it starts with a letter or an underscore, goes on with
letters, digits and underscores, and is not reserved. -/
structure IsIdentifier (name : String) : Prop where
  letters : ∃ c word, name.toList = c :: word ∧ isIdentifierStart c = true ∧
    ∀ d ∈ word, isIdentifierPart d = true
  not_reserved : ∀ keyword : Keyword, keyword.text ≠ name

/-- Identifiers can be recognised by a test on their text. -/
theorem isIdentifier_iff {name : String} :
    IsIdentifier name ↔ name.toList.head?.any isIdentifierStart = true ∧
      name.toList.tail.all isIdentifierPart = true ∧
        ∀ keyword ∈ Keyword.all, keyword.text ≠ name := by
  have hall (keyword : Keyword) : keyword ∈ Keyword.all := by cases keyword <;> decide
  constructor
  · intro h
    obtain ⟨c, word, hletters, hstart, hparts⟩ := h.letters
    rw [hletters]
    exact ⟨hstart, List.all_eq_true.mpr hparts, fun keyword _ => h.not_reserved keyword⟩
  · rintro ⟨hstart, hparts, hreserved⟩
    refine ⟨?_, fun keyword => hreserved keyword (hall keyword)⟩
    cases hletters : name.toList with
    | nil =>
      rw [hletters] at hstart
      cases hstart
    | cons c word =>
      rw [hletters] at hstart hparts
      exact ⟨c, word, rfl, hstart, List.all_eq_true.mp hparts⟩

instance (name : String) : Decidable (IsIdentifier name) :=
  decidable_of_iff _ isIdentifier_iff.symm

/-- A word that is not reserved is an identifier. -/
theorem wordToken_of_not_reserved {name : String} (h : ∀ keyword : Keyword, keyword.text ≠ name) :
    wordToken name.toList = .identifier name := by
  have hnone : Keyword.ofText? name = none := by
    cases hsome : Keyword.ofText? name with
    | none => rfl
    | some keyword => exact absurd (Keyword.ofText?_eq_some_iff.mp hsome) (h keyword)
  rw [wordToken, String.ofList_toList, hnone]

theorem Spells.identifier {name : String} {cs : List Char} {ts : List Token} (h : Spells cs ts)
    (hname : IsIdentifier name) (hstop : ∀ d ∈ cs.head?, isIdentifierPart d = false) :
    Spells (name.toList ++ cs) (.identifier name :: ts) := by
  obtain ⟨c, word, hletters, hstart, hparts⟩ := hname.letters
  have hword := h.word hstart hparts hstop
  rw [← hletters, wordToken_of_not_reserved hname.not_reserved] at hword
  rw [hletters]
  exact hword

/-- A reserved word is written like an identifier. -/
theorem letters_keyword (keyword : Keyword) : ∃ c word, keyword.text.toList = c :: word ∧
    isIdentifierStart c = true ∧ ∀ d ∈ word, isIdentifierPart d = true := by
  cases keyword <;> exact ⟨_, _, rfl, by decide, List.all_eq_true.mp (by decide)⟩

/-- The text of a keyword is read as the keyword. -/
theorem wordToken_keyword (keyword : Keyword) :
    wordToken keyword.text.toList = .keyword keyword := by
  rw [wordToken, String.ofList_toList, Keyword.ofText?_text]

theorem Spells.keyword {keyword : Keyword} {cs : List Char} {ts : List Token} (h : Spells cs ts)
    (hstop : ∀ d ∈ cs.head?, isIdentifierPart d = false) :
    Spells (keyword.text.toList ++ cs) (.keyword keyword :: ts) := by
  obtain ⟨c, word, hletters, hstart, hparts⟩ := letters_keyword keyword
  have hword := h.word hstart hparts hstop
  rw [← hletters, wordToken_keyword] at hword
  rw [hletters]
  exact hword

/-! ## Marks -/

/-- Characters that spell no product sign first do not start with one. -/
theorem Spells.head?_ne {cs : List Char} {ts : List Token} (h : Spells cs ts)
    (hts : ts.head? ≠ some (.mark .times)) : cs.head? ≠ some '*' := by
  intro hhead
  cases cs with
  | nil => cases hhead
  | cons c cs =>
    cases hhead
    obtain ⟨located, last, htokens, rfl⟩ := h 1
    have hlayout : skipLayout ('*' :: cs) 1 = .ok ('*' :: cs, 1) :=
      skipLayout_of_not_isBlank (by decide) (fun hc => absurd hc (by decide)) 1
    have hread : readToken 1 '*' cs = .ok (.mark .times, cs) := rfl
    -- a star would be read as the product sign that is excluded
    rw [tokens] at htokens
    split at htokens
    next => cases htokens
    next h => rw [hlayout] at h; cases h
    next h =>
      rw [hlayout] at h
      cases h
      split at htokens
      next => cases htokens
      next h =>
        rw [hread] at h
        cases h
        split at htokens <;> cases htokens
        exact hts rfl

theorem isBlank_mark (mark : Mark) : isBlank mark.char = false := by
  cases mark <;> decide

theorem readToken_mark (mark : Mark) (cs : List Char) (line : Nat) :
    readToken line mark.char cs = .ok (.mark mark, cs) := by
  have hclass : isIdentifierStart mark.char = false ∧ mark.char.isDigit = false ∧
      mark.char ≠ '"' := by
    cases mark <;> decide
  obtain ⟨hstart, hdigit, hquote⟩ := hclass
  rw [readToken, hstart, hdigit]
  simp [hquote]

/-- A mark is spelled by its character, unless a comment would open. -/
theorem Spells.mark {cs : List Char} {ts : List Token} (h : Spells cs ts) (mark : Mark)
    (hcomment : mark = .leftParen → ts.head? ≠ some (.mark .times)) :
    Spells (mark.char :: cs) (.mark mark :: ts) := by
  -- a parenthesis in front of a star would open a comment
  have hparen : mark.char = '(' → cs.head? ≠ some '*' := by
    intro hc
    refine h.head?_ne (hcomment ?_)
    cases mark <;> first | rfl | cases hc
  exact h.token (isBlank_mark mark) hparen (readToken_mark mark cs)

/-! ## Strings -/

/-- A string is read up to its closing quote. -/
theorem readToken_string {content : String} (hcontent : ∀ c ∈ content.toList, isStringChar c = true)
    (cs : List Char) (line : Nat) :
    readToken line '"' (content.toList ++ '"' :: cs) = .ok (.string content, cs) := by
  have hstop : ∀ c ∈ ('"' :: cs).head?, isStringChar c = false := by
    rintro c ⟨⟩
    decide
  obtain ⟨htake, hdrop⟩ := takeWhile_append_of_stop hcontent hstop
  have hstart : isIdentifierStart '"' = false := by decide
  have hdigit : '"'.isDigit = false := by decide
  rw [readToken, hstart, hdigit]
  simp [readString, htake, hdrop]

theorem Spells.string {content : String} {cs : List Char} {ts : List Token} (h : Spells cs ts)
    (hcontent : ∀ c ∈ content.toList, isStringChar c = true) :
    Spells ('"' :: (content.toList ++ '"' :: cs)) (.string content :: ts) :=
  h.token (by decide) (fun hc => absurd hc (by decide)) (readToken_string hcontent cs)

/-! ## Numerals -/

/-- A digit starts neither a word nor layout. -/
theorem not_isIdentifierStart_of_isDigit {c : Char} (h : c.isDigit = true) :
    isIdentifierStart c = false ∧ isBlank c = false ∧ c ≠ '(' := by
  have hrange := toNat_of_isDigit h
  refine ⟨?_, isBlank_of_isDigit h, ?_⟩
  · have hunderscore : c ≠ '_' := by
      rintro rfl
      exact absurd h (by decide)
    have halpha : c.isAlpha = false := by
      rw [Bool.eq_false_iff]
      intro halpha
      have := toNat_of_isAlpha halpha
      omega
    rw [isIdentifierStart, isAlphabetic, if_pos (by omega), halpha, Bool.false_or,
      decide_eq_false_iff_not]
    exact hunderscore
  · rintro rfl
    exact absurd h (by decide)

theorem readToken_numeral {c : Char} {cs rest : List Char} {t : Token} (hdigit : c.isDigit = true)
    (hread : Numeral.read c cs = .ok (t, rest)) (line : Nat) :
    readToken line c cs = .ok (t, rest) := by
  rw [readToken, (not_isIdentifierStart_of_isDigit hdigit).1, hdigit, hread]
  rfl

theorem Spells.numeral {c : Char} {digits cs : List Char} {t : Token} {ts : List Token}
    (h : Spells cs ts) (hdigit : c.isDigit = true)
    (hread : Numeral.read c (digits ++ cs) = .ok (t, cs)) :
    Spells (c :: (digits ++ cs)) (t :: ts) := by
  obtain ⟨-, hblank, hparen⟩ := not_isIdentifierStart_of_isDigit hdigit
  exact h.token hblank (fun hc => absurd hc hparen) (readToken_numeral hdigit hread)

end Scanner

namespace Numeral

theorem isHexDigit_of_isDigit {c : Char} (h : c.isDigit = true) : isHexDigit c = true := by
  rw [isHexDigit, h, Bool.true_or]

theorem isHexDigit_of_isBlank {c : Char} (h : Text.isBlank c = true) : isHexDigit c = false := by
  rw [Bool.eq_false_iff]
  intro hhex
  rw [isHexDigit, Bool.or_eq_true, Bool.and_eq_true, decide_eq_true_eq, decide_eq_true_eq] at hhex
  rcases hhex with hdigit | hletter
  · rw [Text.isBlank_of_isDigit hdigit] at h
    cases h
  · have hrange : Text.inRanges [(65, 70)] c = true :=
      Text.inRanges_iff.mpr ⟨(65, 70), List.mem_singleton_self _, hletter⟩
    have hblank : Text.isBlank c = false := Text.not_inRanges_of_apart hrange (by decide)
    rw [hblank] at h
    cases h

/-- A decimal integer is read up to a character that cannot go on it. -/
theorem read_integer {c : Char} {digits cs : List Char}
    (hdigits : ∀ d ∈ c :: digits, d.isDigit = true)
    (hle : (decimalValue (c :: digits) : Int) ≤ Int64.maxValue.toInt)
    (hstop : ∀ d ∈ cs.head?, isHexDigit d = false ∧ d ≠ 'H' ∧ d ≠ '.') :
    read c (digits ++ cs) = .ok (.integer (Int64.ofNat (decimalValue (c :: digits))), cs) := by
  have hrun : ∀ d ∈ digits, isHexDigit d = true := fun d hd =>
    isHexDigit_of_isDigit (hdigits d (List.mem_cons_of_mem c hd))
  obtain ⟨htake, hdrop⟩ := Scanner.takeWhile_append_of_stop hrun fun d hd => (hstop d hd).1
  have hall : (c :: digits).all Char.isDigit = true := List.all_eq_true.mpr hdigits
  unfold read
  rw [htake, hdrop]
  dsimp only
  split
  next rest => exact absurd rfl (hstop 'H' rfl).2.1
  next =>
    rw [if_pos hall]
    split
    next rest => exact absurd rfl (hstop '.' rfl).2.2
    next => rw [integer, if_pos hle]

/-- Hexadecimal digits with an `H` are an integer if it is in range. -/
theorem read_hexadecimal {c : Char} {digits cs : List Char}
    (hdigits : ∀ d ∈ digits, isHexDigit d = true)
    (hle : (hexValue (c :: digits) : Int) ≤ Int64.maxValue.toInt) :
    read c (digits ++ 'H' :: cs) = .ok (.integer (Int64.ofNat (hexValue (c :: digits))), cs) := by
  have hstop : ∀ d ∈ ('H' :: cs).head?, isHexDigit d = false := by
    rintro d ⟨⟩
    decide
  obtain ⟨htake, hdrop⟩ := Scanner.takeWhile_append_of_stop hdigits hstop
  unfold read
  rw [htake, hdrop]
  show integer (hexValue (c :: digits)) (c :: digits ++ ['H']) cs = _
  rw [integer, if_pos hle]

/-- The digits in front of a point are read as if they were hexadecimal, and end at the point. -/
theorem read_point {c : Char} {digits : List Char} (hdigits : ∀ d ∈ c :: digits, d.isDigit = true)
    (cs : List Char) : read c (digits ++ '.' :: cs) = readReal (c :: digits) cs := by
  have hrun : ∀ d ∈ digits, isHexDigit d = true := fun d hd =>
    isHexDigit_of_isDigit (hdigits d (List.mem_cons_of_mem c hd))
  have hpoint : ∀ d ∈ ('.' :: cs).head?, isHexDigit d = false := by
    rintro d ⟨⟩
    decide
  obtain ⟨htake, hdrop⟩ := Scanner.takeWhile_append_of_stop hrun hpoint
  unfold read
  rw [htake, hdrop]
  show (if (c :: digits).all Char.isDigit = true then readReal (c :: digits) cs
    else .error (String.ofList (c :: digits))) = _
  rw [if_pos (List.all_eq_true.mpr hdigits)]

/-- The exponent of a real as it is written, if it is written at all. -/
inductive IsScale : List Char → Int → Prop where
  | absent : IsScale [] 0
  | written {sign digits : List Char} (hsign : sign = [] ∨ sign = ['+'] ∨ sign = ['-'])
    (hsome : digits ≠ []) (hdigits : ∀ d ∈ digits, d.isDigit = true) :
    IsScale ('E' :: (sign ++ digits))
      (if sign = ['-'] then -(decimalValue digits : Int) else decimalValue digits)

theorem takeSign_append {sign digits : List Char} (hsign : sign = [] ∨ sign = ['+'] ∨ sign = ['-'])
    (hsome : digits ≠ []) (hdigits : ∀ d ∈ digits, d.isDigit = true) (cs : List Char) :
    takeSign (sign ++ (digits ++ cs)) = (sign, digits ++ cs) := by
  obtain rfl | rfl | rfl := hsign
  · cases digits with
    | nil => exact absurd rfl hsome
    | cons d digits =>
      have hd := hdigits d List.mem_cons_self
      have hplus : d ≠ '+' := by
        rintro rfl
        exact absurd hd (by decide)
      have hminus : d ≠ '-' := by
        rintro rfl
        exact absurd hd (by decide)
      show takeSign (d :: (digits ++ cs)) = _
      rw [takeSign]
      · rfl
      · rintro _ ⟨⟩
        exact hplus rfl
      · rintro _ ⟨⟩
        exact hminus rfl
  · rfl
  · rfl

/-- What is behind the point is read up to a character that cannot go on it. -/
theorem readReal_append (whole : List Char) {fraction scale cs : List Char} {exponent : Int}
    (hfraction : ∀ d ∈ fraction, d.isDigit = true) (hscale : IsScale scale exponent)
    (hstop : ∀ d ∈ cs.head?, d.isDigit = false ∧ (scale = [] → d ≠ 'E')) :
    readReal whole (fraction ++ (scale ++ cs)) =
      real whole (if fraction.isEmpty then ['0'] else fraction) exponent
        (whole ++ '.' :: ((if fraction.isEmpty then ['0'] else fraction) ++ scale)) cs := by
  cases hscale with
  | absent =>
    obtain ⟨htake, hdrop⟩ := Scanner.takeWhile_append_of_stop hfraction fun d hd => (hstop d hd).1
    rw [List.nil_append, List.append_nil]
    unfold readReal
    rw [htake, hdrop]
    dsimp only
    split
    next rest => exact absurd rfl ((hstop 'E' rfl).2 rfl)
    next => rfl
  | @written sign digits hsign hsome hdigits =>
    -- the digits of the fraction end at the `E`
    have hmark : ∀ d ∈ ('E' :: (sign ++ digits) ++ cs).head?, d.isDigit = false := by
      rintro d ⟨⟩
      decide
    obtain ⟨htake, hdrop⟩ := Scanner.takeWhile_append_of_stop hfraction hmark
    obtain ⟨htake', hdrop'⟩ := Scanner.takeWhile_append_of_stop hdigits fun d hd => (hstop d hd).1
    unfold readReal
    rw [htake, hdrop]
    simp only [List.cons_append, List.append_assoc, takeSign_append hsign hsome hdigits,
      htake', hdrop']
    rw [if_neg (by simpa using hsome)]

/-- A real without an exponent is read up to a character that cannot go on it. -/
theorem read_real {c : Char} {digits fraction cs : List Char}
    (hdigits : ∀ d ∈ c :: digits, d.isDigit = true) (hfraction : ∀ d ∈ fraction, d.isDigit = true)
    (hsome : fraction ≠ [])
    (hfinite : (Decimal.ofDigits (c :: digits) fraction 0).toFloat.isFinite = true)
    (hstop : ∀ d ∈ cs.head?, d.isDigit = false ∧ d ≠ 'E') :
    read c (digits ++ '.' :: (fraction ++ cs)) =
      .ok (.real (Decimal.ofDigits (c :: digits) fraction 0).toFloat, cs) := by
  have hread := readReal_append (c :: digits) hfraction .absent
    fun d hd => ⟨(hstop d hd).1, fun _ => (hstop d hd).2⟩
  rw [List.nil_append, if_neg (by simpa using hsome)] at hread
  rw [read_point hdigits, hread]
  unfold real
  rw [if_pos hfinite]

end Numeral

end Oberon
