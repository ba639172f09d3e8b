import Oberon.Proofs.Decimal.ReadBack
import Oberon.Proofs.Token.Spelling

/-!
# What the scanner produces

Every token that is scanned can be written: its name is an identifier, its integer is not
negative, its real is finite and without a sign, and its string has neither a quote nor an end of
line in it.
-/

namespace Oberon

open Scanner

def Token.IsLexeme : Token → Prop
  | identifier name => IsIdentifier name
  | integer value => 0 ≤ value.toInt
  | real value => Real.IsPlain value
  | string content => ∀ c ∈ content.toList, c ≠ '"' ∧ c ≠ '\n'
  | keyword _ => True
  | mark _ => True
  | endOfFile => False

namespace Numeral

variable {token : Token} {rest rest' : List Char}

theorem isLexeme_of_integer {value : Nat} {text : List Char}
    (h : integer value text rest = .ok (token, rest')) : token.IsLexeme := by
  unfold integer at h
  split at h
  next hle =>
    cases h
    -- the value is below `2 ^ 63`, so it does not wrap around
    have hvalue : (Int64.ofNat value).toInt = value :=
      Int64.toInt_ofNat_of_lt (by
        have hmax : Int64.maxValue.toInt = 2 ^ 63 - 1 := by decide
        omega)
    show 0 ≤ (Int64.ofNat value).toInt
    rw [hvalue]
    exact Int.natCast_nonneg value
  next => cases h

theorem isLexeme_of_real {whole fraction text : List Char} {exponent : Int}
    (h : real whole fraction exponent text rest = .ok (token, rest')) : token.IsLexeme := by
  unfold real at h
  dsimp only at h
  split at h
  next hfinite =>
    cases h
    exact Real.isPlain_toFloat hfinite
  next => cases h

theorem isLexeme_of_readReal {whole : List Char}
    (h : readReal whole rest = .ok (token, rest')) : token.IsLexeme := by
  unfold readReal at h
  dsimp only at h
  split at h
  next =>
    split at h
    next => cases h
    next => exact isLexeme_of_real h
  next => exact isLexeme_of_real h

/-- A numeral is a number that is not negative. -/
theorem isLexeme_of_read {first : Char} (h : read first rest = .ok (token, rest')) :
    token.IsLexeme := by
  unfold read at h
  dsimp only at h
  split at h
  next => exact isLexeme_of_integer h
  next =>
    split at h
    next =>
      split at h
      next => exact isLexeme_of_readReal h
      next => exact isLexeme_of_integer h
    next => cases h

end Numeral

namespace Scanner

/-- A word is a keyword or an identifier. -/
theorem isLexeme_wordToken {c : Char} {word : List Char} (hstart : isIdentifierStart c = true)
    (hparts : ∀ d ∈ word, isIdentifierPart d = true) : (wordToken (c :: word)).IsLexeme := by
  unfold wordToken
  split
  next => trivial
  next hnone =>
    refine ⟨⟨c, word, String.toList_ofList, hstart, hparts⟩, fun keyword hkeyword => ?_⟩
    -- a reserved word would have been found
    have hfound := Keyword.ofText?_eq_some_iff.mpr hkeyword
    rw [hnone] at hfound
    cases hfound

/-- A string contains neither quotes nor line breaks. -/
theorem isLexeme_of_readString {line : Nat} {rest rest' : List Char} {token : Token}
    (h : readString line rest = .ok (token, rest')) : token.IsLexeme := by
  unfold readString at h
  split at h
  next => cases h
  next => cases h
  next =>
    cases h
    intro c hc
    rw [String.toList_ofList] at hc
    have hclass := List.all_eq_true.mp List.all_takeWhile c hc
    simpa [isStringChar] using hclass

/-- Every token that is read is one that can be written. -/
theorem isLexeme_of_readToken {line : Nat} {c : Char} {rest rest' : List Char} {token : Token}
    (h : readToken line c rest = .ok (token, rest')) : token.IsLexeme := by
  -- words, numerals, strings and marks, in the order in which they are tried
  unfold readToken at h
  split at h
  next hstart =>
    cases h
    exact isLexeme_wordToken hstart (List.all_eq_true.mp List.all_takeWhile)
  next =>
    split at h
    next =>
      cases hread : Numeral.read c rest with
      | error =>
        rw [hread] at h
        cases h
      | ok result =>
        rw [hread] at h
        cases h
        exact Numeral.isLexeme_of_read hread
    next =>
      split at h
      next => exact isLexeme_of_readString h
      next =>
        split at h
        next =>
          cases h
          trivial
        next => cases h

/-- Every token of a scan is one that can be written. -/
theorem isLexeme_of_mem_tokens {cs : List Char} {line last : Nat} {located : List LocatedToken}
    (h : tokens cs line = .ok (located, last)) : ∀ t ∈ located, t.token.IsLexeme := by
  fun_induction tokens cs line generalizing located last with
  | case1 => cases h
  | case2 =>
    cases h
    exact nofun
  | case3 => cases h
  | case4 => cases h
  | case5 _ _ _ _ _ _ _ _ htoken _ _ hothers ih =>
    cases h
    rw [List.forall_mem_cons]
    exact ⟨isLexeme_of_readToken htoken, ih hothers⟩

/-- The end of the file is never written. -/
theorem not_endOfFile_of_isLexeme {t : Token} (h : t.IsLexeme) : t ≠ .endOfFile := by
  rintro rfl
  exact h

end Scanner

end Oberon
