import Mathlib.Data.Nat.Digits.Defs
import Mathlib.Tactic.IntervalCases
import Oberon.Proofs.Token.Faults

/-!
# Values of numerals

What the scanner makes of a numeral wherever one starts: integers have the value of their digits
by place, in base ten or sixteen, and reals the value of their text.  What is out of range or
malformed is refused with the text that was read.
-/

namespace Oberon

namespace Numeral

open Scanner

/-! ## Digits by place -/

def digitChars : List Char :=
  "0123456789ABCDEF".toList

def digitValue (c : Char) : Nat :=
  digitChars.idxOf c

/-- The value of digits by their places, the last one of value one. -/
def positionalValue (base : Nat) (digits : List Char) : Nat :=
  Nat.ofDigits base (digits.map digitValue).reverse

variable {c : Char} {digits : List Char}

/-- Another digit shifts the others by one place. -/
theorem positionalValue_concat (base : Nat) (digits : List Char) (c : Char) :
    positionalValue base (digits ++ [c]) = base * positionalValue base digits + digitValue c := by
  simp only [positionalValue, List.map_append, List.map_singleton, List.reverse_concat,
    Nat.ofDigits_cons]
  exact Nat.add_comm _ _

/-- Reading from the left multiplies what is read by the base. -/
theorem foldl_eq_positionalValue (base : Nat) {f : Char → Nat}
    (h : ∀ c ∈ digits, f c = digitValue c) :
    digits.foldl (fun value c => base * value + f c) 0 = positionalValue base digits := by
  induction digits using List.reverseRecOn with
  | nil => rfl
  | append_singleton digits c ih =>
    rw [List.forall_mem_append, List.forall_mem_singleton] at h
    rw [List.foldl_append, ih h.1, positionalValue_concat, ← h.2]
    rfl

theorem isHexDigit_eq (c : Char) : isHexDigit c = decide (c ∈ digitChars) := by
  have hmem : ∀ d ∈ digitChars, isHexDigit d = true := List.all_eq_true.mp (by decide)
  rw [Bool.eq_iff_iff, decide_eq_true_eq]
  refine ⟨fun h => ?_, hmem c⟩
  rw [isHexDigit, Bool.or_eq_true, Bool.and_eq_true, decide_eq_true_eq, decide_eq_true_eq] at h
  rw [← Char.ofNat_toNat c]
  rcases h with hdigit | ⟨hlow, hhigh⟩
  · obtain ⟨hlow, hhigh⟩ := Text.toNat_of_isDigit hdigit
    generalize c.toNat = n at *
    interval_cases n <;> decide
  · have hlow' : 65 ≤ c.toNat := hlow
    have hhigh' : c.toNat ≤ 70 := hhigh
    generalize c.toNat = n at *
    interval_cases n <;> decide

/-- The value of hexadecimal digits is positional. -/
theorem hexValue_eq (h : ∀ d ∈ digits, d ∈ digitChars) :
    hexValue digits = positionalValue 16 digits := by
  have hvalues : digitChars.map hexDigitValue = digitChars.map digitValue := by decide
  exact foldl_eq_positionalValue 16 fun d hd => List.map_inj_left.mp hvalues d (h d hd)

/-- The value of decimal digits is positional. -/
theorem decimalValue_eq (h : ∀ d ∈ digits, d.isDigit = true) :
    decimalValue digits = positionalValue 10 digits := by
  have hvalues : (digitChars.filter Char.isDigit).map (fun d => d.toNat - '0'.toNat) =
      (digitChars.filter Char.isDigit).map digitValue := by decide
  apply foldl_eq_positionalValue 10
  intro d hd
  have hmem := isHexDigit_of_isDigit (h d hd)
  rw [isHexDigit_eq, decide_eq_true_eq] at hmem
  exact List.map_inj_left.mp hvalues d (List.mem_filter.mpr ⟨hmem, h d hd⟩)

/-! ## Runs of digits -/

/-- The digits at which a numeral starts, and what is behind them. -/
theorem run_eq (hfirst : c.isDigit = true) (cs : List Char) :
    (c :: cs).takeWhile (· ∈ digitChars) = c :: cs.takeWhile isHexDigit ∧
      (c :: cs).dropWhile (· ∈ digitChars) = cs.dropWhile isHexDigit := by
  have hclass : (fun d => decide (d ∈ digitChars)) = isHexDigit :=
    funext fun d => (isHexDigit_eq d).symm
  have hhex := isHexDigit_of_isDigit hfirst
  rw [hclass, List.takeWhile_cons_of_pos hhex, List.dropWhile_cons_of_pos hhex]
  exact ⟨rfl, rfl⟩

variable {cs : List Char}

/-- Digits with an `H` behind them are hexadecimal. -/
theorem read_of_suffix {rest : List Char} (h : cs.dropWhile isHexDigit = 'H' :: rest) :
    read c cs = integer (hexValue (c :: cs.takeWhile isHexDigit))
      (c :: cs.takeWhile isHexDigit ++ ['H']) rest := by
  unfold read
  rw [h]
  rfl

/-- Digits with a letter among them are refused if there is no `H`. -/
theorem read_of_letter (hH : (cs.dropWhile isHexDigit).head? ≠ some 'H')
    (h : ∃ d ∈ c :: cs.takeWhile isHexDigit, d.isDigit = false) :
    read c cs = .error (String.ofList (c :: cs.takeWhile isHexDigit)) := by
  have hall : ¬ (c :: cs.takeWhile isHexDigit).all Char.isDigit = true := by
    obtain ⟨d, hd, hletter⟩ := h
    intro hall
    rw [List.all_eq_true.mp hall d hd] at hletter
    cases hletter
  unfold read
  dsimp only
  split
  next hbehind =>
    rw [hbehind] at hH
    exact absurd rfl hH
  next => rw [if_neg hall]

/-- Digits alone are decimal. -/
theorem read_of_decimal (hH : (cs.dropWhile isHexDigit).head? ≠ some 'H')
    (hpoint : (cs.dropWhile isHexDigit).head? ≠ some '.')
    (h : ∀ d ∈ c :: cs.takeWhile isHexDigit, d.isDigit = true) :
    read c cs = integer (decimalValue (c :: cs.takeWhile isHexDigit)) (c :: cs.takeWhile isHexDigit)
      (cs.dropWhile isHexDigit) := by
  unfold read
  dsimp only
  split
  next hbehind =>
    rw [hbehind] at hH
    exact absurd rfl hH
  next =>
    rw [if_pos (List.all_eq_true.mpr h)]
    split
    next hbehind =>
      rw [hbehind] at hpoint
      exact absurd rfl hpoint
    next => rfl

/-! ## Texts of reals -/

def natural? (digits : List Char) : Option Nat :=
  if digits ≠ [] ∧ digits.all Char.isDigit = true then some (positionalValue 10 digits) else none

/-- The exponent that stands behind the digits of a real; without one it is zero. -/
def exponent? : List Char → Option Int
  | [] => some 0
  | 'E' :: '+' :: digits => (natural? digits).map fun n => n
  | 'E' :: '-' :: digits => (natural? digits).map fun n => -n
  | 'E' :: digits => (natural? digits).map fun n => n
  | _ => none

/-- The real that a text denotes: digits, perhaps with a point among them, and perhaps an
exponent. -/
def realOfText? (text : List Char) : Option Float :=
  let mantissa := text.takeWhile (· ≠ 'E')
  let whole := mantissa.takeWhile (· ≠ '.')
  let fraction := (mantissa.dropWhile (· ≠ '.')).tail
  match natural? (whole ++ fraction), exponent? (text.dropWhile (· ≠ 'E')) with
  | some coefficient, some exponent =>
    some (Decimal.toFloat ⟨coefficient, exponent - fraction.length⟩)
  | _, _ => none

variable {whole fraction scale sign rest : List Char} {exponent : Int}

theorem natural?_of_isDigit (h : ∀ d ∈ digits, d.isDigit = true) :
    natural? digits = if digits = [] then none else some (decimalValue digits) := by
  rw [natural?, decimalValue_eq h]
  by_cases hnil : digits = []
  · simp [hnil]
  · rw [if_pos ⟨hnil, List.all_eq_true.mpr h⟩, if_neg hnil]

theorem exponent?_written (hsign : sign = [] ∨ sign = ['+'] ∨ sign = ['-'])
    (hdigits : ∀ d ∈ digits, d.isDigit = true) :
    exponent? ('E' :: (sign ++ digits)) = if digits = [] then none
      else some (if sign = ['-'] then -(decimalValue digits : Int) else decimalValue digits) := by
  have hnatural := natural?_of_isDigit hdigits
  obtain rfl | rfl | rfl := hsign
  · have hplain : exponent? ('E' :: digits) = (natural? digits).map fun n => (n : Int) := by
      rw [exponent?]
      · rintro more rfl
        exact absurd (hdigits '+' List.mem_cons_self) (by decide)
      · rintro more rfl
        exact absurd (hdigits '-' List.mem_cons_self) (by decide)
    rw [List.nil_append, hplain, hnatural]
    split <;> rfl
  · show (natural? digits).map (fun n => (n : Int)) = _
    rw [hnatural]
    split <;> rfl
  · show (natural? digits).map (fun n => -(n : Int)) = _
    rw [hnatural]
    split <;> rfl

theorem exponent?_of_isScale (h : IsScale scale exponent) : exponent? scale = some exponent := by
  cases h with
  | absent => rfl
  | written hsign hsome hdigits => rw [exponent?_written hsign hdigits, if_neg hsome]

/-- The text of a real number is read part by part. -/
theorem realOfText?_eq (hwhole : ∀ d ∈ c :: whole, d.isDigit = true)
    (hfraction : ∀ d ∈ fraction, d.isDigit = true) (hscale : ∀ d ∈ scale.head?, d = 'E') :
    realOfText? (c :: (whole ++ '.' :: (fraction ++ scale))) =
      (exponent? scale).map fun exponent =>
        (Decimal.ofDigits (c :: whole) fraction exponent).toFloat := by
  have hdigit {mark : Char} (hmark : mark.isDigit = false) {digits : List Char}
      (hdigits : ∀ d ∈ digits, d.isDigit = true) : ∀ d ∈ digits, decide (d ≠ mark) = true := by
    intro d hd
    rw [decide_eq_true_eq]
    rintro rfl
    rw [hdigits d hd] at hmark
    cases hmark
  -- the text is cut at the `E` and at the point
  have hmantissa : ∀ d ∈ c :: (whole ++ '.' :: fraction), decide (d ≠ 'E') = true := by
    rw [← List.cons_append, List.forall_mem_append]
    exact ⟨hdigit rfl hwhole, List.forall_mem_cons.mpr ⟨by decide, hdigit rfl hfraction⟩⟩
  have hE : ∀ d ∈ scale.head?, decide (d ≠ 'E') = false := fun d hd => by simp [hscale d hd]
  have hpoint : ∀ d ∈ ('.' :: fraction).head?, decide (d ≠ '.') = false := by
    rintro d ⟨⟩
    rfl
  obtain ⟨htake, hdrop⟩ := takeWhile_append_of_stop hmantissa hE
  obtain ⟨htake', hdrop'⟩ := takeWhile_append_of_stop (hdigit rfl hwhole) hpoint
  have htext : c :: (whole ++ '.' :: (fraction ++ scale)) =
      c :: (whole ++ '.' :: fraction) ++ scale := by simp
  have hall : ∀ d ∈ c :: whole ++ fraction, d.isDigit = true :=
    List.forall_mem_append.mpr ⟨hwhole, hfraction⟩
  unfold realOfText?
  rw [htext, htake, hdrop]
  dsimp only
  rw [← List.cons_append, htake', hdrop', List.tail_cons, natural?_of_isDigit hall,
    if_neg (by simp)]
  cases exponent? scale <;> rfl

/-- The exponent of a real in front of `rest`, as far as it goes: nothing, or an `E` with a sign
that may be missing and with `digits` that may be missing too. -/
inductive ScaleBefore (rest : List Char) : List Char → Option (List Char) → Prop where
  | absent (hstop : ∀ d ∈ rest.head?, d.isDigit = false ∧ d ≠ 'E') : ScaleBefore rest [] none
  | written {sign digits : List Char} (hsign : sign = [] ∨ sign = ['+'] ∨ sign = ['-'])
    (hdigits : ∀ d ∈ digits, d.isDigit = true)
    (hstop : ∀ d ∈ rest.head?, d.isDigit = false ∧ (sign = [] → digits = [] → d ≠ '+' ∧ d ≠ '-')) :
    ScaleBefore rest ('E' :: (sign ++ digits)) (some digits)

/-- Every text splits into digits, a scale factor and the rest. -/
theorem exists_scaleBefore (cs : List Char) : ∃ fraction scale digits rest,
    cs = fraction ++ (scale ++ rest) ∧ (∀ d ∈ fraction, d.isDigit = true) ∧
      ScaleBefore rest scale digits := by
  obtain ⟨fraction, behind, rfl, -, -, hfraction, hstop⟩ := exists_run_append Char.isDigit cs
  -- an exponent begins with an `E`, with or without digits behind it
  by_cases hE : behind.head? = some 'E'
  · obtain ⟨tail, rfl⟩ := List.head?_eq_some_iff.mp hE
    obtain ⟨hsplit, hsign⟩ := takeSign_eq tail
    have hsigned := head?_takeSign tail
    generalize (takeSign tail).1 = sign at hsplit hsign hsigned
    generalize (takeSign tail).2 = more at hsplit hsigned
    subst hsplit
    obtain ⟨digits, rest, rfl, -, -, hdigits, hbehind⟩ := exists_run_append Char.isDigit more
    refine ⟨fraction, _, _, rest, by simp, hfraction, .written hsign hdigits fun d hd => ?_⟩
    exact ⟨hbehind d hd, fun hnil hnone => hsigned hnil d (hnone ▸ hd)⟩
  · refine ⟨fraction, [], none, behind, rfl, hfraction, .absent fun d hd => ⟨hstop d hd, ?_⟩⟩
    rintro rfl
    exact hE hd

theorem ScaleBefore.head? {digits : Option (List Char)} (h : ScaleBefore rest scale digits) :
    ∀ d ∈ scale.head?, d = 'E' := by
  cases h with
  | absent => nofun
  | written =>
    rintro d ⟨⟩
    rfl

/-- Only an exponent without digits makes the text of a real malformed. -/
theorem ScaleBefore.exponent?_eq_none_iff {digits : Option (List Char)}
    (h : ScaleBefore rest scale digits) :
    exponent? scale = none ↔ digits = some [] := by
  cases h with
  | absent => simp [exponent?]
  | @written sign digits hsign hdigits =>
    rw [exponent?_written hsign hdigits]
    by_cases hnil : digits = [] <;> simp [hnil]

theorem ScaleBefore.isScale {digits : Option (List Char)} (h : ScaleBefore rest scale digits)
    (hdigits : digits ≠ some []) :
    ∃ exponent, IsScale scale exponent ∧ ∀ d ∈ rest.head?, d.isDigit = false ∧
      (scale = [] → d ≠ 'E') := by
  cases h with
  | absent hstop => exact ⟨0, .absent, fun d hd => ⟨(hstop d hd).1, fun _ => (hstop d hd).2⟩⟩
  | written hsign hall hstop =>
    have hsome := fun hnil => hdigits (congrArg some hnil)
    exact ⟨_, .written hsign hsome hall, fun d hd => ⟨(hstop d hd).1, nofun⟩⟩

def readText (text rest : List Char) : Reading :=
  match realOfText? text with
  | some value => if value.isFinite then .ok (.real value, rest) else .error (String.ofList text)
  | none => .error (String.ofList text)

theorem isDigit_readFraction (h : ∀ d ∈ fraction, d.isDigit = true) :
    ∀ d ∈ readFraction fraction, d.isDigit = true := by
  unfold readFraction
  split
  · exact List.forall_mem_singleton.mpr rfl
  · exact h

/-- A real is read by its text, in which a missing fraction is written out. -/
theorem read_pointed {digits : Option (List Char)} (hwhole : ∀ d ∈ c :: whole, d.isDigit = true)
    (hfraction : ∀ d ∈ fraction, d.isDigit = true) (hscale : ScaleBefore rest scale digits) :
    read c (whole ++ '.' :: (fraction ++ (scale ++ rest))) =
      readText (c :: (whole ++ '.' :: (readFraction fraction ++ scale))) rest := by
  have htext := realOfText?_eq hwhole (isDigit_readFraction hfraction) hscale.head?
  by_cases hdigits : digits = some []
  · rw [hscale.exponent?_eq_none_iff.mpr hdigits, Option.map_none] at htext
    rw [readText, htext]
    cases hscale with
    | absent => cases hdigits
    | @written sign _ hsign _ hstop =>
      cases hdigits
      rw [List.append_nil]
      exact read_of_refused (.exponent hwhole hfraction hsign fun d hd =>
        ⟨(hstop d hd).1, fun hnil => (hstop d hd).2 hnil rfl⟩)
  · obtain ⟨exponent, hexponent, hstop⟩ := hscale.isScale hdigits
    rw [exponent?_of_isScale hexponent, Option.map_some] at htext
    rw [read_point hwhole, readReal_append _ hfraction hexponent hstop, readText, htext]
    rfl

end Numeral

namespace Scanner

open Numeral

/-! ## Numerals in a text -/

/-- Every token of a scan is at the end of complete ones. -/
theorem leads_of_mem_tokens {cs : List Char} {line last : Nat} {found : List LocatedToken}
    {t : LocatedToken}
    (h : tokens cs line = .ok (found, last)) (hmem : t ∈ found) :
    ∃ front c more rest, cs = front ++ c :: more ∧ Leads (c :: more) front ∧
      t.line = line + front.count '\n' ∧ readToken t.line c more = .ok (t.token, rest) := by
  fun_induction tokens cs line generalizing found last with
  | case1 => cases h
  | case2 =>
    cases h
    cases hmem
  | case3 => cases h
  | case4 => cases h
  | case5 cs line c rest line' hlayout token behind htoken others last' hothers ih =>
    cases h
    obtain ⟨skipped, rfl, hskipped, rfl⟩ := isLayout_of_skipLayout hlayout
    obtain rfl | hlater := List.mem_cons.mp hmem
    · exact ⟨skipped, c, rest, behind, rfl, hskipped.leads, rfl, htoken⟩
    · obtain ⟨text, hstarts⟩ := starts_of_readToken htoken
      -- a later token: the one in front of it is complete
      have hstop := stops_of_readToken htoken hstarts (isBlank_of_skipLayout hlayout).2
      obtain ⟨front, d, more, tail, rfl, hfront, hline, hread⟩ := ih hothers hlater
      refine ⟨skipped ++ (text ++ front), d, more, tail, ?_, ?_, ?_, hread⟩
      · rw [hstarts.chars, List.append_assoc, List.append_assoc]
      · exact hskipped.leads.append (.token hstarts.spelling hstop hfront)
      · rw [hline, List.count_append, List.count_append,
          List.count_eq_zero.mpr hstarts.spelling.newline_not_mem]
        omega

structure TokenStart (source : String) where
  front : List Char
  first : Char
  more : List Char
  chars : source.toList = front ++ first :: more
  leads : Leads (first :: more) front

namespace TokenStart

variable {source : String} (place : TokenStart source) (line : Nat)

def lineFrom : Nat :=
  line + place.front.count '\n'

/-- The scanner reads the token `t` at the place and goes on with `rest`. -/
structure Finds (t : Token) (rest : List Char) : Prop where
  read : readToken (place.lineFrom line) place.first place.more = .ok (t, rest)
  scan : ∃ before, scan source line = (tokens rest (place.lineFrom line)).map fun found =>
    (before ++ ⟨t, place.lineFrom line⟩ :: found.1, found.2)

/-- The scanner stops at the place with a numeral that is refused as `text`. -/
structure Refuses (text : List Char) : Prop where
  read : readToken (place.lineFrom line) place.first place.more =
    .error (.invalidNumber (String.ofList text) (place.lineFrom line))
  scan : scan source line =
    .error ⟨.invalidNumber (String.ofList text) (place.lineFrom line), place.lineFrom line⟩

/-- Every token of a text starts at such a place. -/
theorem exists_of_mem_scan {source : String} {line last : Nat} {found : List LocatedToken}
    {t : LocatedToken}
    (h : Scanner.scan source line = .ok (found, last)) (hmem : t ∈ found) :
    ∃ (place : TokenStart source) (rest : List Char), t.line = place.lineFrom line ∧
      readToken t.line place.first place.more = .ok (t.token, rest) := by
  obtain ⟨front, c, more, rest, hchars, hfront, hline, hread⟩ := leads_of_mem_tokens h hmem
  exact ⟨⟨front, c, more, hchars, hfront⟩, rest, hline, hread⟩

/-- A scan comes to every place where a token starts. -/
theorem exists_scan_eq : ∃ before, scan source line =
    (tokens (place.first :: place.more) (place.lineFrom line)).map fun found =>
      (before ++ found.1, found.2) := by
  obtain ⟨before, hbefore⟩ := tokens_of_leads place.leads line
  exact ⟨before, by rw [Scanner.scan, place.chars, hbefore, lineFrom]⟩

variable {place line} {t : Token} {text rest : List Char}

theorem finds_of_read (hdigit : place.first.isDigit = true)
    (h : Numeral.read place.first place.more = .ok (t, rest)) : place.Finds line t rest := by
  have hread := readToken_numeral hdigit h (place.lineFrom line)
  obtain ⟨text, hstarts⟩ := starts_of_readToken hread
  have hparen := (not_isIdentifierStart_of_isDigit hdigit).2.2
  have hstop := stops_of_readToken hread hstarts fun hfirst => absurd hfirst hparen
  obtain ⟨before, hbefore⟩ := place.exists_scan_eq line
  refine ⟨hread, before, ?_⟩
  rw [hbefore, hstarts.chars, tokens_token hstarts.spelling hstop]
  cases tokens rest (place.lineFrom line) <;> rfl

theorem refuses_of_read (hdigit : place.first.isDigit = true)
    (h : Numeral.read place.first place.more = .error (String.ofList text)) :
    place.Refuses line text := by
  obtain ⟨hstart, hblank, hparen⟩ := not_isIdentifierStart_of_isDigit hdigit
  have hread : readToken (place.lineFrom line) place.first place.more =
      .error (.invalidNumber (String.ofList text) (place.lineFrom line)) := by
    rw [readToken, hstart, hdigit, h]
    rfl
  obtain ⟨before, hbefore⟩ := place.exists_scan_eq line
  refine ⟨hread, ?_⟩
  rw [hbefore, tokens_of_error hblank (fun hfirst => absurd hfirst hparen) hread]
  rfl

/-- The scanner reads an integer of this value at the place and goes on with `rest`, or refuses it
as `text` if it is out of range. -/
structure ReadsInteger (place : TokenStart source) (line value : Nat)
    (text rest : List Char) : Prop where
  inRange : value < 2 ^ 63 → ∃ n : Int64, n.toInt = value ∧ place.Finds line (.integer n) rest
  outOfRange : 2 ^ 63 ≤ value → place.Refuses line text

theorem readsInteger_of_read {value : Nat} (hdigit : place.first.isDigit = true)
    (h : Numeral.read place.first place.more = integer value text rest) :
    place.ReadsInteger line value text rest where
  inRange hlt := by
    have hmax : Int64.maxValue.toInt = 2 ^ 63 - 1 := by decide
    rw [integer, if_pos (by omega)] at h
    exact ⟨_, Int64.toInt_ofNat_of_lt hlt, finds_of_read hdigit h⟩
  outOfRange hle := by
    rw [integer_eq_error_iff.mpr ⟨hle, rfl⟩] at h
    exact refuses_of_read hdigit h

/-- The scanner takes the real that `text` denotes and goes on with `rest`, or refuses the text;
`exponent` holds the digits behind an `E`, if there is one. -/
structure ReadsReal (place : TokenStart source) (line : Nat) (exponent : Option (List Char))
    (text rest : List Char) : Prop where
  /-- The text denotes a real unless its exponent has no digits. -/
  malformed : realOfText? text = none ↔ exponent = some []
  inRange : ∀ value, realOfText? text = some value → value.isFinite = true →
    place.Finds line (.real value) rest
  refused : ∀ other, place.Refuses line other ↔ other = text ∧
    (exponent = some [] ∨ ∃ value, realOfText? text = some value ∧ value.isFinite = false)

/-- A place where a token is found is not refused. -/
theorem Finds.not_refuses (h : place.Finds line t rest) : ¬ place.Refuses line text := by
  intro hrefused
  have hread := h.read
  rw [hrefused.read] at hread
  cases hread

/-- A place is refused with one text only. -/
theorem Refuses.text_unique {other : List Char} (h : place.Refuses line text)
    (h' : place.Refuses line other) :
    other = text := by
  have hread := h.read
  rw [h'.read, Except.error.injEq, LexicalError.invalidNumber.injEq] at hread
  exact String.ofList_injective hread.1

/-- A numeral with a point is a real number, refused without digits in its scale factor. -/
theorem readsReal_of_read {exponent : Option (List Char)} (hdigit : place.first.isDigit = true)
    (hmalformed : realOfText? text = none ↔ exponent = some [])
    (h : Numeral.read place.first place.more = readText text rest) :
    place.ReadsReal line exponent text rest := by
  have hfinds : ∀ value, realOfText? text = some value → value.isFinite = true →
      place.Finds line (.real value) rest := by
    intro value hvalue hfinite
    rw [readText, hvalue] at h
    dsimp only at h
    rw [if_pos hfinite] at h
    exact finds_of_read hdigit h
  have hrefuses : (exponent = some [] ∨ ∃ value, realOfText? text = some value ∧
      value.isFinite = false) →
      place.Refuses line text := by
    rintro (hnil | ⟨value, hvalue, hinfinite⟩)
    · rw [readText, hmalformed.mpr hnil] at h
      exact refuses_of_read hdigit h
    · rw [readText, hvalue] at h
      dsimp only at h
      rw [if_neg (Bool.eq_false_iff.mp hinfinite)] at h
      exact refuses_of_read hdigit h
  refine ⟨hmalformed, hfinds, fun other =>
    ⟨fun hother => ?_, fun hother => hother.1 ▸ hrefuses hother.2⟩⟩
  -- in all other cases a real is found
  have hreason : exponent = some [] ∨ ∃ value, realOfText? text = some value ∧
      value.isFinite = false := by
    cases hvalue : realOfText? text with
    | none => exact .inl (hmalformed.mp hvalue)
    | some value =>
      cases hfinite : value.isFinite with
      | true => exact absurd hother (hfinds value hvalue hfinite).not_refuses
      | false => exact .inr ⟨value, rfl, hfinite⟩
  exact ⟨(hrefuses hreason).text_unique hother, hreason⟩

/-- At every place where a token starts with a digit, let `digits` be all characters `0`-`9` and
`A`-`F` from there on.  With an `H` behind them they are read in base sixteen, without one in base
ten, and an integer is read if its value is in range; letters need the `H`.  With a point behind
decimal digits, the real is that of the digits, the point, the digits that follow, or a zero if
there are none, and the exponent that follows; it is refused exactly if the exponent has no digits
or the real is not finite. -/
theorem numeral_by_place {source : String} (place : TokenStart source) (line : Nat)
    (hdigit : place.first.isDigit = true) :
    let digits := (place.first :: place.more).takeWhile (· ∈ digitChars)
    let behind := (place.first :: place.more).dropWhile (· ∈ digitChars)
    (∀ rest, behind = 'H' :: rest →
      place.ReadsInteger line (positionalValue 16 digits) (digits ++ ['H']) rest) ∧
    (behind.head? ≠ some 'H' → (∃ d ∈ digits, d.isDigit = false) → place.Refuses line digits) ∧
    (behind.head? ≠ some 'H' → behind.head? ≠ some '.' → (∀ d ∈ digits, d.isDigit = true) →
      place.ReadsInteger line (positionalValue 10 digits) digits behind) ∧
    ∀ tail, behind = '.' :: tail → (∀ d ∈ digits, d.isDigit = true) →
      ∃ fraction scale exponent rest, tail = fraction ++ (scale ++ rest) ∧
        (∀ d ∈ fraction, d.isDigit = true) ∧ ScaleBefore rest scale exponent ∧
        place.ReadsReal line exponent (digits ++ '.' :: (readFraction fraction ++ scale)) rest := by
  obtain ⟨hdigits, hbehind⟩ := run_eq hdigit place.more
  have hrun : ∀ d ∈ place.first :: place.more.takeWhile isHexDigit, d ∈ digitChars := by
    rw [← hdigits]
    intro d hd
    exact of_decide_eq_true (List.all_eq_true.mp List.all_takeWhile d hd)
  dsimp only
  rw [hdigits, hbehind]
  -- what follows the run of digits decides between the four cases
  refine ⟨fun rest hH => ?_, fun hH hletter => ?_, fun hH hpoint hdecimal => ?_,
    fun tail hpoint hdecimal => ?_⟩
  · rw [← hexValue_eq hrun]
    exact readsInteger_of_read hdigit (read_of_suffix hH)
  · exact refuses_of_read hdigit (read_of_letter hH hletter)
  · rw [← decimalValue_eq hdecimal]
    exact readsInteger_of_read hdigit (read_of_decimal hH hpoint hdecimal)
  · obtain ⟨fraction, scale, exponent, rest, rfl, hfraction, hscale⟩ := exists_scaleBefore tail
    refine ⟨fraction, scale, exponent, rest, rfl, hfraction, hscale, ?_⟩
    have hread := read_pointed hdecimal hfraction hscale
    rw [← hpoint, List.takeWhile_append_dropWhile] at hread
    refine readsReal_of_read hdigit ?_ hread
    rw [← hscale.exponent?_eq_none_iff, List.cons_append,
      realOfText?_eq hdecimal (isDigit_readFraction hfraction) hscale.head?, Option.map_eq_none_iff]

def greatestInteger : TokenStart "(*\n(*)*)*)7FFFFFFFFFFFFFFFH0" where
  front := "(*\n(*)*)*)".toList
  first := '7'
  more := "FFFFFFFFFFFFFFFH0".toList
  chars := by decide
  leads := isLayout_nested.leads

theorem numeral_by_place_greatestInteger :
    greatestInteger.first.isDigit = true ∧ greatestInteger.lineFrom 4 = 5 ∧
      ∃ n : Int64, n.toInt = 2 ^ 63 - 1 ∧ greatestInteger.Finds 4 (.integer n) ['0'] := by
  have hdigit : greatestInteger.first.isDigit = true := by decide
  obtain ⟨hsuffix, -⟩ := numeral_by_place greatestInteger 4 hdigit
  have hinteger := hsuffix ['0'] (by decide)
  obtain ⟨n, hn, hfinds⟩ := hinteger.inRange (by decide)
  refine ⟨hdigit, by decide, n, ?_, hfinds⟩
  rw [hn]
  decide

end TokenStart

end Scanner

end Oberon
