import Oberon.Proofs.Grammar.Combinations
import Oberon.Proofs.Syntax.Printable
import Oberon.Syntax.Printer

/-!
# Source texts spell derivations

The source text of a printable construct spells tokens from which the construct is derived.  A
text `Writes` tokens if it spells them in front of anything that ends a word or a number, and it
`Opens` with tokens if it spells them in front of anything at all; texts that end in a blank or a
mark do.
-/

namespace Oberon

open Scanner Grammar

/-! ## Texts in front of others -/

def closes (c : Char) : Bool :=
  c = ' ' || c = '\n' || c = ',' || c = ';' || c = ':' || c = '(' || c = ')'

/-- What follows ends a word or a number. -/
def Closed (cs : List Char) : Prop :=
  ∀ c ∈ cs.head?, closes c = true

/-- The text spells the tokens in front of what ends a word or a number. -/
def Writes (text : String) (ts : List Token) : Prop :=
  ∀ cs us, Closed cs → Spells cs us → Spells (text.toList ++ cs) (ts ++ us)

/-- The text spells the tokens in front of anything. -/
def Opens (text : String) (ts : List Token) : Prop :=
  ∀ cs us, Spells cs us → Spells (text.toList ++ cs) (ts ++ us)

theorem closed_cons {c : Char} {cs : List Char} : Closed (c :: cs) ↔ closes c = true := by
  simp [Closed]

/-- Texts that need nothing behind them can be put together. -/
theorem Opens.append {s s' : String} {ts ts' : List Token} (h : Opens s ts) (h' : Opens s' ts') :
    Opens (s ++ s') (ts ++ ts') := by
  intro cs us hus
  rw [String.toList_append, List.append_assoc, List.append_assoc]
  exact h _ _ (h' cs us hus)

theorem Opens.append_writes {s s' : String} {ts ts' : List Token} (h : Opens s ts)
    (h' : Writes s' ts') : Writes (s ++ s') (ts ++ ts') := by
  intro cs us hcs hus
  rw [String.toList_append, List.append_assoc, List.append_assoc]
  exact h _ _ (h' cs us hcs hus)

theorem Opens.writes {s : String} {ts : List Token} (h : Opens s ts) : Writes s ts :=
  fun cs us _ hus => h cs us hus

/-- A text can be put in front of one that closes it. -/
theorem Writes.append_opens {s s' : String} {ts ts' : List Token} (h : Writes s ts)
    (h' : Opens s' ts') (hclosed : ∀ cs, Closed (s'.toList ++ cs)) :
    Opens (s ++ s') (ts ++ ts') := by
  intro cs us hus
  rw [String.toList_append, List.append_assoc, List.append_assoc]
  exact h _ _ (hclosed cs) (h' cs us hus)

/-- Two texts can be put together if the second one closes the first. -/
theorem Writes.append {s s' : String} {ts ts' : List Token} (h : Writes s ts) (h' : Writes s' ts')
    (hclosed : ∀ cs, Closed cs → Closed (s'.toList ++ cs)) : Writes (s ++ s') (ts ++ ts') := by
  intro cs us hcs hus
  rw [String.toList_append, List.append_assoc, List.append_assoc]
  exact h _ _ (hclosed cs hcs) (h' cs us hcs hus)

theorem Opens.of_text {s s' : String} {ts : List Token} (h : Opens s ts) (htext : s = s') :
    Opens s' ts :=
  htext ▸ h

theorem Writes.of_text {s s' : String} {ts : List Token} (h : Writes s ts) (htext : s = s') :
    Writes s' ts :=
  htext ▸ h

/-! Texts that are the same everywhere. -/

theorem opens_empty : Opens "" [] :=
  fun _ _ h => h

theorem opens_blank : Opens " " [] :=
  fun _ _ h => h.blank (by decide)

theorem opens_newline : Opens "\n" [] :=
  fun _ _ h => h.blank (by decide)

theorem opens_margin (width depth : Nat) : Opens (margin width depth) [] := by
  intro cs us h
  rw [margin, String.toList_ofList]
  exact h.blanks

/-- A mark needs nothing behind it, apart from a parenthesis, which could open a comment. -/
theorem opens_mark (mark : Mark) (h : mark ≠ .leftParen) :
    Opens mark.text [.mark mark] := by
  intro cs us hus
  rw [Mark.text, String.toList_singleton]
  exact hus.mark mark fun hmark => absurd hmark h

/-- A reserved word in front of a blank. -/
theorem opens_keyword (keyword : Keyword) : Opens (keyword.text ++ " ") [.keyword keyword] := by
  intro cs us h
  rw [String.toList_append, List.append_assoc]
  refine (opens_blank cs us h).keyword ?_
  rintro d ⟨⟩
  decide

/-- A reserved word at the end of a line. -/
theorem opens_keyword_line (keyword : Keyword) :
    Opens (keyword.text ++ "\n") [.keyword keyword] := by
  intro cs us h
  rw [String.toList_append, List.append_assoc]
  refine (opens_newline cs us h).keyword ?_
  rintro d ⟨⟩
  decide

theorem opens_comma : Opens ", " [.mark .comma] :=
  ((opens_mark .comma nofun).append opens_blank).of_text (by decide)

theorem opens_colon : Opens ": " [.mark .colon] :=
  ((opens_mark .colon nofun).append opens_blank).of_text (by decide)

theorem opens_semicolon : Opens "; " [.mark .semicolon] :=
  ((opens_mark .semicolon nofun).append opens_blank).of_text (by decide)

theorem opens_semicolon_line : Opens ";\n" [.mark .semicolon] :=
  ((opens_mark .semicolon nofun).append opens_newline).of_text (by decide)

theorem opens_equal : Opens " = " [.mark .equal] :=
  ((opens_blank.append (opens_mark .equal nofun)).append opens_blank).of_text (by decide)

theorem isIdentifierPart_of_closes {c : Char} (h : closes c = true) :
    isIdentifierPart c = false := by
  simp only [closes, Bool.or_eq_true, decide_eq_true_eq] at h
  rcases h with (((((rfl | rfl) | rfl) | rfl) | rfl) | rfl) | rfl <;> decide

/-- A closing character goes on no number. -/
theorem isHexDigit_of_closes {c : Char} (h : closes c = true) :
    Numeral.isHexDigit c = false ∧ c.isDigit = false ∧ c ≠ 'H' ∧ c ≠ '.' ∧ c ≠ 'E' := by
  simp only [closes, Bool.or_eq_true, decide_eq_true_eq] at h
  rcases h with (((((rfl | rfl) | rfl) | rfl) | rfl) | rfl) | rfl <;> decide

/-- A keyword is written by its text. -/
theorem writes_keyword (keyword : Keyword) : Writes keyword.text [.keyword keyword] :=
  fun _ _ hcs hus => hus.keyword fun d hd => isIdentifierPart_of_closes (hcs d hd)

/-- An identifier is written by itself. -/
theorem writes_identifier {name : String} (h : IsIdentifier name) :
    Writes name [.identifier name] :=
  fun _ _ hcs hus => hus.identifier h fun d hd => isIdentifierPart_of_closes (hcs d hd)

/-- A text between parentheses, unless a product sign stands behind the opening one. -/
theorem Writes.parenthesized {s : String} {ts : List Token} (h : Writes s ts)
    (hhead : ts.head? ≠ some (.mark .times)) :
    Opens ("(" ++ s ++ ")") (.mark .leftParen :: ts ++ [.mark .rightParen]) := by
  intro cs us hus
  have hclose : Spells (')' :: cs) (.mark .rightParen :: us) :=
    opens_mark .rightParen nofun cs us hus
  have hinner := h _ _ (closed_cons.mpr rfl) hclose
  have hopen : (ts ++ .mark .rightParen :: us).head? ≠ some (.mark .times) := by
    cases ts with
    | nil => simp
    | cons t ts => exact hhead
  have hall : Spells ('(' :: (s.toList ++ ')' :: cs))
      (.mark .leftParen :: (ts ++ .mark .rightParen :: us)) :=
    hinner.mark .leftParen fun _ => hopen
  simpa [String.toList_append] using hall

/-! ## Texts of derivations -/

section Written

variable {α : Type} {rule : Rule α}

/-- The text writes tokens from which `x` is derived. -/
def Written (text : String) (rule : Rule α) (x : α) : Prop :=
  ∃ ts, rule ts x ∧ Writes text ts

def Opened (text : String) (rule : Rule α) (x : α) : Prop :=
  ∃ ts, rule ts x ∧ Opens text ts

/-- Items with a separator between them. -/
theorem written_intercalate {separator : Token} {text : String} {source : α → String}
    (hseparator : Opens text [separator]) (hclosed : ∀ cs, Closed (text.toList ++ cs)) {xs : List α}
    (hsome : xs ≠ []) (h : ∀ x ∈ xs, Written (source x) rule x) :
    Written (text.intercalate (xs.map source)) (Separated separator rule) xs := by
  induction xs with
  | nil => exact absurd rfl hsome
  | cons x xs ih =>
    rw [List.forall_mem_cons] at h
    obtain ⟨ts, hrule, hwrites⟩ := h.1
    cases xs with
    | nil =>
      rw [List.map_singleton, String.intercalate_singleton]
      exact ⟨ts, .one hrule, hwrites⟩
    | cons y ys =>
      obtain ⟨us, hrules, hothers⟩ := ih nofun h.2
      have hall := (hwrites.append_opens hseparator hclosed).append_writes hothers
      rw [List.append_assoc] at hall
      exact ⟨_, .cons hrule hrules, by simpa using hall⟩

/-- Items one after the other, each of which ends what stands before it. -/
theorem written_join {source : α → String} {xs : List α}
    (h : ∀ x ∈ xs, Written (source x) rule x ∧ ∀ cs, Closed ((source x).toList ++ cs)) :
    Written (String.join (xs.map source)) (Repeated rule) xs ∧
      ∀ cs, Closed cs → Closed ((String.join (xs.map source)).toList ++ cs) := by
  induction xs with
  | nil => exact ⟨⟨[], .nil, opens_empty.writes⟩, fun cs hcs => hcs⟩
  | cons x xs ih =>
    rw [List.forall_mem_cons] at h
    obtain ⟨⟨ts, hrule, hwrites⟩, hfirst⟩ := h.1
    obtain ⟨⟨us, hrules, hothers⟩, hclosed⟩ := ih h.2
    rw [List.map_cons, String.join_cons]
    refine ⟨⟨ts ++ us, .cons hrule hrules, hwrites.append hothers hclosed⟩, fun cs _ => ?_⟩
    rw [String.toList_append, List.append_assoc]
    exact hfirst _

/-- Lines one after the other. -/
theorem opened_join {source : α → String} {xs : List α} (h : ∀ x ∈ xs, Opened (source x) rule x) :
    Opened (String.join (xs.map source)) (Repeated rule) xs := by
  induction xs with
  | nil => exact ⟨[], .nil, opens_empty⟩
  | cons x xs ih =>
    rw [List.forall_mem_cons] at h
    obtain ⟨ts, hrule, hopens⟩ := h.1
    obtain ⟨us, hrules, hothers⟩ := ih h.2
    rw [List.map_cons, String.join_cons]
    exact ⟨ts ++ us, .cons hrule hrules, hopens.append hothers⟩

end Written

/-! ## Names and numbers -/

theorem closed_comma (cs : List Char) : Closed (", ".toList ++ cs) :=
  closed_cons.mpr rfl

theorem written_identifier {name : String} (h : IsIdentifier name) : Written name IsName name :=
  ⟨_, .mk name, writes_identifier h⟩

/-- An identifier in front of a mark that goes on no word. -/
theorem Scanner.Spells.identifier_mark {name : String} {cs : List Char} {ts : List Token}
    (h : Spells cs ts) (hname : IsIdentifier name) (mark : Mark)
    (hmark : mark ≠ .leftParen) :
    Spells (name.toList ++ mark.char :: cs) (.identifier name :: .mark mark :: ts) := by
  refine (h.mark mark fun hparen => absurd hparen hmark).identifier hname ?_
  rintro d ⟨⟩
  cases mark <;> decide

theorem IdentDef.written {d : IdentDef} (h : IsIdentifier d.name) :
    Written d.source IsIdentDef d := by
  obtain ⟨name, exported⟩ := d
  cases exported with
  | false => exact ⟨_, .hidden name, writes_identifier h⟩
  | true =>
    refine ⟨_, .exported name, fun cs us _ hus => ?_⟩
    have hstar : Spells (name.toList ++ '*' :: cs) (.identifier name :: .mark .times :: us) :=
      hus.identifier_mark h .times nofun
    simpa [IdentDef.source, String.toList_append] using hstar

/-- A qualified name is written with its point. -/
theorem Qualident.written {q : Qualident} (h : (Node.qualident q).Printable) :
    Written q.text IsQualident q := by
  obtain ⟨qualifier, name⟩ := q
  obtain ⟨hname, hqualifier⟩ := h
  cases qualifier with
  | none => exact ⟨_, .plain name, writes_identifier hname⟩
  | some qualifier =>
    refine ⟨_, .qualified qualifier name, fun cs us hcs hus => ?_⟩
    have hrest := writes_identifier hname cs us hcs hus
    have hall : Spells (qualifier.toList ++ '.' :: (name.toList ++ cs)) _ :=
      hrest.identifier_mark (hqualifier qualifier rfl) .dot nofun
    simpa [Qualident.text, String.toList_append] using hall

theorem written_identifiers {n : Nat} {names : List String}
    (h : (identifierListTree names).Within Node.Printable Node.nests n) :
    Written (", ".intercalate names) (Separated (.mark .comma) IsName) names := by
  rw [within_identifierListTree] at h
  have hnames : ∀ name ∈ names, Written (id name) IsName name := fun name hname =>
    written_identifier (h.2 name hname)
  have hlist := written_intercalate opens_comma closed_comma h.1 hnames
  rwa [List.map_id] at hlist

/-- Names with marks are written with commas between them. -/
theorem written_identDefs {n : Nat} {names : List IdentDef}
    (h : (identDefListTree names).Within Node.Printable Node.nests n) :
    Written (identDefListSource names) (Separated (.mark .comma) IsIdentDef) names := by
  rw [within_identDefListTree] at h
  exact written_intercalate opens_comma closed_comma h.1 fun d hd => IdentDef.written (h.2 d hd)

/-- An integer is written in decimal. -/
theorem writes_integer {value : Int64} (h : 0 ≤ value.toInt) :
    Writes (Number.source (.integer value)) [.integer value] := by
  intro cs us hcs hus
  obtain ⟨n, hn⟩ := Int.eq_ofNat_of_zero_le h
  have hvalue : Int64.ofNat n = value := by
    rw [← Int64.ofInt_eq_ofNat, ← hn, Int64.ofInt_toInt]
  have htext : (Number.source (.integer value)).toList = Nat.toDigits 10 n := by
    rw [Number.source, hn]
    exact Nat.toList_repr
  have hdigits : ∀ d ∈ Nat.toDigits 10 n, d.isDigit = true := fun d hd =>
    Nat.isDigit_of_mem_toDigits (by decide) (by decide) hd
  have hback : Numeral.decimalValue (Nat.toDigits 10 n) = n := Nat.ofDigitChars_ten_toDigits
  rw [htext]
  cases hlist : Nat.toDigits 10 n with
  | nil => exact absurd hlist Nat.toDigits_ne_nil
  | cons c digits =>
    rw [hlist] at hdigits hback
    have hle : (Numeral.decimalValue (c :: digits) : Int) ≤ Int64.maxValue.toInt := by
      rw [hback, ← hn]
      exact value.toInt_le
    -- what closes a numeral is neither a digit nor a mark of another notation
    have hstop : ∀ d ∈ cs.head?, Numeral.isHexDigit d = false ∧ d ≠ 'H' ∧ d ≠ '.' := fun d hd =>
      have hclass := isHexDigit_of_closes (hcs d hd)
      ⟨hclass.1, hclass.2.2.1, hclass.2.2.2.1⟩
    have hread := Numeral.read_integer hdigits hle hstop
    rw [hback, hvalue] at hread
    exact hus.numeral (hdigits c List.mem_cons_self) hread

/-- A real number is written with a point, and read back as itself. -/
theorem writes_real {value : Float} (h : Real.IsPlain value) :
    Writes (Number.source (.real value)) [.real value] := by
  intro cs us hcs hus
  obtain ⟨whole, fraction, htext, hwhole, hfraction, hwholeDigits, hfractionDigits, hvalue⟩ :=
    Real.spells_literal h
  cases whole with
  | nil => exact absurd rfl hwhole
  | cons c digits =>
    have hstop : ∀ d ∈ cs.head?, d.isDigit = false ∧ d ≠ 'E' := fun d hd =>
      have hclass := isHexDigit_of_closes (hcs d hd)
      ⟨hclass.2.1, hclass.2.2.2.2⟩
    have hfinite : (Decimal.ofDigits (c :: digits) fraction 0).toFloat.isFinite = true := by
      rw [hvalue]
      exact h.1
    have hread := Numeral.read_real hwholeDigits hfractionDigits hfraction hfinite hstop
    rw [hvalue] at hread
    have hsource : (Number.source (.real value)).toList ++ cs =
        c :: ((digits ++ '.' :: fraction) ++ cs) := by
      rw [Number.source, htext, List.cons_append, List.cons_append]
    have hread' : Numeral.read c ((digits ++ '.' :: fraction) ++ cs) = .ok (.real value, cs) := by
      rw [List.append_assoc, List.cons_append]
      exact hread
    rw [hsource]
    exact hus.numeral (hwholeDigits c List.mem_cons_self) hread'

/-- A string is written between quotes. -/
theorem opens_string {content : String} (h : (Node.string content).Printable) :
    Opens (stringSource content) [.string content] := by
  intro cs us hus
  have hcontent : ∀ c ∈ content.toList, isStringChar c = true := by
    intro c hc
    obtain ⟨hquote, hline⟩ := h c hc
    simp [isStringChar, hquote, hline]
  simpa [stringSource, String.toList_append] using hus.string hcontent

end Oberon
