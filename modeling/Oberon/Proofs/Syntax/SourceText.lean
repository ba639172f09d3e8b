import Oberon.Proofs.Grammar.First
import Oberon.Proofs.Syntax.Written

/-!
# The source text of a module is derived

Printable constructs of every kind, from factors up to modules: the text of each spells tokens
from which it is derived, at every indentation.  Expressions, types and procedures are done by
induction on the bound of their nesting, one lemma for each construct in between.
-/

namespace Oberon

open Scanner Grammar

/-! ## Expressions -/

theorem FactorOperation.sources_eq_join (operations : List FactorOperation) :
    FactorOperation.sources operations = String.join (operations.map FactorOperation.source) := by
  induction operations with
  | nil => rfl
  | cons operation operations ih =>
    rw [FactorOperation.sources, ih, List.map_cons, String.join_cons]

theorem TermOperation.sources_eq_join (operations : List TermOperation) :
    TermOperation.sources operations = String.join (operations.map TermOperation.source) := by
  induction operations with
  | nil => rfl
  | cons operation operations ih => rw [TermOperation.sources, ih, List.map_cons, String.join_cons]

theorem MulOperator.opens (operator : MulOperator) :
    Opens (" " ++ operator.text ++ " ") [operator.token] := by
  cases operator with
  | times =>
    exact ((opens_blank.append (opens_mark .times nofun)).append opens_blank).of_text (by decide)
  | divide =>
    exact ((opens_blank.append (opens_mark .slash nofun)).append opens_blank).of_text (by decide)
  | div => exact (opens_blank.append (opens_keyword .DIV)).of_text (by decide)
  | mod => exact (opens_blank.append (opens_keyword .MOD)).of_text (by decide)
  | and =>
    exact ((opens_blank.append (opens_mark .ampersand nofun)).append opens_blank).of_text
      (by decide)

theorem AddOperator.opens (operator : AddOperator) :
    Opens (" " ++ operator.text ++ " ") [operator.token] := by
  cases operator with
  | plus =>
    exact ((opens_blank.append (opens_mark .plus nofun)).append opens_blank).of_text (by decide)
  | minus =>
    exact ((opens_blank.append (opens_mark .minus nofun)).append opens_blank).of_text (by decide)
  | or => exact (opens_blank.append (opens_keyword .OR)).of_text (by decide)

/-- A sign is written without a blank and needs none. -/
theorem opened_sign (sign : Option Sign) : Opened (signSource sign) (Optional IsSign) sign := by
  cases sign with
  | none => exact ⟨[], .none, opens_empty⟩
  | some sign =>
    refine ⟨_, .some (.mk sign), ?_⟩
    cases sign with
    | plus => exact (opens_mark .plus nofun).of_text (by decide)
    | minus => exact (opens_mark .minus nofun).of_text (by decide)

/-- Every operation has a blank in front of it, which ends what stands before. -/
theorem closed_blank {text : String} (cs : List Char) : Closed ((" " ++ text).toList ++ cs) := by
  rw [String.toList_append]
  exact closed_cons.mpr rfl

/-- An operation is written with blanks around its operator; the first one ends what is in
front. -/
theorem written_operation {α β ω : Type} {operator? : Token → Option ω} {combine : ω → α → β}
    {rule : Rule α} {text source : String} {t : Token} {operator : ω} {x : α}
    (ht : operator? t = some operator) (hopens : Opens (" " ++ text ++ " ") [t])
    (h : Written source rule x) :
    Written (" " ++ text ++ " " ++ source) (Grammar.Operation operator? rule combine)
        (combine operator x) ∧
      ∀ cs, Closed ((" " ++ text ++ " " ++ source).toList ++ cs) := by
  obtain ⟨ts, hrule, hwrites⟩ := h
  refine ⟨⟨_, .mk ht hrule, hopens.append_writes hwrites⟩, ?_⟩
  rw [String.append_assoc, String.append_assoc]
  exact closed_blank

section Expressions

variable {n : Nat}
  (hexpression : ∀ e : Expression, e.tree.Within Node.Printable Node.nests n →
    Written e.source IsExpression e)

include hexpression

/-- Every printable factor is written so that it can be read. -/
theorem Factor.written {f : Factor} (h : f.tree.Within Node.Printable Node.nests n) :
    Written f.source (IsFactor IsExpression) f := by
  have hparts := (Factor.within_tree.mp h).2
  cases f with
  | number literal =>
    have hvalue := (Number.within_tree.mp hparts).2
    cases literal with
    | integer value =>
      rw [Factor.source]
      exact ⟨_, .integer value, writes_integer hvalue⟩
    | real value =>
      rw [Factor.source]
      exact ⟨_, .real value, writes_real hvalue⟩
  | string content =>
    rw [Factor.source]
    exact ⟨_, .string content, (opens_string hparts).writes⟩
  | name q =>
    obtain ⟨ts, hrule, hwrites⟩ := Qualident.written hparts
    rw [Factor.source]
    exact ⟨ts, .name hrule, hwrites⟩
  | parenthesized e =>
    obtain ⟨ts, hrule, hwrites⟩ := hexpression e hparts
    -- an expression starts with a sign or a factor, so `(` opens no comment
    have hhead : ts.head? ≠ some (.mark .times) := by
      obtain ⟨t, us, rfl, ht⟩ := starts_isExpression hrule
      rintro ⟨⟩
      cases ht
    rw [Factor.source]
    exact ⟨_, .parenthesized hrule, (hwrites.parenthesized hhead).writes⟩

/-- Every printable term is written so that it can be read. -/
theorem Term.written {t : Term} (h : t.tree.Within Node.Printable Node.nests n) :
    Written t.source (IsTerm IsExpression) t := by
  obtain ⟨-, hfirst, hoperations⟩ := Term.within_tree.mp h
  obtain ⟨first, operations⟩ := t
  have hoperation : ∀ operation ∈ operations,
      Written operation.source (IsFactorOperation (IsFactor IsExpression)) operation ∧
        ∀ cs, Closed (operation.source.toList ++ cs) := by
    rintro ⟨operator, right⟩ hmem
    rw [FactorOperation.source, isFactorOperation_eq_operation]
    exact written_operation (Parser.mulOperator?_eq_some.mpr rfl) operator.opens
      (Factor.written hexpression (hoperations _ hmem).2)
  obtain ⟨ts, hrule, hwrites⟩ := Factor.written hexpression hfirst
  obtain ⟨⟨us, hrules, hothers⟩, hclosed⟩ := written_join hoperation
  rw [Term.source, FactorOperation.sources_eq_join]
  exact ⟨_, .mk hrule hrules, hwrites.append hothers hclosed⟩

theorem Expression.written_simple {e : Expression}
    (h : e.simpleTree.Within Node.Printable Node.nests n) :
    Written e.source (IsSimpleExpression IsExpression) e := by
  obtain ⟨-, -, -, hfirst, hoperations⟩ := Expression.within_simpleTree.mp h
  obtain ⟨sign, first, operations⟩ := e
  have hoperation : ∀ operation ∈ operations,
      Written operation.source (IsTermOperation (IsTerm IsExpression)) operation ∧
        ∀ cs, Closed (operation.source.toList ++ cs) := by
    rintro ⟨operator, right⟩ hmem
    rw [TermOperation.source, isTermOperation_eq_operation]
    exact written_operation (Parser.addOperator?_eq_some.mpr rfl) operator.opens
      (Term.written hexpression (hoperations _ hmem).2.2)
  obtain ⟨ss, hsign, hopens⟩ := opened_sign sign
  obtain ⟨ts, hrule, hwrites⟩ := Term.written hexpression hfirst
  obtain ⟨⟨us, hrules, hothers⟩, hclosed⟩ := written_join hoperation
  rw [Expression.source, TermOperation.sources_eq_join]
  exact ⟨_, .mk hsign hrule hrules, (hopens.append_writes hwrites).append hothers hclosed⟩

end Expressions

/-- Every printable expression is written so that it can be read. -/
theorem Expression.written {n : Nat} (e : Expression)
    (h : e.tree.Within Node.Printable Node.nests n) : Written e.source IsExpression e := by
  induction n generalizing e with
  | zero => exact absurd h (Tree.not_within_zero rfl)
  | succ n ih =>
    obtain ⟨ts, hrule, hwrites⟩ := Expression.written_simple ih (Expression.within_tree.mp h).2
    exact ⟨ts, .mk hrule, hwrites⟩

theorem written_constant {n : Nat} {e : Expression}
    (h : (constExpressionTree e).Within Node.Printable Node.nests n) :
    Written e.source IsExpression e :=
  e.written (within_constExpressionTree.mp h).2

/-! ## Parameters -/

theorem opens_arrayOf : Opens "ARRAY OF " [.keyword .ARRAY, .keyword .OF] :=
  ((opens_keyword .ARRAY).append (opens_keyword .OF)).of_text (by decide)

/-- A formal type is written with the words of its dimensions. -/
theorem FormalType.written {t : FormalType} (h : (Node.qualident t.name).Printable) :
    Written t.source IsFormalType t := by
  obtain ⟨openArrays, name⟩ := t
  induction openArrays with
  | zero =>
    obtain ⟨ts, hrule, hwrites⟩ := Qualident.written h
    refine ⟨ts, .name hrule, ?_⟩
    rw [FormalType.source, List.replicate_zero]
    exact opens_empty.append_writes hwrites
  | succ openArrays ih =>
    obtain ⟨ts, hrule, hwrites⟩ := ih h
    refine ⟨_, .openArray hrule, ?_⟩
    rw [FormalType.source, List.replicate_succ, String.join_cons, String.append_assoc]
    exact opens_arrayOf.append_writes hwrites

theorem closed_colon (cs : List Char) : Closed (": ".toList ++ cs) :=
  closed_cons.mpr rfl

theorem ParameterSection.written {n : Nat} {s : ParameterSection}
    (h : s.tree.Within Node.Printable Node.nests n) : Written s.source IsParameterSection s := by
  obtain ⟨byReference, names, type⟩ := s
  obtain ⟨-, hnames, htype⟩ := ParameterSection.within_tree.mp h
  obtain ⟨ns, hnamesRule, hnamesWrites⟩ := written_identifiers hnames
  obtain ⟨ts, htypeRule, htypeWrites⟩ := FormalType.written (FormalType.within_tree.mp htype).2
  cases byReference with
  | false =>
    have hall := ((opens_empty.append_writes hnamesWrites).append_opens opens_colon closed_colon)
      |>.append_writes htypeWrites
    refine ⟨_, .byValue hnamesRule htypeRule, ?_⟩
    simpa [ParameterSection.source] using hall
  | true =>
    have hvar : Opens "VAR " [.keyword .VAR] := (opens_keyword .VAR).of_text (by decide)
    have hall := ((hvar.append_writes hnamesWrites).append_opens opens_colon closed_colon)
      |>.append_writes htypeWrites
    refine ⟨_, .byReference hnamesRule htypeRule, ?_⟩
    simpa [ParameterSection.source] using hall

theorem written_parameterSections {n : Nat} {sections : List ParameterSection}
    (h : ∀ s ∈ sections, s.tree.Within Node.Printable Node.nests n) :
    Written (parameterSectionListSource sections) IsParameterSections sections := by
  by_cases hnone : sections = []
  · rw [hnone]
    exact ⟨[], .none, opens_empty.writes⟩
  · have hclosed : ∀ cs, Closed ("; ".toList ++ cs) := fun cs => closed_cons.mpr rfl
    obtain ⟨ts, hrule, hwrites⟩ :=
      written_intercalate opens_semicolon hclosed hnone fun s hs =>
        ParameterSection.written (h s hs)
    exact ⟨ts, .some hrule, hwrites⟩

def resultTypeSource : Option Qualident → String
  | none => ""
  | some q => ": " ++ q.text

theorem FormalParameters.source_eq (p : FormalParameters) : p.source =
    "(" ++ parameterSectionListSource p.sections ++ ")" ++ resultTypeSource p.result := by
  obtain ⟨sections, result⟩ := p
  cases result <;> rfl

theorem written_resultType {result : Option Qualident}
    (h : ∀ q ∈ result, (Node.qualident q).Printable) :
    Written (resultTypeSource result) (Optional (Behind (.mark .colon) IsQualident)) result := by
  cases result with
  | none => exact ⟨[], .none, opens_empty.writes⟩
  | some q =>
    obtain ⟨ts, hrule, hwrites⟩ := Qualident.written (h q rfl)
    exact ⟨_, .some (.mk hrule), opens_colon.append_writes hwrites⟩

/-- Printable parameters are written so that they can be read. -/
theorem FormalParameters.written {n : Nat} {p : FormalParameters}
    (h : p.tree.Within Node.Printable Node.nests n) : Written p.source IsFormalParameters p := by
  obtain ⟨-, -, hsections, hresult⟩ := FormalParameters.within_tree.mp h
  obtain ⟨sections, result⟩ := p
  obtain ⟨ss, hsectionsRule, hsectionsWrites⟩ := written_parameterSections hsections
  obtain ⟨rs, hresultRule, hresultWrites⟩ := written_resultType hresult
  have hhead : ss.head? ≠ some (.mark .times) := by
    cases hsectionsRule with
    | none => simp
    | some hrules =>
      obtain ⟨t, us, rfl, ht⟩ := starts_separated starts_isParameterSection hrules
      rintro ⟨⟩
      cases ht
  have hall := (hsectionsWrites.parenthesized hhead).append_writes hresultWrites
  rw [List.append_assoc] at hall
  rw [FormalParameters.source_eq]
  exact ⟨_, .mk hsectionsRule hresultRule, hall⟩

theorem written_parameters {n : Nat} {p : Option FormalParameters}
    (h : ∀ formal ∈ p, formal.tree.Within Node.Printable Node.nests n) :
    Written (parametersSource p) (Optional IsFormalParameters) p ∧
      ∀ cs, Closed cs → Closed ((parametersSource p).toList ++ cs) := by
  cases p with
  | none => exact ⟨⟨[], .none, opens_empty.writes⟩, fun cs hcs => hcs⟩
  | some formal =>
    obtain ⟨ts, hrule, hwrites⟩ := FormalParameters.written (h formal rfl)
    refine ⟨⟨ts, .some hrule, hwrites⟩, fun cs _ => ?_⟩
    rw [parametersSource, FormalParameters.source]
    simp only [String.toList_append, List.append_assoc]
    exact closed_cons.mpr rfl

/-! ## Types -/

theorem opens_of : Opens " OF " [.keyword .OF] :=
  (opens_blank.append (opens_keyword .OF)).of_text (by decide)

theorem opens_pointerTo : Opens "POINTER TO " [.keyword .POINTER, .keyword .TO] :=
  ((opens_keyword .POINTER).append (opens_keyword .TO)).of_text (by decide)

theorem written_lengths {n : Nat} {lengths : List Expression}
    (h : (lengthListTree lengths).Within Node.Printable Node.nests n) :
    Written (lengthListSource lengths) (Separated (.mark .comma) IsExpression) lengths := by
  rw [within_lengthListTree] at h
  exact written_intercalate opens_comma closed_comma h.1 fun e he => written_constant (h.2 e he).2

def baseSource : Option Qualident → String
  | none => ""
  | some q => " " ++ baseTypeSource q

def fieldsSource (width depth : Nat) : List FieldList → String
  | [] => " END"
  | fields => "\n" ++ FieldList.lines width (depth + 1) fields ++ margin width depth ++ "END"

theorem TypeExpr.source_record (width depth : Nat) (base : Option Qualident)
    (fields : List FieldList) : (TypeExpr.record base fields).source width depth =
      "RECORD" ++ (baseSource base ++ fieldsSource width depth fields) := by
  rw [← String.append_assoc]
  cases base <;> cases fields <;> rw [TypeExpr.source] <;> rfl

/-- The keyword of a record type has a blank or the end of the line behind it. -/
theorem closed_record (width depth : Nat) (base : Option Qualident) (fields : List FieldList)
    (cs : List Char) :
    Closed ((baseSource base ++ fieldsSource width depth fields).toList ++ cs) := by
  cases base <;> cases fields <;>
    simp only [baseSource, fieldsSource, String.toList_append, List.append_assoc] <;>
    exact closed_cons.mpr rfl

theorem opened_base {base : Option Qualident} (h : ∀ q ∈ base, (Node.qualident q).Printable) :
    Opened (baseSource base) (Optional IsBaseType) base := by
  cases base with
  | none => exact ⟨[], .none, opens_empty⟩
  | some q =>
    obtain ⟨ts, hrule, hwrites⟩ := Qualident.written (h q rfl)
    have hhead : ts.head? ≠ some (.mark .times) := by
      obtain ⟨t, us, rfl, ht⟩ := starts_isQualident hrule
      rintro ⟨⟩
      cases ht
    exact ⟨_, .some (.mk hrule), opens_blank.append (hwrites.parenthesized hhead)⟩

/-- Two texts with a mark between them are written as joined items. -/
theorem written_joined {α β γ : Type} {left between right : String} {isLeft : Rule α}
    {isRight : Rule β}
    {t : Token} {x : α} {y : β} {combine : α → β → γ} (hleft : Written left isLeft x)
    (hright : Written right isRight y) (hopens : Opens between [t])
    (hclosed : ∀ cs, Closed (between.toList ++ cs)) :
    Written (left ++ between ++ right) (Joined isLeft t isRight combine) (combine x y) := by
  obtain ⟨ts, hxRule, hxWrites⟩ := hleft
  obtain ⟨us, hyRule, hyWrites⟩ := hright
  have hall := (hxWrites.append_opens hopens hclosed).append_writes hyWrites
  rw [List.append_assoc] at hall
  exact ⟨_, .mk hxRule hyRule, hall⟩

section Types

variable {n : Nat}
  (htype : ∀ (t : TypeExpr) (width depth : Nat), t.tree.Within Node.Printable Node.nests n →
    Written (t.source width depth) IsType t)

include htype

theorem FieldList.written {fields : FieldList} (width depth : Nat)
    (h : fields.tree.Within Node.Printable Node.nests n) :
    Written (fields.source width depth) (IsFieldList IsType) fields := by
  obtain ⟨-, hnames, htypeTree⟩ := FieldList.within_tree.mp h
  obtain ⟨names, type⟩ := fields
  rw [isFieldList_eq_joined, FieldList.source]
  exact written_joined (written_identDefs hnames)
    (htype type width depth htypeTree) opens_colon closed_colon

/-- Every field list is there: empty ones are not written. -/
theorem FieldList.opened_lines {fields : List FieldList} (width depth : Nat) (hsome : fields ≠ [])
    (h : ∀ field ∈ fields, field.tree.Within Node.Printable Node.nests n) :
    Opened (FieldList.lines width depth fields)
      (Separated (.mark .semicolon) (Optional (IsFieldList IsType))) (fields.map some) := by
  induction fields with
  | nil => exact absurd rfl hsome
  | cons field others ih =>
    rw [List.forall_mem_cons] at h
    obtain ⟨ts, hrule, hwrites⟩ := FieldList.written htype width depth h.1
    have hfirst := (opens_margin width depth).append_writes hwrites
    rw [FieldList.lines]
    -- only the last line has no semicolon
    cases others with
    | nil =>
      have hline := hfirst.append_opens opens_newline fun cs => closed_cons.mpr rfl
      rw [List.append_nil] at hline
      refine ⟨_, .one (.some hrule), ?_⟩
      simpa [FieldList.lines] using hline
    | cons field' others =>
      obtain ⟨us, hrules, hothers⟩ := ih (by simp) h.2
      have hline :=
        (hfirst.append_opens opens_semicolon_line fun cs => closed_cons.mpr rfl).append hothers
      have hbreak (s : String) : s ++ ";" ++ "\n" = s ++ ";\n" := by
        rw [String.append_assoc, show ";" ++ "\n" = ";\n" by decide]
      rw [List.isEmpty_cons, if_neg Bool.false_ne_true, hbreak]
      refine ⟨_, .cons (.some hrule) hrules, ?_⟩
      simpa using hline

/-- The fields of a record are written up to its `END`. -/
theorem writes_fields {fields : List FieldList} (width depth : Nat)
    (h : ∀ field ∈ fields, field.tree.Within Node.Printable Node.nests n) :
    ∃ ts, IsFieldLists IsType ts fields ∧
      Writes (fieldsSource width depth fields) (ts ++ [.keyword .END]) := by
  cases hfields : fields with
  | nil =>
    rw [fieldsSource]
    exact ⟨[], .single .none, (opens_blank.append_writes (writes_keyword .END)).of_text (by decide)⟩
  | cons field others =>
    rw [← hfields]
    have hsome : fields ≠ [] := by simp [hfields]
    obtain ⟨ts, hrules, hlines⟩ := FieldList.opened_lines htype width (depth + 1) hsome h
    have hall := ((opens_newline.append hlines).append (opens_margin width depth)).append_writes
      (writes_keyword .END)
    rw [List.append_nil] at hall
    -- none of the field lists is missing, so they are what the rule collects
    have hlists := IsFieldLists.mk hrules
    rw [List.filterMap_map, Function.id_comp, List.filterMap_some] at hlists
    refine ⟨ts, hlists, ?_⟩
    rw [fieldsSource]
    · exact hall
    · exact hsome

theorem TypeExpr.written_form {t : TypeExpr} (width depth : Nat)
    (h : t.formTree.Within Node.Printable Node.nests n) :
    Written (t.source width depth) (IsTypeForm IsFormalParameters IsExpression IsType) t := by
  have hparts := (TypeExpr.within_formTree.mp h).2
  cases t with
  | named q =>
    obtain ⟨ts, hrule, hwrites⟩ := Qualident.written hparts
    rw [TypeExpr.source]
    exact ⟨ts, .named hrule, hwrites⟩
  | array lengths element =>
    obtain ⟨ls, hlengthsRule, hlengths⟩ := written_lengths hparts.1
    obtain ⟨ts, helementRule, helement⟩ := htype element width depth hparts.2
    have harray : Opens "ARRAY " [.keyword .ARRAY] := (opens_keyword .ARRAY).of_text (by decide)
    have hall := ((harray.append_writes hlengths).append_opens opens_of
      fun cs => closed_cons.mpr rfl).append_writes helement
    rw [List.append_assoc] at hall
    rw [TypeExpr.source]
    exact ⟨_, .array hlengthsRule helementRule, hall⟩
  | record base fields =>
    obtain ⟨bs, hbaseRule, hbase⟩ := opened_base fun q hq => (hparts.1 q hq).2
    obtain ⟨fs, hfieldsRule, hfields⟩ := writes_fields htype width depth hparts.2.2
    -- what follows RECORD closes the word, be it a base type or a line
    have hall := (writes_keyword .RECORD).append (hbase.append_writes hfields) fun cs _ =>
      closed_record width depth base fields cs
    rw [← List.append_assoc, ← List.append_assoc] at hall
    rw [TypeExpr.source_record]
    exact ⟨_, .record hbaseRule hfieldsRule, hall⟩
  | pointer target =>
    obtain ⟨ts, hrule, hwrites⟩ := htype target width depth hparts
    rw [TypeExpr.source]
    exact ⟨_, .pointer hrule, opens_pointerTo.append_writes hwrites⟩
  | procedure formal =>
    obtain ⟨⟨ps, hrule, hwrites⟩, hclosed⟩ := written_parameters hparts
    rw [TypeExpr.source]
    exact ⟨_, .procedure hrule, (writes_keyword .PROCEDURE).append hwrites hclosed⟩

end Types

/-- Every printable type is written so that it can be read, whatever its margin is. -/
theorem TypeExpr.written {n : Nat} (t : TypeExpr) (width depth : Nat)
    (h : t.tree.Within Node.Printable Node.nests n) : Written (t.source width depth) IsType t := by
  induction n generalizing t width depth with
  | zero => exact absurd h (Tree.not_within_zero rfl)
  | succ n ih =>
    obtain ⟨ts, hrule, hwrites⟩ :=
      TypeExpr.written_form ih width depth (TypeExpr.within_tree.mp h).2
    exact ⟨ts, .mk hrule, hwrites⟩

/-! ## Declarations -/

theorem closed_equal (cs : List Char) : Closed (" = ".toList ++ cs) :=
  closed_cons.mpr rfl

theorem closed_semicolon_line (cs : List Char) : Closed (";\n".toList ++ cs) :=
  closed_cons.mpr rfl

/-- The lines of a declaration, in front of anything. -/
theorem opened_declaration {α β γ : Type} {left between right : String} {isLeft : Rule α}
    {isRight : Rule β} {t : Token} {x : α} {y : β} {combine : α → β → γ} (width depth : Nat)
    (hleft : Written left isLeft x) (hright : Written right isRight y) (hopens : Opens between [t])
    (hclosed : ∀ cs, Closed (between.toList ++ cs)) :
    Opened (margin width depth ++ left ++ between ++ right ++ ";\n")
      (Terminated (Joined isLeft t isRight combine)) (combine x y) := by
  obtain ⟨ts, hrule, hwrites⟩ := written_joined hleft hright hopens hclosed
  have hall := ((opens_margin width depth).append_writes hwrites).append_opens opens_semicolon_line
    closed_semicolon_line
  refine ⟨_, .mk hrule, hall.of_text ?_⟩
  simp only [String.append_assoc]

/-- A constant is written on a line of its own, with a semicolon at the end. -/
theorem ConstDeclaration.opened {n : Nat} {d : ConstDeclaration} (width depth : Nat)
    (h : d.tree.Within Node.Printable Node.nests n) :
    Opened (d.source width depth) (Terminated (IsConstDeclaration IsExpression)) d := by
  obtain ⟨-, hname, hvalue⟩ := ConstDeclaration.within_tree.mp h
  obtain ⟨name, value⟩ := d
  rw [isConstDeclaration_eq_joined, ConstDeclaration.source]
  exact opened_declaration width depth (IdentDef.written hname)
    (written_constant hvalue) opens_equal
    closed_equal

theorem TypeDeclaration.opened {n : Nat} {d : TypeDeclaration} (width depth : Nat)
    (h : d.tree.Within Node.Printable Node.nests n) :
    Opened (d.source width depth) (Terminated (IsTypeDeclaration IsType)) d := by
  obtain ⟨-, hname, htype⟩ := TypeDeclaration.within_tree.mp h
  obtain ⟨name, type⟩ := d
  rw [isTypeDeclaration_eq_joined, TypeDeclaration.source]
  exact opened_declaration width depth (IdentDef.written hname)
    (type.written width depth htype) opens_equal
    closed_equal

theorem VariableDeclaration.opened {n : Nat} {d : VariableDeclaration} (width depth : Nat)
    (h : d.tree.Within Node.Printable Node.nests n) :
    Opened (d.source width depth) (Terminated (IsVariableDeclaration IsType)) d := by
  obtain ⟨-, hnames, htype⟩ := VariableDeclaration.within_tree.mp h
  obtain ⟨names, type⟩ := d
  rw [isVariableDeclaration_eq_joined, VariableDeclaration.source]
  exact opened_declaration width depth (written_identDefs hnames)
    (type.written width depth htype) opens_colon
    closed_colon

/-- A section without declarations is not written, and that is derived as well. -/
theorem opened_section {α : Type} {rule : Rule α} {line : Nat → Nat → α → String}
    (heading : Keyword)
    (width depth : Nat) {ds : List α}
    (h : ∀ d ∈ ds, Opened (line width (depth + 1) d) (Terminated rule) d) :
    Opened (sectionSource heading.text line width depth ds) (IsSection heading rule) ds := by
  unfold sectionSource
  by_cases hnone : ds = []
  · rw [hnone, List.isEmpty_nil, if_pos rfl]
    exact ⟨[], .absent, opens_empty⟩
  · rw [List.isEmpty_eq_false_iff.mpr hnone, if_neg Bool.false_ne_true]
    obtain ⟨ts, hrules, hlines⟩ := opened_join h
    have hall := ((opens_margin width depth).append (opens_keyword_line heading)).append hlines
    rw [← String.append_assoc] at hall
    exact ⟨_, .present hrules, hall⟩

/-- A printable heading is written so that it can be read. -/
theorem ProcedureHeading.written {n : Nat} {heading : ProcedureHeading}
    (h : heading.tree.Within Node.Printable Node.nests n) :
    Written heading.source (IsProcedureHeading IsFormalParameters) heading := by
  obtain ⟨-, hname, hparameters⟩ := ProcedureHeading.within_tree.mp h
  obtain ⟨ns, hnameRule, hnameWrites⟩ := IdentDef.written hname
  obtain ⟨⟨ps, hrule, hwrites⟩, hclosed⟩ := written_parameters hparameters
  have hprocedure : Opens "PROCEDURE " [.keyword .PROCEDURE] :=
    (opens_keyword .PROCEDURE).of_text (by decide)
  have hall := (hprocedure.append_writes hnameWrites).append hwrites hclosed
  exact ⟨_, .mk hnameRule hrule, hall⟩

theorem ProcedureDeclaration.sources_eq_join (width depth : Nat)
    (procedures : List ProcedureDeclaration) : ProcedureDeclaration.sources width depth procedures =
      String.join (procedures.map (ProcedureDeclaration.source width depth)) := by
  induction procedures with
  | nil => rfl
  | cons procedure procedures ih =>
    rw [ProcedureDeclaration.sources, ih, List.map_cons, String.join_cons]

def resultSource (width depth : Nat) : Option Expression → String
  | none => ""
  | some value => margin width depth ++ "RETURN " ++ value.source ++ "\n"

theorem opened_resultSource {n : Nat} {result : Option Expression} (width depth : Nat)
    (h : ∀ e ∈ result, e.tree.Within Node.Printable Node.nests n) :
    Opened (resultSource width depth result) (Optional (Behind (.keyword .RETURN) IsExpression))
      result := by
  cases result with
  | none => exact ⟨[], .none, opens_empty⟩
  | some value =>
    obtain ⟨ts, hrule, hwrites⟩ := value.written (h value rfl)
    have hreturn : Opens "RETURN " [.keyword .RETURN] := (opens_keyword .RETURN).of_text (by decide)
    have hall := (((opens_margin width depth).append hreturn).append_writes hwrites).append_opens
      opens_newline fun cs => closed_cons.mpr rfl
    rw [List.append_nil] at hall
    exact ⟨_, .some (.mk hrule), hall⟩

/-- The closing name of a body stands in front of a mark at the end of the line. -/
theorem opens_end {name : String} (h : IsIdentifier name) (mark : Mark)
    (hmark : mark ≠ .leftParen) :
    Opens ("END " ++ name ++ (mark.text ++ "\n")) [.keyword .END, .identifier name,
      .mark mark] := by
  have hend : Opens "END " [.keyword .END] := (opens_keyword .END).of_text (by decide)
  have hname : Opens (name ++ (mark.text ++ "\n")) [.identifier name, .mark mark] := by
    intro cs us hus
    have hline := (opens_newline cs us hus).identifier_mark h mark hmark
    simpa [Mark.text, String.toList_append] using hline
  rw [String.append_assoc]
  exact hend.append hname

theorem ProcedureDeclaration.source_eq (width depth : Nat) (p : ProcedureDeclaration) :
    p.source width depth = margin width depth ++ p.heading.source ++ ";\n" ++
      p.declarations.source width (depth + 1) ++ resultSource width (depth + 1) p.result ++
      margin width depth ++ ("END " ++ p.endName ++ (Mark.semicolon.text ++ "\n")) := by
  have hline : Mark.semicolon.text ++ "\n" = ";\n" := by decide
  obtain ⟨heading, declarations, result, endName⟩ := p
  rw [hline]
  cases result <;> simp only [ProcedureDeclaration.source, resultSource, String.append_assoc]

section Procedures

variable {n : Nat}
  (hprocedure : ∀ (p : ProcedureDeclaration) (width depth : Nat),
    p.tree.Within Node.Printable Node.nests n →
      Opened (p.source width depth) (Terminated IsProcedure) p)

include hprocedure

/-- Printable declarations are written section by section. -/
theorem Declarations.opened {d : Declarations} (width depth : Nat) (h : d.Within Node.Printable n) :
    Opened (d.source width depth) (IsDeclarations IsExpression IsType IsProcedure) d := by
  obtain ⟨constants, types, vars, procedures⟩ := d
  obtain ⟨cs, hconstantsRule, hconstants⟩ := opened_section .CONST width depth fun d hd =>
    ConstDeclaration.opened width (depth + 1) (h.constants d hd)
  obtain ⟨ts, htypesRule, htypes⟩ := opened_section .TYPE width depth fun d hd =>
    TypeDeclaration.opened width (depth + 1) (h.types d hd)
  obtain ⟨vs, hvarsRule, hvars⟩ := opened_section .VAR width depth fun d hd =>
    VariableDeclaration.opened width (depth + 1) (h.vars d hd)
  obtain ⟨ps, hproceduresRule, hprocedures⟩ := opened_join fun p hp =>
    hprocedure p width depth (h.procedures p hp)
  have hall := ((hconstants.append htypes).append hvars).append hprocedures
  rw [Declarations.source, ProcedureDeclaration.sources_eq_join]
  exact ⟨_, .mk hconstantsRule htypesRule hvarsRule hproceduresRule, hall⟩

theorem ProcedureDeclaration.opened_body {p : ProcedureDeclaration} (width depth : Nat)
    (h : p.tree.Within Node.Printable Node.nests (n + 1)) :
    Opened (p.source width depth) (Terminated IsProcedure) p := by
  obtain ⟨-, hheading, hdeclarations, hresult, hend⟩ := ProcedureDeclaration.within_tree.mp h
  obtain ⟨heading, declarations, result, endName⟩ := p
  obtain ⟨hs, hheadingRule, hheadingWrites⟩ := ProcedureHeading.written hheading
  obtain ⟨ds, hdeclarationsRule, hdeclarationsOpens⟩ :=
    Declarations.opened hprocedure width (depth + 1) hdeclarations
  obtain ⟨rs, hresultRule, hresultOpens⟩ := opened_resultSource width (depth + 1) hresult
  have hhead := ((opens_margin width depth).append_writes hheadingWrites).append_opens
    opens_semicolon_line closed_semicolon_line
  have hall := (((hhead.append hdeclarationsOpens).append hresultOpens).append
    (opens_margin width depth)).append (opens_end hend .semicolon nofun)
  rw [ProcedureDeclaration.source_eq]
  refine ⟨_, .mk (.mk (.mk hheadingRule hdeclarationsRule hresultRule endName)), ?_⟩
  simpa using hall

end Procedures

/-- Every printable procedure is written so that it can be read, whatever its margin is. -/
theorem ProcedureDeclaration.opened {n : Nat} (p : ProcedureDeclaration) (width depth : Nat)
    (h : p.tree.Within Node.Printable Node.nests n) :
    Opened (p.source width depth) (Terminated IsProcedure) p := by
  induction n generalizing p width depth with
  | zero =>
    cases p
    exact absurd h (Tree.not_within_zero rfl)
  | succ n ih => exact ProcedureDeclaration.opened_body ih width depth h

/-! ## Modules -/

def importsSource : Option (List String) → String
  | none => ""
  | some names => "IMPORT " ++ ", ".intercalate names ++ ";\n"

theorem Module.source_eq (width : Nat) (m : Module) :
    m.source width = "MODULE " ++ m.name ++ ";\n" ++ importsSource m.imports ++
      m.declarations.source width 0 ++ ("END " ++ m.endName ++ (Mark.dot.text ++ "\n")) := by
  have hline : Mark.dot.text ++ "\n" = ".\n" := by decide
  obtain ⟨name, imports, declarations, endName⟩ := m
  rw [hline]
  cases imports <;> delta Module.source importsSource <;> simp only [String.append_assoc]

theorem opened_imports {n : Nat} {imports : Option (List String)}
    (h : ∀ names ∈ imports, (identifierListTree names).Within Node.Printable Node.nests n) :
    Opened (importsSource imports) (Optional IsImportList) imports := by
  cases imports with
  | none => exact ⟨[], .none, opens_empty⟩
  | some names =>
    obtain ⟨ns, hrule, hwrites⟩ := written_identifiers (h names rfl)
    have himport : Opens "IMPORT " [.keyword .IMPORT] := (opens_keyword .IMPORT).of_text (by decide)
    exact ⟨_, .some (.mk hrule), (himport.append_writes hwrites).append_opens opens_semicolon_line
      closed_semicolon_line⟩

/-- Every printable module is written so that it can be read, with any width. -/
theorem Module.opened {m : Module} (width : Nat) (h : m.Printable) :
    Opened (m.source width) IsModule m := by
  obtain ⟨-, hname, himports, hdeclarations, hend⟩ :=
    Module.within_tree.mp (within_root.mp (Module.printable_iff.mp h)).2
  obtain ⟨is, himportsRule, himportsOpens⟩ := opened_imports himports
  obtain ⟨ds, hdeclarationsRule, hdeclarationsOpens⟩ :=
    Declarations.opened ProcedureDeclaration.opened width 0 hdeclarations
  have hmodule : Opens "MODULE " [.keyword .MODULE] := (opens_keyword .MODULE).of_text (by decide)
  have hall := ((((hmodule.append_writes (writes_identifier hname)).append_opens
    opens_semicolon_line closed_semicolon_line).append himportsOpens).append
    hdeclarationsOpens).append (opens_end hend .dot nofun)
  rw [Module.source_eq]
  refine ⟨_, .mk m.name himportsRule hdeclarationsRule m.endName, ?_⟩
  simpa using hall

/-- The tokens of the printed module are those of a derivation. -/
theorem Module.spells_source {m : Module} (width : Nat) (h : m.Printable) :
    ∃ ts, IsModule ts m ∧ Spells (m.source width).toList ts := by
  obtain ⟨ts, hrule, hopens⟩ := Module.opened width h
  have hall := hopens [] [] spells_nil
  rw [List.append_nil, List.append_nil] at hall
  exact ⟨ts, hrule, hall⟩

end Oberon
