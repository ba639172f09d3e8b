import Oberon.Proofs.Grammar

/-!
# Combinations of rules

General facts on optional, repeated, separated and joined items.  A condition on the items of a
combination can be moved out of it: the combination of restricted rules is the combination of the
rules, restricted.
-/

namespace Oberon

namespace Rule

variable {α : Type}

def And (rule : Rule α) (holds : α → Prop) : Rule α :=
  fun ts x => rule ts x ∧ holds x

/-- Two rules that derive the same are the same rule. -/
theorem ext {rule rule' : Rule α} (h : ∀ ts x, rule ts x ↔ rule' ts x) : rule = rule' :=
  funext fun ts => funext fun x => propext (h ts x)

end Rule

namespace Grammar

variable {α β γ ω : Type}

inductive Operation (operator? : Token → Option ω) (operand : Rule α) (combine : ω → α → β) : Rule β
  | mk {t : Token} {operator : ω} {ts : List Token} {x : α} (ht : operator? t = some operator)
      (h : operand ts x) : Operation operator? operand combine (t :: ts) (combine operator x)

/-- Two constructs with a token between them. -/
inductive Joined (left : Rule α) (between : Token) (right : Rule β) (combine : α → β → γ) : Rule γ
  | mk {ts us : List Token} {x : α} {y : β} (hleft : left ts x) (hright : right us y) :
      Joined left between right combine (ts ++ between :: us) (combine x y)

/-- A repetition allows what a stronger item allows. -/
theorem Repeated.mono {rule rule' : Rule α} (h : ∀ ts x, rule ts x → rule' ts x) {ts : List Token}
    {xs : List α} (hts : Repeated rule ts xs) : Repeated rule' ts xs := by
  induction hts with
  | nil => exact .nil
  | cons first _ ih => exact .cons (h _ _ first) ih

section And

variable {rule : Rule α} {holds : α → Prop}

/-- A condition on the item is one on the option. -/
theorem optional_and :
    Optional (rule.And holds) = (Optional rule).And fun x => ∀ y ∈ x, holds y := by
  refine Rule.ext fun ts x => ⟨?_, ?_⟩
  · rintro (_ | ⟨hrule, hholds⟩)
    · exact ⟨.none, nofun⟩
    · exact ⟨.some hrule, fun _ hy => by cases hy; exact hholds⟩
  · rintro ⟨_ | hrule, hholds⟩
    · exact .none
    · exact .some ⟨hrule, hholds _ rfl⟩

theorem behind_and {opening : Token} :
    Behind opening (rule.And holds) = (Behind opening rule).And holds := by
  refine Rule.ext fun ts x => ⟨?_, ?_⟩
  · rintro ⟨hrule, hholds⟩
    exact ⟨.mk hrule, hholds⟩
  · rintro ⟨⟨hrule⟩, hholds⟩
    exact .mk ⟨hrule, hholds⟩

theorem terminated_and : Terminated (rule.And holds) = (Terminated rule).And holds := by
  refine Rule.ext fun ts x => ⟨?_, ?_⟩
  · rintro ⟨hrule, hholds⟩
    exact ⟨.mk hrule, hholds⟩
  · rintro ⟨⟨hrule⟩, hholds⟩
    exact .mk ⟨hrule, hholds⟩

/-- A condition on the item is one on all items of the list. -/
theorem repeated_and :
    Repeated (rule.And holds) = (Repeated rule).And fun xs => ∀ x ∈ xs, holds x := by
  refine Rule.ext fun ts xs => ⟨fun h => ?_, ?_⟩
  · induction h with
    | nil => exact ⟨.nil, nofun⟩
    | cons first _ ih => exact ⟨.cons first.1 ih.1, List.forall_mem_cons.mpr ⟨first.2, ih.2⟩⟩
  · rintro ⟨hrule, hholds⟩
    induction hrule with
    | nil => exact .nil
    | cons first _ ih =>
      rw [List.forall_mem_cons] at hholds
      exact .cons ⟨first, hholds.1⟩ (ih hholds.2)

theorem separated_and {separator : Token} :
    Separated separator (rule.And holds) =
      (Separated separator rule).And fun xs => ∀ x ∈ xs, holds x := by
  refine Rule.ext fun ts xs => ⟨fun h => ?_, ?_⟩
  · induction h with
    | one only => exact ⟨.one only.1, List.forall_mem_singleton.mpr only.2⟩
    | cons first _ ih => exact ⟨.cons first.1 ih.1, List.forall_mem_cons.mpr ⟨first.2, ih.2⟩⟩
  · rintro ⟨hrule, hholds⟩
    induction hrule with
    | one only => exact .one ⟨only, hholds _ List.mem_cons_self⟩
    | cons first _ ih =>
      rw [List.forall_mem_cons] at hholds
      exact .cons ⟨first, hholds.1⟩ (ih hholds.2)

/-- What is asked of the whole may ask nothing of its left part. -/
theorem joined_and {left : Rule β} {between : Token} {combine : β → α → γ} {whole : γ → Prop}
    (h : ∀ y x, whole (combine y x) ↔ holds x) :
    Joined left between (rule.And holds) combine =
      (Joined left between rule combine).And whole := by
  refine Rule.ext fun ts z => ⟨?_, ?_⟩
  · rintro ⟨hleft, hrule, hholds⟩
    exact ⟨.mk hleft hrule, (h _ _).mpr hholds⟩
  · rintro ⟨⟨hleft, hrule⟩, hwhole⟩
    exact .mk hleft ⟨hrule, (h _ _).mp hwhole⟩

/-- What is asked of an operation is asked of its operand. -/
theorem operation_and {operator? : Token → Option ω} {combine : ω → α → β} {whole : β → Prop}
    (h : ∀ operator x, whole (combine operator x) ↔ holds x) :
    Operation operator? (rule.And holds) combine =
      (Operation operator? rule combine).And whole := by
  refine Rule.ext fun ts y => ⟨?_, ?_⟩
  · rintro ⟨ht, hrule, hholds⟩
    exact ⟨.mk ht hrule, (h _ _).mpr hholds⟩
  · rintro ⟨⟨ht, hrule⟩, hwhole⟩
    exact .mk ht ⟨hrule, (h _ _).mp hwhole⟩

theorem isSection_and {heading : Keyword} :
    IsSection heading (rule.And holds) =
      (IsSection heading rule).And fun xs => ∀ x ∈ xs, holds x := by
  refine Rule.ext fun ts xs => ⟨?_, ?_⟩
  · rintro (_ | h)
    · exact ⟨.absent, nofun⟩
    · rw [terminated_and, repeated_and] at h
      exact ⟨.present h.1, h.2⟩
  · rintro ⟨_ | h, hholds⟩
    · exact .absent
    · refine .present ?_
      rw [terminated_and, repeated_and]
      exact ⟨h, hholds⟩

end And

def separator? (separator : Token) (t : Token) : Option Unit :=
  if t = separator then some () else none

theorem separator?_eq_some {separator t : Token} {u : Unit} :
    separator? separator t = some u ↔ t = separator := by
  by_cases h : t = separator <;> simp [separator?, h]

/-- Items behind separators, in front of which there is one more item. -/
theorem Separated.of_repeated {separator : Token} {item : Rule α} {ts us : List Token} {x : α}
    {xs : List α} (first : item ts x)
    (others : Repeated (Operation (separator? separator) item fun _ y => y) us xs) :
    Separated separator item (ts ++ us) (x :: xs) := by
  induction xs generalizing ts us x with
  | nil =>
    cases others
    rw [List.append_nil]
    exact .one first
  | cons y ys ih =>
    cases others with
    | cons operation others =>
      cases operation with
      | mk ht hitem =>
        rw [separator?_eq_some.mp ht, List.cons_append]
        exact .cons first (ih hitem others)

/-! ## Declared names in front of what they stand for -/

/-- A field list is names, a colon and a type. -/
theorem isFieldList_eq_joined {type : Rule TypeExpr} :
    IsFieldList type = Joined (Separated (.mark .comma) IsIdentDef)
      (.mark .colon) type FieldList.mk :=
  Rule.ext fun _ _ => ⟨fun ⟨hnames, htype⟩ => ⟨hnames, htype⟩,
    fun ⟨hnames, htype⟩ => ⟨hnames, htype⟩⟩

/-- A constant is a name, an equals sign and an expression. -/
theorem isConstDeclaration_eq_joined {expression : Rule Expression} :
    IsConstDeclaration expression =
      Joined IsIdentDef (.mark .equal) expression ConstDeclaration.mk :=
  Rule.ext fun _ _ => ⟨fun ⟨hname, hvalue⟩ => ⟨hname, hvalue⟩,
    fun ⟨hname, hvalue⟩ => ⟨hname, hvalue⟩⟩

/-- A type is declared by a name, an equals sign and the type. -/
theorem isTypeDeclaration_eq_joined {type : Rule TypeExpr} :
    IsTypeDeclaration type = Joined IsIdentDef (.mark .equal) type TypeDeclaration.mk :=
  Rule.ext fun _ _ => ⟨fun ⟨hname, htype⟩ => ⟨hname, htype⟩, fun ⟨hname, htype⟩ => ⟨hname, htype⟩⟩

/-- Variables are names, a colon and a type. -/
theorem isVariableDeclaration_eq_joined {type : Rule TypeExpr} :
    IsVariableDeclaration type =
      Joined (Separated (.mark .comma) IsIdentDef) (.mark .colon) type VariableDeclaration.mk :=
  Rule.ext fun _ _ => ⟨fun ⟨hnames, htype⟩ => ⟨hnames, htype⟩,
    fun ⟨hnames, htype⟩ => ⟨hnames, htype⟩⟩

/-- A record may have a single field list, or an empty one. -/
theorem IsFieldLists.single {isType : Rule TypeExpr} {field : Option FieldList} {ts : List Token}
    (h : Optional (IsFieldList isType) ts field) : IsFieldLists isType ts field.toList := by
  have hlists := IsFieldLists.mk (.one h)
  cases field <;> exact hlists

/-- Another field list is put in front, with a semicolon between them. -/
theorem IsFieldLists.cons {isType : Rule TypeExpr} {field : Option FieldList}
    {fields : List FieldList} {ts us : List Token} (h : Optional (IsFieldList isType) ts field)
    (hothers : IsFieldLists isType us fields) :
    IsFieldLists isType (ts ++ .mark .semicolon :: us) (field.toList ++ fields) := by
  obtain ⟨hothers⟩ := hothers
  have hlists := IsFieldLists.mk (.cons h hothers)
  cases field <;> exact hlists

end Grammar

end Oberon
