import Oberon.Proofs.Grammar.Limits
import Oberon.Proofs.Syntax.Printable
import Oberon.Proofs.Token.Lexemes

/-!
# What is derived from lexemes is printable

A tree takes its names, numbers and strings from the tokens of its derivation, and the rules leave
no list empty that needs an item.  So a tree that is derived within the limits from tokens that
can be written can be written itself.
-/

namespace Oberon

open Scanner (IsIdentifier)

/-- What is derived from lexemes is good. -/
def Rule.Yields {α : Type} (rule : Rule α) (good : α → Prop) : Prop :=
  ∀ ⦃ts x⦄, rule ts x → (∀ t ∈ ts, t.IsLexeme) → good x

namespace Grammar

/-! ## Combinations -/

section Combinations

variable {α β γ : Type} {rule : Rule α} {good : α → Prop}

/-- An optional item is good if it is there. -/
theorem yields_optional (h : rule.Yields good) :
    (Optional rule).Yields fun x => ∀ y ∈ x, good y := by
  intro ts x hrule hlexemes
  cases hrule with
  | none => exact nofun
  | some hitem =>
    intro y hy
    cases hy
    exact h hitem hlexemes

theorem yields_behind {opening : Token} (h : rule.Yields good) :
    (Behind opening rule).Yields good := by
  intro ts x hrule hlexemes
  obtain ⟨hitem⟩ := hrule
  exact h hitem (List.forall_mem_cons.mp hlexemes).2

theorem yields_terminated (h : rule.Yields good) : (Terminated rule).Yields good := by
  intro ts x hrule hlexemes
  obtain ⟨hitem⟩ := hrule
  exact h hitem (List.forall_mem_append.mp hlexemes).1

/-- All items of a repetition are good. -/
theorem yields_repeated (h : rule.Yields good) :
    (Repeated rule).Yields fun xs => ∀ x ∈ xs, good x := by
  intro ts xs hrule hlexemes
  induction hrule with
  | nil => exact nofun
  | cons first _ ih =>
    rw [List.forall_mem_append] at hlexemes
    exact List.forall_mem_cons.mpr ⟨h first hlexemes.1, ih hlexemes.2⟩

/-- A separated list is never empty, and all its items are good. -/
theorem yields_separated {separator : Token} (h : rule.Yields good) :
    (Separated separator rule).Yields fun xs => xs ≠ [] ∧ ∀ x ∈ xs, good x := by
  intro ts xs hrule hlexemes
  induction hrule with
  | one only => exact ⟨nofun, List.forall_mem_singleton.mpr (h only hlexemes)⟩
  | cons first _ ih =>
    rw [List.forall_mem_append, List.forall_mem_cons] at hlexemes
    obtain ⟨hfirst, -, hothers⟩ := hlexemes
    exact ⟨nofun, List.forall_mem_cons.mpr ⟨h first hfirst, (ih hothers).2⟩⟩

/-- An operation is good if its operand makes it so. -/
theorem yields_operation {ω : Type} {operator? : Token → Option ω} {combine : ω → α → β}
    {whole : β → Prop} (h : rule.Yields good)
    (hwhole : ∀ operator x, good x → whole (combine operator x)) :
    (Operation operator? rule combine).Yields whole := by
  intro ts y hrule hlexemes
  obtain ⟨_, hright⟩ := hrule
  exact hwhole _ _ (h hright (List.forall_mem_cons.mp hlexemes).2)

/-- A combination is good if both parts make it so. -/
theorem yields_joined {right : Rule β} {goodRight : β → Prop} {between : Token}
    {combine : α → β → γ}
    {whole : γ → Prop} (hleft : rule.Yields good) (hright : right.Yields goodRight)
    (hwhole : ∀ x y, good x → goodRight y → whole (combine x y)) :
    (Joined rule between right combine).Yields whole := by
  intro ts z hrule hlexemes
  obtain ⟨hx, hy⟩ := hrule
  rw [List.forall_mem_append, List.forall_mem_cons] at hlexemes
  exact hwhole _ _ (hleft hx hlexemes.1) (hright hy hlexemes.2.2)

theorem yields_isSection {heading : Keyword} (h : rule.Yields good) :
    (IsSection heading rule).Yields fun xs => ∀ x ∈ xs, good x := by
  intro ts xs hrule hlexemes
  cases hrule with
  | absent => exact nofun
  | present hitems =>
    exact yields_repeated (yields_terminated h) hitems (List.forall_mem_cons.mp hlexemes).2

end Combinations

/-! ## Names -/

/-- A derived name is an identifier. -/
theorem yields_isName : IsName.Yields IsIdentifier := by
  intro ts name hrule hlexemes
  obtain ⟨⟩ := hrule
  exact hlexemes _ List.mem_cons_self

/-- A derived name with a mark is printable. -/
theorem yields_isIdentDef : IsIdentDef.Yields fun d => (Node.identDef d).Printable := by
  intro ts d hrule hlexemes
  cases hrule <;> exact hlexemes _ List.mem_cons_self

/-- A derived qualified name is printable. -/
theorem yields_isQualident : IsQualident.Yields fun q => (Node.qualident q).Printable := by
  intro ts q hrule hlexemes
  cases hrule with
  | plain name => exact ⟨hlexemes _ List.mem_cons_self, nofun⟩
  | qualified qualifier name =>
    simp only [List.forall_mem_cons] at hlexemes
    obtain ⟨hqualifier, -, hname, -⟩ := hlexemes
    refine ⟨hname, fun _ hq => ?_⟩
    cases hq
    exact hqualifier

variable {n : Nat}

theorem yields_names : (Separated (.mark .comma) IsName).Yields fun names =>
    (identifierListTree names).Within Node.Printable Node.nests n := by
  intro ts names hrule hlexemes
  exact within_identifierListTree.mpr (yields_separated yields_isName hrule hlexemes)

theorem yields_identDefs : (Separated (.mark .comma) IsIdentDef).Yields fun names =>
    (identDefListTree names).Within Node.Printable Node.nests n := by
  intro ts names hrule hlexemes
  exact within_identDefListTree.mpr (yields_separated yields_isIdentDef hrule hlexemes)

/-! ## Expressions -/

section Expressions

variable {expression : Rule Expression}
  (hexpression : expression.Yields fun e => e.tree.Within Node.Printable Node.nests n)

include hexpression

/-- A derived factor is printable. -/
theorem yields_isFactor :
    (IsFactor expression).Yields fun f => f.tree.Within Node.Printable Node.nests n := by
  intro ts f hrule hlexemes
  refine Factor.within_tree.mpr ⟨trivial, ?_⟩
  cases hrule with
  | integer value => exact Number.within_tree.mpr ⟨trivial, hlexemes _ List.mem_cons_self⟩
  | real value => exact Number.within_tree.mpr ⟨trivial, hlexemes _ List.mem_cons_self⟩
  | string content => exact hlexemes (.string content) List.mem_cons_self
  | name hq => exact yields_isQualident hq hlexemes
  | parenthesized he =>
    rw [List.forall_mem_append, List.forall_mem_cons] at hlexemes
    exact hexpression he hlexemes.1.2

/-- A derived term is printable. -/
theorem yields_isTerm :
    (IsTerm expression).Yields fun t => t.tree.Within Node.Printable Node.nests n := by
  intro ts t hrule hlexemes
  obtain ⟨hfirst, hothers⟩ := hrule
  rw [List.forall_mem_append] at hlexemes
  have hoperation : (IsFactorOperation (IsFactor expression)).Yields fun operation =>
      operation.right.tree.Within Node.Printable Node.nests n := by
    rw [isFactorOperation_eq_operation]
    exact yields_operation (yields_isFactor hexpression) fun _ _ hright => hright
  refine Term.within_tree.mpr ⟨trivial, yields_isFactor hexpression hfirst hlexemes.1, ?_⟩
  intro operation hmem
  exact ⟨trivial, yields_repeated hoperation hothers hlexemes.2 operation hmem⟩

/-- A derived expression is printable. -/
theorem yields_isSimpleExpression : (IsSimpleExpression expression).Yields fun e =>
    e.simpleTree.Within Node.Printable Node.nests n := by
  intro ts e hrule hlexemes
  obtain ⟨_, hfirst, hothers⟩ := hrule
  rw [List.forall_mem_append, List.forall_mem_append] at hlexemes
  have hoperation : (IsTermOperation (IsTerm expression)).Yields fun operation =>
      operation.right.tree.Within Node.Printable Node.nests n := by
    rw [isTermOperation_eq_operation]
    exact yields_operation (yields_isTerm hexpression) fun _ _ hright => hright
  have hterm := yields_isTerm hexpression hfirst hlexemes.1.2
  refine Expression.within_simpleTree.mpr ⟨trivial, trivial, fun _ _ => trivial, hterm, ?_⟩
  intro operation hmem
  exact ⟨trivial, trivial, yields_repeated hoperation hothers hlexemes.2 operation hmem⟩

end Expressions

/-- Expressions within the budget are printable. -/
theorem yields_expression (n : Nat) : (IsExpression.And fun e => e.tree.Fits n).Yields fun e =>
    e.tree.Within Node.Printable Node.nests n := by
  induction n with
  | zero =>
    intro ts e hrule
    exact absurd hrule.2 (Tree.not_within_zero rfl)
  | succ n ih =>
    rw [isExpression_and_succ]
    intro ts e hrule hlexemes
    exact Expression.within_tree.mpr ⟨trivial, yields_isSimpleExpression ih hrule hlexemes⟩

/-! ## Parameters -/

theorem yields_isFormalType : IsFormalType.Yields fun t => (Node.qualident t.name).Printable := by
  intro ts t hrule hlexemes
  induction hrule with
  | name hq => exact yields_isQualident hq hlexemes
  | openArray _ ih =>
    simp only [List.forall_mem_cons] at hlexemes
    exact ih hlexemes.2.2

/-- A section with few dimensions is printable. -/
theorem yields_isParameterSection : IsParameterSection.Yields fun s =>
    s.type.openArrays ≤ maxOpenArrays → s.tree.Within Node.Printable Node.nests n := by
  intro ts s hrule hlexemes hle
  rw [ParameterSection.within_tree, FormalType.within_tree]
  cases hrule with
  | byValue hnames htype =>
    rw [List.forall_mem_append, List.forall_mem_cons] at hlexemes
    exact ⟨trivial, yields_names hnames hlexemes.1, hle, yields_isFormalType htype hlexemes.2.2⟩
  | byReference hnames htype =>
    rw [List.forall_mem_append, List.forall_mem_cons, List.forall_mem_cons] at hlexemes
    exact ⟨trivial, yields_names hnames hlexemes.1.2, hle, yields_isFormalType htype hlexemes.2.2⟩

theorem yields_isParameterSections : IsParameterSections.Yields fun sections =>
    (∀ s ∈ sections, s.type.openArrays ≤ maxOpenArrays) →
      ∀ s ∈ sections, s.tree.Within Node.Printable Node.nests n := by
  intro ts sections hrule hlexemes hle s hs
  cases hrule with
  | none => cases hs
  | some hrules =>
    exact (yields_separated yields_isParameterSection hrules hlexemes).2 s hs (hle s hs)

/-- Parameters with few dimensions are printable. -/
theorem yields_formalParameters : (IsFormalParameters.And Parser.fewOpenArrays).Yields fun p =>
    p.tree.Within Node.Printable Node.nests n := by
  intro ts p hrule hlexemes
  obtain ⟨⟨hsections, hresult⟩, hfew⟩ := hrule
  simp only [List.forall_mem_append, List.forall_mem_cons] at hlexemes
  obtain ⟨⟨-, hsectionLexemes⟩, -, hresultLexemes⟩ := hlexemes
  have hresultType := yields_optional (yields_behind yields_isQualident) hresult hresultLexemes
  exact FormalParameters.within_tree.mpr
    ⟨trivial, trivial, yields_isParameterSections hsections hsectionLexemes hfew, hresultType⟩

/-! ## Types -/

section Types

variable {parameters : Rule FormalParameters} {expression : Rule Expression} {type : Rule TypeExpr}
  (hparameters : parameters.Yields fun p => p.tree.Within Node.Printable Node.nests n)
  (hexpression : expression.Yields fun e => e.tree.Within Node.Printable Node.nests n)
  (htype : type.Yields fun t => t.tree.Within Node.Printable Node.nests n)

include htype in
theorem yields_isFieldList :
    (IsFieldList type).Yields fun fields => fields.tree.Within Node.Printable Node.nests n := by
  rw [isFieldList_eq_joined]
  refine yields_joined (yields_identDefs (n := n)) htype fun names t hnames ht => ?_
  exact FieldList.within_tree.mpr ⟨trivial, hnames, ht⟩

include htype in
/-- The field lists of a record are printable. -/
theorem yields_isFieldLists : (IsFieldLists type).Yields fun fields =>
    ∀ field ∈ fields, field.tree.Within Node.Printable Node.nests n := by
  intro ts fields hrule hlexemes field hfield
  obtain ⟨hrules⟩ := hrule
  -- a field list of the tree is one of those that are there
  obtain ⟨item, hitem, rfl⟩ := List.mem_filterMap.mp hfield
  have hall := yields_separated (yields_optional (yields_isFieldList htype)) hrules hlexemes
  exact hall.2 _ hitem _ rfl

include hparameters hexpression htype

/-- Each form of a type is printable if its parts are. -/
theorem yields_isTypeForm : (IsTypeForm parameters expression type).Yields fun t =>
    t.formTree.Within Node.Printable Node.nests n := by
  intro ts t hrule hlexemes
  refine TypeExpr.within_formTree.mpr ⟨trivial, ?_⟩
  cases hrule with
  | named hq => exact yields_isQualident hq hlexemes
  | array hlengths helement =>
    simp only [List.forall_mem_append, List.forall_mem_cons] at hlexemes
    obtain ⟨⟨-, hlengthLexemes⟩, -, helementLexemes⟩ := hlexemes
    -- a separated list is not empty, as the printer wants it
    obtain ⟨hsome, hall⟩ := yields_separated hexpression hlengths hlengthLexemes
    refine ⟨within_lengthListTree.mpr ⟨hsome, fun e he => ⟨trivial, ?_⟩⟩,
      htype helement helementLexemes⟩
    exact within_constExpressionTree.mpr ⟨trivial, hall e he⟩
  | record hbase hfields =>
    simp only [List.forall_mem_append, List.forall_mem_cons] at hlexemes
    obtain ⟨⟨⟨-, hbaseLexemes⟩, hfieldLexemes⟩, -⟩ := hlexemes
    have hbaseType : IsBaseType.Yields fun q => (Node.qualident q).Printable := by
      intro ts q hrule hlexemes
      obtain ⟨hq⟩ := hrule
      simp only [List.forall_mem_append, List.forall_mem_cons] at hlexemes
      exact yields_isQualident hq hlexemes.1.2
    exact ⟨fun q hq => ⟨trivial, yields_optional hbaseType hbase hbaseLexemes q hq⟩, trivial,
      yields_isFieldLists htype hfields hfieldLexemes⟩
  | pointer htarget =>
    simp only [List.forall_mem_cons] at hlexemes
    exact htype htarget hlexemes.2.2
  | procedure hformal =>
    exact yields_optional hparameters hformal (List.forall_mem_cons.mp hlexemes).2

end Types

/-- Types within the budget are printable. -/
theorem yields_type (n : Nat) : (IsType.And fun t => t.tree.Fits n).Yields fun t =>
    t.tree.Within Node.Printable Node.nests n := by
  induction n with
  | zero =>
    intro ts t hrule
    exact absurd hrule.2 (Tree.not_within_zero rfl)
  | succ n ih =>
    rw [isType_and_succ]
    intro ts t hrule hlexemes
    have hform := yields_isTypeForm yields_formalParameters (yields_expression n) ih hrule hlexemes
    exact TypeExpr.within_tree.mpr ⟨trivial, hform⟩

/-! ## Declarations -/

section Declarations

variable {parameters : Rule FormalParameters} {expression : Rule Expression} {type : Rule TypeExpr}
  {procedure : Rule ProcedureDeclaration}
  (hparameters : parameters.Yields fun p => p.tree.Within Node.Printable Node.nests n)
  (hexpression : expression.Yields fun e => e.tree.Within Node.Printable Node.nests n)
  (htype : type.Yields fun t => t.tree.Within Node.Printable Node.nests n)
  (hprocedure : procedure.Yields fun p => p.tree.Within Node.Printable Node.nests n)

include hexpression in
theorem yields_isConstDeclaration : (IsConstDeclaration expression).Yields fun d =>
    d.tree.Within Node.Printable Node.nests n := by
  rw [isConstDeclaration_eq_joined]
  refine yields_joined yields_isIdentDef hexpression fun name e hname he => ?_
  rw [ConstDeclaration.within_tree, within_constExpressionTree]
  exact ⟨trivial, hname, trivial, he⟩

include htype in
theorem yields_isTypeDeclaration :
    (IsTypeDeclaration type).Yields fun d => d.tree.Within Node.Printable Node.nests n := by
  rw [isTypeDeclaration_eq_joined]
  refine yields_joined yields_isIdentDef htype fun name t hname ht => ?_
  exact TypeDeclaration.within_tree.mpr ⟨trivial, hname, ht⟩

include htype in
theorem yields_isVariableDeclaration :
    (IsVariableDeclaration type).Yields fun d => d.tree.Within Node.Printable Node.nests n := by
  rw [isVariableDeclaration_eq_joined]
  refine yields_joined (yields_identDefs (n := n)) htype fun names t hnames ht => ?_
  exact VariableDeclaration.within_tree.mpr ⟨trivial, hnames, ht⟩

include hexpression htype hprocedure in
/-- Declarations are printable if their expressions, types and procedures are. -/
theorem yields_isDeclarations : (IsDeclarations expression type procedure).Yields fun d =>
    d.Within Node.Printable n := by
  intro ts d hrule hlexemes
  obtain ⟨hconstants, htypes, hvars, hprocedures⟩ := hrule
  simp only [List.forall_mem_append] at hlexemes
  obtain ⟨⟨⟨hcs, hts⟩, hvs⟩, hps⟩ := hlexemes
  exact {
    constants := yields_isSection (yields_isConstDeclaration hexpression) hconstants hcs
    types := yields_isSection (yields_isTypeDeclaration htype) htypes hts
    variableList := trivial
    vars := yields_isSection (yields_isVariableDeclaration htype) hvars hvs
    procedures := yields_repeated (yields_terminated hprocedure) hprocedures hps }

include hparameters in
/-- A derived heading is printable. -/
theorem yields_isProcedureHeading : (IsProcedureHeading parameters).Yields fun heading =>
    heading.tree.Within Node.Printable Node.nests n := by
  intro ts heading hrule hlexemes
  obtain ⟨hname, hformal⟩ := hrule
  simp only [List.forall_mem_append, List.forall_mem_cons] at hlexemes
  exact ProcedureHeading.within_tree.mpr ⟨trivial, yields_isIdentDef hname hlexemes.1.2,
    yields_optional hparameters hformal hlexemes.2⟩

include hparameters hexpression htype hprocedure in
/-- A procedure is printable if what is in it is, and it nests one level more. -/
theorem yields_isProcedureBody :
    (IsProcedureBody parameters expression type procedure).Yields fun p =>
      p.tree.Within Node.Printable Node.nests (n + 1) := by
  intro ts p hrule hlexemes
  obtain ⟨hheading, hdeclarations, hresult, endName⟩ := hrule
  simp only [List.forall_mem_append, List.forall_mem_cons] at hlexemes
  obtain ⟨⟨⟨hhs, -, hds⟩, hrs⟩, -, hend, -⟩ := hlexemes
  refine ProcedureDeclaration.within_tree.mpr ⟨trivial, ?_, ?_, ?_, hend⟩
  · exact yields_isProcedureHeading hparameters hheading hhs
  · exact yields_isDeclarations hexpression htype hprocedure hdeclarations hds
  · exact yields_optional (yields_behind hexpression) hresult hrs

end Declarations

/-- Procedures within the budget are printable. -/
theorem yields_procedure (n : Nat) : (IsProcedure.And fun p => p.tree.Fits n).Yields fun p =>
    p.tree.Within Node.Printable Node.nests n := by
  induction n with
  | zero =>
    intro ts p hrule
    cases p
    exact absurd hrule.2 (Tree.not_within_zero rfl)
  | succ n ih =>
    rw [isProcedure_and_succ]
    exact yields_isProcedureBody yields_formalParameters (yields_expression n) (yields_type n) ih

/-- Modules within the limits are printable. -/
theorem yields_module :
    (IsModule.And fun m => (Node.root m).tree.Fits maxNesting).Yields Module.Printable := by
  rw [isModule_and]
  intro ts m hrule hlexemes
  obtain ⟨name, himports, hdeclarations, endName⟩ := hrule
  simp only [List.forall_mem_append, List.forall_mem_cons] at hlexemes
  obtain ⟨⟨⟨-, hname, -, his⟩, hds⟩, -, hend, -⟩ := hlexemes
  have himportList : IsImportList.Yields fun names =>
      (identifierListTree names).Within Node.Printable Node.nests maxNesting := by
    intro ts names hrule hlexemes
    obtain ⟨hnames⟩ := hrule
    simp only [List.forall_mem_append, List.forall_mem_cons] at hlexemes
    exact yields_names hnames hlexemes.1.2
  have hbody := yields_isDeclarations (yields_expression maxNesting) (yields_type maxNesting)
    (yields_procedure maxNesting) hdeclarations hds
  rw [Module.printable_iff, within_root, Module.within_tree]
  exact ⟨trivial, trivial, hname, yields_optional himportList himports his, hbody, hend⟩

end Grammar

end Oberon
