import Oberon.Proofs.Grammar.Completeness
import Oberon.Proofs.Syntax.Parts

/-!
# The limits of the parser

Parsers with a budget read what is derived within the limits.  A limit on a construct is the same
limit on the expressions, types and procedures inside it, so it can be moved into the rule of the
construct; this turns the derivations within one more level into derivations from those within the
level below, as the budgets of the parsers do.
-/

namespace Oberon

namespace Tree

/-- No formal type of the tree has too many open arrays, and no path has more than `n` of the
constructs that nest. -/
def Fits (n : Nat) (tree : Tree Node) : Prop :=
  tree.Within (Node.FewOpenArrays maxOpenArrays) Node.nests n

end Tree

namespace Grammar

variable {n : Nat}

/-! ## Expressions -/

section Expressions

variable {expression : Rule Expression}

theorem isFactor_and :
    IsFactor (expression.And fun e => e.tree.Fits n) =
      (IsFactor expression).And fun factor => factor.tree.Fits n := by
  refine Rule.ext fun ts factor => ?_
  rw [Rule.And, Tree.Fits, Factor.within_tree]
  constructor
  · rintro (value | value | content | hq | ⟨he, hfits⟩)
    · exact ⟨.integer value, trivial, Number.within_tree.mpr ⟨trivial, trivial⟩⟩
    · exact ⟨.real value, trivial, Number.within_tree.mpr ⟨trivial, trivial⟩⟩
    · exact ⟨.string content, trivial, trivial⟩
    · exact ⟨.name hq, trivial, trivial⟩
    · exact ⟨.parenthesized he, trivial, hfits⟩
  · rintro ⟨value | value | content | hq | he, -, hfits⟩
    · exact .integer value
    · exact .real value
    · exact .string content
    · exact .name hq
    · exact .parenthesized ⟨he, hfits⟩

theorem isFactorOperation_and {factor : Rule Factor} {holds : Factor → Prop} :
    IsFactorOperation (factor.And holds) =
      (IsFactorOperation factor).And fun operation => holds operation.right := by
  rw [isFactorOperation_eq_operation, isFactorOperation_eq_operation]
  exact operation_and fun _ _ => Iff.rfl

theorem isTermOperation_and {term : Rule Term} {holds : Term → Prop} :
    IsTermOperation (term.And holds) =
      (IsTermOperation term).And fun operation => holds operation.right := by
  rw [isTermOperation_eq_operation, isTermOperation_eq_operation]
  exact operation_and fun _ _ => Iff.rfl

/-- The limit holds for a term exactly if it holds for its factors. -/
theorem isTerm_and :
    IsTerm (expression.And fun e => e.tree.Fits n) =
      (IsTerm expression).And fun term => term.tree.Fits n := by
  refine Rule.ext fun ts term => ?_
  rw [Rule.And, Tree.Fits, Term.within_tree]
  constructor
  · rintro ⟨hfirst, hothers⟩
    rw [isFactor_and] at hfirst hothers
    rw [isFactorOperation_and, repeated_and] at hothers
    exact ⟨.mk hfirst.1 hothers.1, trivial, hfirst.2, fun o ho => ⟨trivial, hothers.2 o ho⟩⟩
  · rintro ⟨⟨hfirst, hothers⟩, -, hfirstFits, hothersFit⟩
    refine .mk ?_ ?_
    · rw [isFactor_and]
      exact ⟨hfirst, hfirstFits⟩
    · rw [isFactor_and, isFactorOperation_and, repeated_and]
      exact ⟨hothers, fun o ho => (hothersFit o ho).2⟩

/-- The limit holds for an expression exactly if it holds for its terms. -/
theorem isSimpleExpression_and :
    IsSimpleExpression (expression.And fun e => e.tree.Fits n) =
      (IsSimpleExpression expression).And fun e => e.simpleTree.Fits n := by
  refine Rule.ext fun ts e => ?_
  rw [Rule.And, Tree.Fits, Expression.within_simpleTree]
  constructor
  · rintro ⟨hsign, hfirst, hothers⟩
    rw [isTerm_and] at hfirst hothers
    rw [isTermOperation_and, repeated_and] at hothers
    exact ⟨.mk hsign hfirst.1 hothers.1, trivial, trivial, fun _ _ => trivial, hfirst.2,
      fun o ho => ⟨trivial, trivial, hothers.2 o ho⟩⟩
  · rintro ⟨⟨hsign, hfirst, hothers⟩, -, -, -, hfirstFits, hothersFit⟩
    refine .mk hsign ?_ ?_
    · rw [isTerm_and]
      exact ⟨hfirst, hfirstFits⟩
    · rw [isTerm_and, isTermOperation_and, repeated_and]
      exact ⟨hothers, fun o ho => (hothersFit o ho).2.2⟩

/-- The derivations of expressions with one more level come from those with one less. -/
theorem isExpression_and_succ :
    IsExpression.And (fun e => e.tree.Fits (n + 1)) =
      IsSimpleExpression (IsExpression.And fun e => e.tree.Fits n) := by
  rw [isSimpleExpression_and]
  refine Rule.ext fun ts e => ?_
  rw [Rule.And, Rule.And, Tree.Fits, Expression.within_tree]
  exact ⟨fun ⟨⟨h⟩, _, hfits⟩ => ⟨h, hfits⟩, fun ⟨h, hfits⟩ => ⟨.mk h, trivial, hfits⟩⟩

end Expressions

/-! ## Names -/

theorem fits_identifierListTree (names : List String) : (identifierListTree names).Fits n :=
  within_identifierListTree.mpr ⟨trivial, fun _ _ => trivial⟩

theorem fits_identDefListTree (names : List IdentDef) : (identDefListTree names).Fits n :=
  within_identDefListTree.mpr ⟨trivial, fun _ _ => trivial⟩

/-! ## Types -/

/-- Parameters have no bodies or brackets to count, only dimensions. -/
theorem fewOpenArrays_iff {formal : FormalParameters} :
    formal.tree.Fits n ↔ Parser.fewOpenArrays formal := by
  have hsection (s : ParameterSection) : s.tree.Fits n ↔ s.type.openArrays ≤ maxOpenArrays := by
    rw [Tree.Fits, ParameterSection.within_tree, FormalType.within_tree]
    exact ⟨fun h => h.2.2.1, fun h => ⟨trivial, fits_identifierListTree _, h, trivial⟩⟩
  rw [Tree.Fits, FormalParameters.within_tree]
  constructor
  · intro h s hs
    exact (hsection s).mp (h.2.2.1 s hs)
  · intro h
    exact ⟨trivial, trivial, fun s hs => (hsection s).mpr (h s hs), fun _ _ => trivial⟩

section Types

variable {parameters : Rule FormalParameters} {expression : Rule Expression} {type : Rule TypeExpr}

theorem isFieldList_and :
    IsFieldList (type.And fun t => t.tree.Fits n) =
      (IsFieldList type).And fun fields => fields.tree.Fits n := by
  rw [isFieldList_eq_joined, isFieldList_eq_joined]
  refine joined_and fun names t => ?_
  rw [Tree.Fits, FieldList.within_tree]
  exact ⟨fun h => h.2.2, fun h => ⟨trivial, fits_identDefListTree names, h⟩⟩

/-- The limit holds for a record exactly if it holds for each of its field lists. -/
theorem isFieldLists_and :
    IsFieldLists (type.And fun t => t.tree.Fits n) =
      (IsFieldLists type).And fun fields => ∀ field ∈ fields, field.tree.Fits n := by
  refine Rule.ext fun ts fields => ⟨?_, ?_⟩
  · rintro ⟨h⟩
    rw [isFieldList_and, optional_and, separated_and] at h
    refine ⟨.mk h.1, fun field hfield => ?_⟩
    obtain ⟨_, hmem, rfl⟩ := List.mem_filterMap.mp hfield
    exact h.2 _ hmem _ rfl
  · rintro ⟨⟨h⟩, hfits⟩
    refine .mk ?_
    rw [isFieldList_and, optional_and, separated_and]
    refine ⟨h, fun item hitem field hfield => hfits field ?_⟩
    exact List.mem_filterMap.mpr ⟨item, hitem, hfield⟩

/-- The limit holds for a type exactly if it holds for its parts. -/
theorem isTypeForm_and :
    IsTypeForm (parameters.And Parser.fewOpenArrays) (expression.And fun e => e.tree.Fits n)
        (type.And fun t => t.tree.Fits n) =
      (IsTypeForm parameters expression type).And fun t => t.formTree.Fits n := by
  refine Rule.ext fun ts t => ?_
  rw [Rule.And, Tree.Fits, TypeExpr.within_formTree]
  -- the nodes above a length put no condition of their own
  have hlength {lengths : List Expression} :
      (lengthListTree lengths).Fits n ↔ ∀ e ∈ lengths, e.tree.Fits n := by
    rw [Tree.Fits, within_lengthListTree]
    simp only [within_constExpressionTree]
    exact ⟨fun h e he => (h.2 e he).2.2, fun h => ⟨trivial, fun e he => ⟨trivial, trivial, h e he⟩⟩⟩
  constructor
  · rintro (hq | ⟨hlengths, helement, hfits⟩ | ⟨hbase, hfields⟩ | ⟨htarget, hfits⟩ | hformal)
    · exact ⟨.named hq, trivial, trivial⟩
    · rw [separated_and] at hlengths
      exact ⟨.array hlengths.1 helement, trivial, hlength.mpr hlengths.2, hfits⟩
    · rw [isFieldLists_and] at hfields
      exact ⟨.record hbase hfields.1, trivial, fun _ _ => ⟨trivial, trivial⟩, trivial, hfields.2⟩
    · exact ⟨.pointer htarget, trivial, hfits⟩
    · rw [optional_and] at hformal
      exact ⟨.procedure hformal.1, trivial, fun p hp => fewOpenArrays_iff.mpr (hformal.2 p hp)⟩
  · rintro ⟨hq | ⟨hlengths, helement⟩ | ⟨hbase, hfields⟩ | htarget | hformal, -, hfits⟩
    · exact .named hq
    · refine .array ?_ ⟨helement, hfits.2⟩
      rw [separated_and]
      exact ⟨hlengths, hlength.mp hfits.1⟩
    · refine .record hbase ?_
      rw [isFieldLists_and]
      exact ⟨hfields, hfits.2.2⟩
    · exact .pointer ⟨htarget, hfits⟩
    · refine .procedure ?_
      rw [optional_and]
      exact ⟨hformal, fun p hp => fewOpenArrays_iff.mp (hfits p hp)⟩

/-- The derivations of types with one more level come from those with one less. -/
theorem isType_and_succ :
    IsType.And (fun t => t.tree.Fits (n + 1)) =
      IsTypeForm (IsFormalParameters.And Parser.fewOpenArrays)
        (IsExpression.And fun e => e.tree.Fits n) (IsType.And fun t => t.tree.Fits n) := by
  rw [isTypeForm_and]
  refine Rule.ext fun ts t => ?_
  rw [Rule.And, Rule.And, Tree.Fits, TypeExpr.within_tree]
  exact ⟨fun ⟨⟨h⟩, _, hfits⟩ => ⟨h, hfits⟩, fun ⟨h, hfits⟩ => ⟨.mk h, trivial, hfits⟩⟩

end Types

/-! ## Declarations -/

theorem isConstDeclaration_and {expression : Rule Expression} :
    IsConstDeclaration (expression.And fun e => e.tree.Fits n) =
      (IsConstDeclaration expression).And fun d => d.tree.Fits n := by
  rw [isConstDeclaration_eq_joined, isConstDeclaration_eq_joined]
  refine joined_and fun name e => ?_
  rw [Tree.Fits, ConstDeclaration.within_tree, within_constExpressionTree]
  exact ⟨fun h => h.2.2.2, fun h => ⟨trivial, trivial, trivial, h⟩⟩

theorem isTypeDeclaration_and {type : Rule TypeExpr} :
    IsTypeDeclaration (type.And fun t => t.tree.Fits n) =
      (IsTypeDeclaration type).And fun d => d.tree.Fits n := by
  rw [isTypeDeclaration_eq_joined, isTypeDeclaration_eq_joined]
  refine joined_and fun name t => ?_
  rw [Tree.Fits, TypeDeclaration.within_tree]
  exact ⟨fun h => h.2.2, fun h => ⟨trivial, trivial, h⟩⟩

theorem isVariableDeclaration_and {type : Rule TypeExpr} :
    IsVariableDeclaration (type.And fun t => t.tree.Fits n) =
      (IsVariableDeclaration type).And fun d => d.tree.Fits n := by
  rw [isVariableDeclaration_eq_joined, isVariableDeclaration_eq_joined]
  refine joined_and fun names t => ?_
  rw [Tree.Fits, VariableDeclaration.within_tree]
  exact ⟨fun h => h.2.2, fun h => ⟨trivial, fits_identDefListTree names, h⟩⟩

theorem isProcedureHeading_and {parameters : Rule FormalParameters} :
    IsProcedureHeading (parameters.And Parser.fewOpenArrays) =
      (IsProcedureHeading parameters).And fun h => h.tree.Fits n := by
  refine Rule.ext fun ts heading => ?_
  rw [Rule.And, Tree.Fits, ProcedureHeading.within_tree]
  constructor
  · rintro ⟨hname, hformal⟩
    rw [optional_and] at hformal
    exact ⟨.mk hname hformal.1, trivial, trivial,
      fun p hp => fewOpenArrays_iff.mpr (hformal.2 p hp)⟩
  · rintro ⟨⟨hname, hformal⟩, -, -, hfits⟩
    refine .mk hname ?_
    rw [optional_and]
    exact ⟨hformal, fun p hp => fewOpenArrays_iff.mp (hfits p hp)⟩

section Declarations

variable {parameters : Rule FormalParameters} {expression : Rule Expression} {type : Rule TypeExpr}
  {procedure : Rule ProcedureDeclaration}

/-- The limit holds for declarations exactly if it holds for each of them. -/
theorem isDeclarations_and :
    IsDeclarations (expression.And fun e => e.tree.Fits n) (type.And fun t => t.tree.Fits n)
        (procedure.And fun p => p.tree.Fits n) =
      (IsDeclarations expression type procedure).And
        fun d => d.Within (Node.FewOpenArrays maxOpenArrays) n := by
  refine Rule.ext fun ts d => ⟨?_, ?_⟩
  · rintro ⟨hconstants, htypes, hvars, hprocedures⟩
    rw [isConstDeclaration_and, isSection_and] at hconstants
    rw [isTypeDeclaration_and, isSection_and] at htypes
    rw [isVariableDeclaration_and, isSection_and] at hvars
    rw [terminated_and, repeated_and] at hprocedures
    exact ⟨.mk hconstants.1 htypes.1 hvars.1 hprocedures.1,
      ⟨hconstants.2, htypes.2, trivial, hvars.2, hprocedures.2⟩⟩
  · rintro ⟨⟨hconstants, htypes, hvars, hprocedures⟩, hfits⟩
    refine .mk ?_ ?_ ?_ ?_
    · rw [isConstDeclaration_and, isSection_and]
      exact ⟨hconstants, hfits.constants⟩
    · rw [isTypeDeclaration_and, isSection_and]
      exact ⟨htypes, hfits.types⟩
    · rw [isVariableDeclaration_and, isSection_and]
      exact ⟨hvars, hfits.vars⟩
    · rw [terminated_and, repeated_and]
      exact ⟨hprocedures, hfits.procedures⟩

/-- The derivations of procedures with one more level come from those with one less. -/
theorem isProcedure_and_succ :
    IsProcedure.And (fun p => p.tree.Fits (n + 1)) =
      IsProcedureBody (IsFormalParameters.And Parser.fewOpenArrays)
        (IsExpression.And fun e => e.tree.Fits n) (IsType.And fun t => t.tree.Fits n)
        (IsProcedure.And fun p => p.tree.Fits n) := by
  refine Rule.ext fun ts p => ?_
  rw [Rule.And, Tree.Fits, ProcedureDeclaration.within_tree]
  constructor
  · rintro ⟨⟨⟨hheading, hbody, hresult, endName⟩⟩, -, hheadingFits, hbodyFits, hresultFits, -⟩
    refine .mk ?_ ?_ ?_ endName
    · rw [isProcedureHeading_and]
      exact ⟨hheading, hheadingFits⟩
    · rw [isDeclarations_and]
      exact ⟨hbody, hbodyFits⟩
    · rw [behind_and, optional_and]
      exact ⟨hresult, hresultFits⟩
  · rintro ⟨hheading, hbody, hresult, endName⟩
    rw [isProcedureHeading_and] at hheading
    rw [isDeclarations_and] at hbody
    rw [behind_and, optional_and] at hresult
    exact ⟨.mk (.mk hheading.1 hbody.1 hresult.1 endName), trivial, hheading.2, hbody.2, hresult.2,
      trivial⟩

/-- The limit holds for a module exactly if it holds for everything in it. -/
theorem isModule_and :
    IsModule.And (fun m => (Node.root m).tree.Fits n) =
      IsModuleBody (IsExpression.And fun e => e.tree.Fits n) (IsType.And fun t => t.tree.Fits n)
        (IsProcedure.And fun p => p.tree.Fits n) := by
  refine Rule.ext fun ts m => ?_
  rw [Rule.And, Tree.Fits, within_root, Module.within_tree]
  constructor
  · rintro ⟨⟨name, himports, hbody, endName⟩, -, -, -, -, hfits, -⟩
    refine .mk name himports ?_ endName
    rw [isDeclarations_and]
    exact ⟨hbody, hfits⟩
  · rintro ⟨name, himports, hbody, endName⟩
    rw [isDeclarations_and] at hbody
    exact ⟨.mk name himports hbody.1 endName, trivial, trivial, trivial,
      fun names _ => fits_identifierListTree names, hbody.2, trivial⟩

end Declarations

end Grammar

end Oberon
