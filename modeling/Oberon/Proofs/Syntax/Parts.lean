import Oberon.Proofs.Syntax.Nesting

/-!
# Conditions on all nodes of a construct

A condition on every node of a construct, with a bound on its nesting, is the condition on the
construct itself and the same of its parts.  One equivalence for each construct; an expression, a
type and a procedure leave one level of nesting less to their parts.
-/

namespace Oberon

open Oberon.Tree (Within)

/-! ## Lists of trees -/

theorem TermOperation.trees_eq_map (operations : List TermOperation) :
    TermOperation.trees operations = operations.map TermOperation.tree := by
  induction operations with
  | nil => rfl
  | cons operation operations ih => rw [TermOperation.trees, ih, List.map_cons]

theorem FactorOperation.trees_eq_map (operations : List FactorOperation) :
    FactorOperation.trees operations = operations.map FactorOperation.tree := by
  induction operations with
  | nil => rfl
  | cons operation operations ih => rw [FactorOperation.trees, ih, List.map_cons]

theorem FieldList.trees_eq_map (fields : List FieldList) :
    FieldList.trees fields = fields.map FieldList.tree := by
  induction fields with
  | nil => rfl
  | cons field fields ih => rw [FieldList.trees, ih, List.map_cons]

theorem ProcedureDeclaration.trees_eq_map (procedures : List ProcedureDeclaration) :
    ProcedureDeclaration.trees procedures = procedures.map ProcedureDeclaration.tree := by
  induction procedures with
  | nil => rfl
  | cons procedure procedures ih => rw [ProcedureDeclaration.trees, ih, List.map_cons]

section Within

variable {p : Node → Prop} {n : Nat}

/-! ## Names and numbers -/

/-- A leaf is within a limit if it is good and fits itself. -/
@[simp]
theorem within_leaf {node : Node} :
    (Tree.leaf node).Within p Node.nests n ↔ p node ∧ node.nests.toNat ≤ n := by
  cases h : node.nests <;> simp [Tree.leaf, Tree.Within, Tree.forall_mem_preorder_node,
    Tree.nesting, Tree.nestingAll, h]

theorem within_identifierListTree {names : List String} :
    (identifierListTree names).Within p Node.nests n ↔
      p (.identifierList names) ∧ ∀ name ∈ names, p (.identifier name) := by
  rw [identifierListTree, Tree.within_node_of_not_counts rfl]
  simp [Node.nests]

theorem within_identDefListTree {names : List IdentDef} :
    (identDefListTree names).Within p Node.nests n ↔
      p (.identDefList names) ∧ ∀ name ∈ names, p (.identDef name) := by
  rw [identDefListTree, Tree.within_node_of_not_counts rfl]
  simp [Node.nests]

theorem Number.within_tree {number : Number} :
    number.tree.Within p Node.nests n ↔
      p (.number number) ∧
        match number with
        | .integer value => p (.integer value)
        | .real value => p (.real value) := by
  cases number <;> rw [Number.tree.eq_def, Tree.within_node_of_not_counts rfl]
  all_goals simp [Node.nests]

/-! ## Expressions -/

/-- A factor is good throughout if it and what it holds are. -/
theorem Factor.within_tree {factor : Factor} :
    factor.tree.Within p Node.nests n ↔
      p (.factor factor) ∧
        match factor with
        | .number literal => literal.tree.Within p Node.nests n
        | .string content => p (.string content)
        | .name q => p (.qualident q)
        | .parenthesized e => e.tree.Within p Node.nests n := by
  cases factor <;> rw [Factor.tree, Tree.within_node_of_not_counts rfl]
  all_goals simp [Expression.tree, Node.nests]

/-- A term is good throughout if it and its factors are. -/
theorem Term.within_tree {term : Term} :
    term.tree.Within p Node.nests n ↔
      p (.term term) ∧ term.first.tree.Within p Node.nests n ∧
        ∀ operation ∈ term.operations,
          p (.factorOperation operation) ∧ operation.right.tree.Within p Node.nests n := by
  obtain ⟨first, operations⟩ := term
  have hoperation (operation : FactorOperation) : operation.tree.Within p Node.nests n ↔
      p (.factorOperation operation) ∧ operation.right.tree.Within p Node.nests n := by
    cases operation
    rw [FactorOperation.tree, Tree.within_node_of_not_counts rfl]
    simp
  rw [Term.tree, Tree.within_node_of_not_counts rfl, FactorOperation.trees_eq_map]
  simp [hoperation]

/-- An expression is good throughout if its parts are. -/
theorem Expression.within_simpleTree {e : Expression} :
    e.simpleTree.Within p Node.nests n ↔
      p (.simpleExpression e) ∧ p (.singleTerm e.sign e.first) ∧ (∀ s ∈ e.sign, p (.sign s)) ∧
        e.first.tree.Within p Node.nests n ∧
        ∀ operation ∈ e.operations,
          p (.termOperation operation) ∧ p (.addOperator operation.operator) ∧
            operation.right.tree.Within p Node.nests n := by
  obtain ⟨sign, first, operations⟩ := e
  have hoperation (operation : TermOperation) : operation.tree.Within p Node.nests n ↔
      p (.termOperation operation) ∧ p (.addOperator operation.operator) ∧
        operation.right.tree.Within p Node.nests n := by
    cases operation
    rw [TermOperation.tree, Tree.within_node_of_not_counts rfl]
    simp [Node.nests]
  have hfirst : (Tree.node (.singleTerm sign first) (signTrees sign ++ [first.tree])).Within p
      Node.nests n ↔ p (.singleTerm sign first) ∧ (∀ s ∈ sign, p (.sign s)) ∧
        first.tree.Within p Node.nests n := by
    rw [Tree.within_node_of_not_counts rfl]
    cases sign <;> simp [signTrees, Node.nests]
  rw [Expression.simpleTree, Tree.within_node_of_not_counts rfl, TermOperation.trees_eq_map]
  simp [hoperation, hfirst, and_assoc]

/-- An expression leaves one level less to those inside it. -/
theorem Expression.within_tree {e : Expression} :
    e.tree.Within p Node.nests (n + 1) ↔
      p (.expression e) ∧ e.simpleTree.Within p Node.nests n := by
  rw [Expression.tree, Tree.within_node_of_counts rfl]
  simp

theorem within_constExpressionTree {e : Expression} :
    (constExpressionTree e).Within p Node.nests n ↔
      p (.constExpression e) ∧ e.tree.Within p Node.nests n := by
  rw [constExpressionTree, Tree.within_node_of_not_counts rfl]
  simp

/-! ## Types -/

theorem FormalType.within_tree {t : FormalType} :
    t.tree.Within p Node.nests n ↔ p (.formalType t) ∧ p (.qualident t.name) := by
  rw [FormalType.tree, Tree.within_node_of_not_counts rfl]
  simp [Node.nests]

theorem ParameterSection.within_tree {s : ParameterSection} :
    s.tree.Within p Node.nests n ↔
      p (.parameterSection s) ∧ (identifierListTree s.names).Within p Node.nests n ∧
        s.type.tree.Within p Node.nests n := by
  rw [ParameterSection.tree, Tree.within_node_of_not_counts rfl]
  simp

/-- Parameters are good throughout if the sections and the result are. -/
theorem FormalParameters.within_tree {formal : FormalParameters} :
    formal.tree.Within p Node.nests n ↔
      p (.formalParameters formal) ∧ p (.parameterSectionList formal.sections) ∧
        (∀ s ∈ formal.sections, s.tree.Within p Node.nests n) ∧
        ∀ q ∈ formal.result, p (.qualident q) := by
  have hsections : (parameterSectionListTree formal.sections).Within p Node.nests n ↔
      p (.parameterSectionList formal.sections) ∧
        ∀ s ∈ formal.sections, s.tree.Within p Node.nests n := by
    rw [parameterSectionListTree, Tree.within_node_of_not_counts rfl]
    simp
  rw [FormalParameters.tree, Tree.within_node_of_not_counts rfl]
  simp [hsections, and_assoc, Node.nests]

theorem within_lengthListTree {lengths : List Expression} :
    (lengthListTree lengths).Within p Node.nests n ↔
      p (.lengthList lengths) ∧
        ∀ e ∈ lengths, p (.length e) ∧ (constExpressionTree e).Within p Node.nests n := by
  have hlength (e : Expression) : (lengthTree e).Within p Node.nests n ↔
      p (.length e) ∧ (constExpressionTree e).Within p Node.nests n := by
    rw [lengthTree, Tree.within_node_of_not_counts rfl]
    simp
  rw [lengthListTree, Tree.within_node_of_not_counts rfl]
  simp [hlength]

theorem FieldList.within_tree {fields : FieldList} :
    fields.tree.Within p Node.nests n ↔
      p (.fieldList fields) ∧ (identDefListTree fields.names).Within p Node.nests n ∧
        fields.type.tree.Within p Node.nests n := by
  obtain ⟨names, type⟩ := fields
  rw [FieldList.tree, Tree.within_node_of_not_counts rfl]
  simp [TypeExpr.tree]

/-- A type leaves one level less to those inside it. -/
theorem TypeExpr.within_tree {t : TypeExpr} :
    t.tree.Within p Node.nests (n + 1) ↔ p (.type t) ∧ t.formTree.Within p Node.nests n := by
  rw [TypeExpr.tree, Tree.within_node_of_counts rfl]
  simp

/-- A type is good throughout if its parts are. -/
theorem TypeExpr.within_formTree {t : TypeExpr} :
    t.formTree.Within p Node.nests n ↔
      p (.typeForm t) ∧
        match t with
        | .named q => p (.qualident q)
        | .array lengths element =>
          (lengthListTree lengths).Within p Node.nests n ∧ element.tree.Within p Node.nests n
        | .record base fields =>
          (∀ q ∈ base, p (.baseType q) ∧ p (.qualident q)) ∧ p (.fieldListSequence fields) ∧
            ∀ field ∈ fields, field.tree.Within p Node.nests n
        | .pointer target => target.tree.Within p Node.nests n
        | .procedure formal => ∀ parameters ∈ formal, parameters.tree.Within p Node.nests n := by
  cases t with
  | record base fields =>
    -- the base type and the field lists have nodes of their own below the record
    have hbase (q : Qualident) : (baseTypeTree q).Within p Node.nests n ↔
        p (.baseType q) ∧ p (.qualident q) := by
      rw [baseTypeTree, Tree.within_node_of_not_counts rfl]
      simp [Node.nests]
    have hfields : (Tree.node (.fieldListSequence fields) (FieldList.trees fields)).Within p
        Node.nests n ↔ p (.fieldListSequence fields) ∧
          ∀ field ∈ fields, field.tree.Within p Node.nests n := by
      rw [Tree.within_node_of_not_counts rfl, FieldList.trees_eq_map]
      simp
    rw [TypeExpr.formTree, Tree.within_node_of_not_counts rfl]
    cases base <;> simp [hbase, hfields, and_assoc]
  | _ =>
    rw [TypeExpr.formTree, Tree.within_node_of_not_counts rfl]
    simp [TypeExpr.tree, Node.nests]

/-! ## Declarations -/

theorem ConstDeclaration.within_tree {d : ConstDeclaration} :
    d.tree.Within p Node.nests n ↔
      p (.constDeclaration d) ∧ p (.identDef d.name) ∧
        (constExpressionTree d.value).Within p Node.nests n := by
  rw [ConstDeclaration.tree, Tree.within_node_of_not_counts rfl]
  simp [Node.nests]

theorem TypeDeclaration.within_tree {d : TypeDeclaration} :
    d.tree.Within p Node.nests n ↔
      p (.typeDeclaration d) ∧ p (.identDef d.name) ∧ d.type.tree.Within p Node.nests n := by
  rw [TypeDeclaration.tree, Tree.within_node_of_not_counts rfl]
  simp [Node.nests]

theorem VariableDeclaration.within_tree {d : VariableDeclaration} :
    d.tree.Within p Node.nests n ↔
      p (.variableDeclaration d) ∧ (identDefListTree d.names).Within p Node.nests n ∧
        d.type.tree.Within p Node.nests n := by
  rw [VariableDeclaration.tree, Tree.within_node_of_not_counts rfl]
  simp

theorem ProcedureHeading.within_tree {h : ProcedureHeading} :
    h.tree.Within p Node.nests n ↔
      p (.procedureHeading h) ∧ p (.identDef h.name) ∧
        ∀ parameters ∈ h.parameters, parameters.tree.Within p Node.nests n := by
  rw [ProcedureHeading.tree, Tree.within_node_of_not_counts rfl]
  simp [Node.nests]

structure Declarations.Within (p : Node → Prop) (n : Nat) (d : Declarations) : Prop where
  constants : ∀ c ∈ d.constants, c.tree.Within p Node.nests n
  types : ∀ t ∈ d.types, t.tree.Within p Node.nests n
  variableList : p (.variableDeclarationList d.vars)
  vars : ∀ v ∈ d.vars, v.tree.Within p Node.nests n
  procedures : ∀ q ∈ d.procedures, q.tree.Within p Node.nests n

/-- Declarations are good throughout if each of their trees is. -/
theorem Declarations.forall_mem_trees {d : Declarations} :
    (∀ tree ∈ d.trees, tree.Within p Node.nests n) ↔ d.Within p n := by
  obtain ⟨constants, types, vars, procedures⟩ := d
  have hvars : (variableDeclarationListTree vars).Within p Node.nests n ↔
      p (.variableDeclarationList vars) ∧ ∀ v ∈ vars, v.tree.Within p Node.nests n := by
    rw [variableDeclarationListTree, Tree.within_node_of_not_counts rfl]
    simp
  rw [Declarations.trees, ProcedureDeclaration.trees_eq_map]
  simp only [List.append_assoc, List.forall_mem_append, List.forall_mem_map, List.forall_mem_cons,
    hvars]
  constructor
  · rintro ⟨hconstants, htypes, ⟨hlist, hvars⟩, hprocedures⟩
    exact ⟨hconstants, htypes, hlist, hvars, hprocedures⟩
  · rintro ⟨hconstants, htypes, hlist, hvars, hprocedures⟩
    exact ⟨hconstants, htypes, ⟨hlist, hvars⟩, hprocedures⟩

/-- A procedure leaves one level less to what is inside it. -/
theorem ProcedureDeclaration.within_tree {q : ProcedureDeclaration} :
    q.tree.Within p Node.nests (n + 1) ↔
      p (.procedureDeclaration q) ∧ q.heading.tree.Within p Node.nests n ∧
        q.declarations.Within p n ∧ (∀ e ∈ q.result, e.tree.Within p Node.nests n) ∧
        p (.identifier q.endName) := by
  obtain ⟨heading, declarations, result, endName⟩ := q
  rw [ProcedureDeclaration.tree, Tree.within_node_of_counts rfl, ← Declarations.forall_mem_trees]
  simp only [List.forall_mem_append, List.forall_mem_cons, List.forall_mem_map]
  simp [and_assoc, Node.nests]

/-- A module is good throughout if its names and its declarations are. -/
theorem Module.within_tree {m : Module} :
    m.tree.Within p Node.nests n ↔
      p (.module m) ∧ p (.identifier m.name) ∧
        (∀ names ∈ m.imports, (identifierListTree names).Within p Node.nests n) ∧
        m.declarations.Within p n ∧ p (.identifier m.endName) := by
  rw [Module.tree, Tree.within_node_of_not_counts rfl, ← Declarations.forall_mem_trees]
  simp only [List.forall_mem_append, List.forall_mem_cons, List.forall_mem_map]
  simp [and_assoc, Node.nests]

theorem within_root {m : Module} :
    (Node.root m).tree.Within p Node.nests n ↔
      p (.root m) ∧ m.tree.Within p Node.nests n := by
  rw [Node.tree, Tree.within_node_of_not_counts rfl]
  simp

end Within

end Oberon
