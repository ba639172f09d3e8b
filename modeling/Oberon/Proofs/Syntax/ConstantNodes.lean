import Oberon.Proofs.Syntax.Expressions
import Oberon.Proofs.Syntax.Parts

/-!
# The constants among the nodes of a module

Declarations stand in bodies only: no expression, type or heading has one below it.  So the
constants that a tree declares are those of its constant sections.
-/

namespace Oberon

def Node.isDeclaration : Node → Bool
  | constDeclaration _ => true
  | typeDeclaration _ => true
  | variableDeclaration _ => true
  | variableDeclarationList _ => true
  | procedureDeclaration _ => true
  | _ => false

namespace Tree

/-- No declaration is among the nodes. -/
def Plain (tree : Tree Node) : Prop :=
  ∀ n ∈ tree.preorder, n.isDeclaration = false

/-- A tree is plain if neither its root nor its children declare anything. -/
theorem plain_node {root : Node} {children : List (Tree Node)} :
    (node root children).Plain ↔ root.isDeclaration = false ∧ ∀ child ∈ children, child.Plain :=
  forall_mem_preorder_node

theorem plain_leaf {root : Node} (h : root.isDeclaration = false) : (leaf root).Plain :=
  plain_node.mpr ⟨h, nofun⟩

end Tree

open Oberon.Tree

/-! ## Expressions -/

theorem Number.plain_tree (n : Number) : n.tree.Plain := by
  rw [Number.tree.eq_def, plain_node, List.forall_mem_singleton]
  cases n <;> exact ⟨rfl, plain_leaf rfl⟩

theorem plain_signTrees (sign : Option Sign) : ∀ tree ∈ signTrees sign, tree.Plain :=
  List.forall_mem_map.mpr fun _ _ => plain_leaf rfl

/-- No part of an expression declares anything. -/
theorem compositional_plain : Compositional (fun e => e.simpleTree.Plain) (fun t => t.tree.Plain)
    (fun f => f.tree.Plain) where
  expression sign first operations hfirst hoperations := by
    rw [Expression.simpleTree, plain_node, List.forall_mem_cons, plain_node, List.forall_mem_append,
      List.forall_mem_singleton, TermOperation.trees_eq_map, List.forall_mem_map]
    refine ⟨rfl, ⟨rfl, plain_signTrees sign, hfirst⟩, ?_⟩
    rintro ⟨operator, right⟩ ho
    rw [TermOperation.tree, plain_node, List.forall_mem_cons, List.forall_mem_singleton]
    exact ⟨rfl, plain_leaf rfl, hoperations _ ho⟩
  term first operations hfirst hoperations := by
    rw [Term.tree, plain_node, List.forall_mem_cons, FactorOperation.trees_eq_map,
      List.forall_mem_map]
    refine ⟨rfl, hfirst, ?_⟩
    rintro ⟨operator, right⟩ ho
    rw [FactorOperation.tree, plain_node, List.forall_mem_singleton]
    exact ⟨rfl, hoperations _ ho⟩
  number n := by
    rw [Factor.tree, plain_node, List.forall_mem_singleton]
    exact ⟨rfl, n.plain_tree⟩
  string content := by
    rw [Factor.tree, plain_node, List.forall_mem_singleton]
    exact ⟨rfl, plain_leaf rfl⟩
  name q := by
    rw [Factor.tree, plain_node, List.forall_mem_singleton]
    exact ⟨rfl, plain_leaf rfl⟩
  parenthesized e he := by
    rw [Factor.tree, plain_node, List.forall_mem_singleton, plain_node, List.forall_mem_singleton]
    exact ⟨rfl, rfl, he⟩

/-- There are no declarations inside an expression. -/
theorem Expression.plain_tree (e : Expression) : e.tree.Plain := by
  rw [Expression.tree, plain_node, List.forall_mem_singleton]
  exact ⟨rfl, compositional_plain.expressions e⟩

theorem plain_constExpressionTree (e : Expression) : (constExpressionTree e).Plain := by
  rw [constExpressionTree, plain_node, List.forall_mem_singleton]
  exact ⟨rfl, e.plain_tree⟩

/-! ## Parameters and types -/

theorem plain_identifierListTree (names : List String) : (identifierListTree names).Plain := by
  rw [identifierListTree, plain_node, List.forall_mem_map]
  exact ⟨rfl, fun _ _ => plain_leaf rfl⟩

theorem plain_identDefListTree (names : List IdentDef) : (identDefListTree names).Plain := by
  rw [identDefListTree, plain_node, List.forall_mem_map]
  exact ⟨rfl, fun _ _ => plain_leaf rfl⟩

theorem ParameterSection.plain_tree (s : ParameterSection) : s.tree.Plain := by
  rw [ParameterSection.tree, plain_node, List.forall_mem_cons, List.forall_mem_singleton,
    FormalType.tree, plain_node, List.forall_mem_singleton]
  exact ⟨rfl, plain_identifierListTree s.names, rfl, plain_leaf rfl⟩

/-- There are no constant declarations inside parameters. -/
theorem FormalParameters.plain_tree (p : FormalParameters) : p.tree.Plain := by
  rw [FormalParameters.tree, plain_node, List.forall_mem_cons, parameterSectionListTree, plain_node,
    List.forall_mem_map, List.forall_mem_map]
  exact ⟨rfl, ⟨rfl, fun s _ => s.plain_tree⟩, fun _ _ => plain_leaf rfl⟩

theorem plain_lengthListTree (lengths : List Expression) : (lengthListTree lengths).Plain := by
  rw [lengthListTree, plain_node, List.forall_mem_map]
  refine ⟨rfl, fun e _ => ?_⟩
  rw [lengthTree, plain_node, List.forall_mem_singleton]
  exact ⟨rfl, plain_constExpressionTree e⟩

theorem plain_baseTypeTree (q : Qualident) : (baseTypeTree q).Plain := by
  rw [baseTypeTree, plain_node, List.forall_mem_singleton]
  exact ⟨rfl, plain_leaf rfl⟩

mutual

theorem TypeExpr.plain_formTree (t : TypeExpr) : t.formTree.Plain := by
  match t with
  | .named q =>
    rw [TypeExpr.formTree, plain_node, List.forall_mem_singleton]
    exact ⟨rfl, plain_leaf rfl⟩
  | .array lengths element =>
    rw [TypeExpr.formTree, plain_node, List.forall_mem_cons, List.forall_mem_singleton, plain_node,
      List.forall_mem_singleton]
    exact ⟨rfl, plain_lengthListTree lengths, rfl, element.plain_formTree⟩
  | .record base fields =>
    rw [TypeExpr.formTree, plain_node, List.forall_mem_append, List.forall_mem_map,
      List.forall_mem_singleton, plain_node]
    exact ⟨rfl, fun q _ => plain_baseTypeTree q, rfl, FieldList.plain_trees fields⟩
  | .pointer target =>
    rw [TypeExpr.formTree, plain_node, List.forall_mem_singleton, plain_node,
      List.forall_mem_singleton]
    exact ⟨rfl, rfl, target.plain_formTree⟩
  | .procedure parameters =>
    rw [TypeExpr.formTree, plain_node, List.forall_mem_map]
    exact ⟨rfl, fun p _ => p.plain_tree⟩

theorem FieldList.plain_trees (fields : List FieldList) :
    ∀ tree ∈ FieldList.trees fields, tree.Plain := by
  match fields with
  | [] => exact nofun
  | ⟨names, type⟩ :: others =>
    rw [FieldList.trees, FieldList.tree, List.forall_mem_cons, plain_node, List.forall_mem_cons,
      List.forall_mem_singleton, plain_node, List.forall_mem_singleton]
    exact ⟨⟨rfl, plain_identDefListTree names, rfl, type.plain_formTree⟩,
      FieldList.plain_trees others⟩

end

/-- There are no constant declarations inside a type. -/
theorem TypeExpr.plain_tree (t : TypeExpr) : t.tree.Plain := by
  rw [TypeExpr.tree, plain_node, List.forall_mem_singleton]
  exact ⟨rfl, t.plain_formTree⟩

/-- There are no constant declarations inside a heading. -/
theorem ProcedureHeading.plain_tree (h : ProcedureHeading) : h.tree.Plain := by
  rw [ProcedureHeading.tree, plain_node, List.forall_mem_cons, List.forall_mem_map]
  exact ⟨rfl, plain_leaf rfl, fun p _ => p.plain_tree⟩

/-! ## The constants of a tree -/

def Node.constant? : Node → Option ConstDeclaration
  | constDeclaration d => some d
  | _ => none

namespace Tree

def constants (tree : Tree Node) : List ConstDeclaration :=
  tree.preorder.filterMap Node.constant?

theorem constants_node (root : Node) (children : List (Tree Node)) :
    (node root children).constants = root.constant?.toList ++ children.flatMap constants := by
  unfold constants
  rw [preorder_node, List.filterMap_cons, List.filterMap_flatMap]
  cases root.constant? <;> rfl

/-- A plain tree has no constants. -/
theorem Plain.constants {tree : Tree Node} (h : tree.Plain) : tree.constants = [] := by
  refine List.filterMap_eq_nil_iff.mpr fun n hn => ?_
  have hplain := h n hn
  cases n with
  | constDeclaration d => cases hplain
  | _ => rfl

theorem flatMap_constants_of_plain {trees : List (Tree Node)} (h : ∀ tree ∈ trees, tree.Plain) :
    trees.flatMap Tree.constants = [] :=
  List.flatMap_eq_nil_iff.mpr fun tree htree => (h tree htree).constants

end Tree

/-- A constant declaration is its only constant. -/
theorem ConstDeclaration.constants_tree (d : ConstDeclaration) : d.tree.constants = [d] := by
  have hplain : ∀ tree ∈ [leaf (.identDef d.name), constExpressionTree d.value], tree.Plain := by
    rw [List.forall_mem_cons, List.forall_mem_singleton]
    exact ⟨plain_leaf rfl, plain_constExpressionTree d.value⟩
  rw [ConstDeclaration.tree, constants_node, flatMap_constants_of_plain hplain]
  rfl

theorem TypeDeclaration.constants_tree (d : TypeDeclaration) : d.tree.constants = [] := by
  have hplain : ∀ tree ∈ [leaf (.identDef d.name), d.type.tree], tree.Plain := by
    rw [List.forall_mem_cons, List.forall_mem_singleton]
    exact ⟨plain_leaf rfl, d.type.plain_tree⟩
  rw [TypeDeclaration.tree, constants_node, flatMap_constants_of_plain hplain]
  rfl

theorem VariableDeclaration.constants_tree (d : VariableDeclaration) : d.tree.constants = [] := by
  have hplain : ∀ tree ∈ [identDefListTree d.names, d.type.tree], tree.Plain := by
    rw [List.forall_mem_cons, List.forall_mem_singleton]
    exact ⟨plain_identDefListTree d.names, d.type.plain_tree⟩
  rw [VariableDeclaration.tree, constants_node, flatMap_constants_of_plain hplain]
  rfl

theorem constants_variableDeclarationListTree (ds : List VariableDeclaration) :
    (variableDeclarationListTree ds).constants = [] := by
  rw [variableDeclarationListTree, constants_node, List.flatMap_map, List.flatMap_eq_nil_iff.mpr]
  · rfl
  · exact fun d _ => d.constants_tree

end Oberon
