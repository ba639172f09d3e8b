import Mathlib.Data.List.Flatten
import Mathlib.Data.List.Perm.Basic
import Oberon.Proofs.Syntax.Content

/-!
# The definitions in a tree

Names are defined by constants, types, variables and procedures, which belong to a scope, and by
field lists, which do not.  Main statements: every definition in a tree belongs to one of them,
and those of a scope are found without a look into types and expressions.
-/

namespace Oberon

namespace Node

def identDef? : Node → Option IdentDef
  | identDef d => some d
  | _ => none

def declared : Node → List IdentDef
  | constDeclaration d => [d.name]
  | typeDeclaration d => [d.name]
  | variableDeclaration d => d.names
  | procedureDeclaration p => [p.heading.name]
  | _ => []

def fieldNames : Node → List IdentDef
  | fieldList fields => fields.names
  | _ => []

/-! ## Owners -/

/-- The definitions in a node that belong to a node above it. -/
def unowned : Node → List IdentDef
  | identDef d => [d]
  | identDefList names => names
  | procedureHeading h => [h.name]
  | _ => []

theorem unowned_nodes (d : Declarations) : d.nodes.flatMap unowned = [] := by
  simp [Declarations.nodes, unowned, List.flatMap_map]

/-- What the parts of a node leave to it is its own, or it leaves it to the node above. -/
theorem unowned_children (n : Node) : n.identDef?.toList ++ n.children.flatMap unowned =
    n.unowned ++ (n.declared ++ n.fieldNames) := by
  cases n with
  | number value => cases value <;> rfl
  | typeForm t =>
    cases t <;> simp [identDef?, children, unowned, declared, fieldNames, List.flatMap_map]
  | factor f => cases f <;> rfl
  | module m =>
    simp [identDef?, children, unowned, declared, fieldNames, unowned_nodes, List.flatMap_map]
  | procedureDeclaration p =>
    simp [identDef?, children, unowned, declared, fieldNames, unowned_nodes, List.flatMap_map]
  | _ => simp [identDef?, children, unowned, declared, fieldNames, List.flatMap_map]

/-- The definitions in a tree are those that its nodes own and those that the root leaves to
others. -/
theorem perm_identDefs (n : Node) : (n.tree.preorder.filterMap identDef?).Perm
    (n.unowned ++ n.tree.preorder.flatMap fun node => node.declared ++ node.fieldNames) := by
  induction n using Node.induction with
  | step n ih =>
    let owned (node : Node) := node.declared ++ node.fieldNames
    have hparts := List.Perm.flatMap_left n.children ih
    have hsplit := List.flatMap_append_perm n.children unowned fun child =>
      child.tree.preorder.flatMap owned
    have hhere : n.identDef?.toList ++ n.children.flatMap unowned = n.unowned ++ owned n :=
      n.unowned_children
    rw [preorder_eq, List.filterMap_eq_flatMap_toList, List.flatMap_cons, List.flatMap_cons,
      List.flatMap_assoc, List.flatMap_assoc]
    simp only [← List.filterMap_eq_flatMap_toList]
    rw [← List.append_assoc, ← hhere, List.append_assoc]
    exact (hparts.trans hsplit.symm).append_left _

/-! ## Scopes -/

def holdsDeclarations : Node → Bool
  | root _ => true
  | module _ => true
  | constDeclaration _ => true
  | typeDeclaration _ => true
  | variableDeclaration _ => true
  | variableDeclarationList _ => true
  | procedureDeclaration _ => true
  | _ => false

/-- Below a node that holds no declarations none is held. -/
theorem holdsDeclarations_children {n child : Node} (h : n.holdsDeclarations = false)
    (hchild : child ∈ n.children) : child.holdsDeclarations = false := by
  have hall : n.children.all (!·.holdsDeclarations) = true := by
    cases n with
    | root | module | constDeclaration | typeDeclaration | variableDeclaration
    | variableDeclarationList | procedureDeclaration => cases h
    | number value => cases value <;> rfl
    | typeForm t => cases t <;> simp [children, holdsDeclarations]
    | factor f => cases f <;> rfl
    | _ => simp [children, holdsDeclarations]
  simpa using List.all_eq_true.mp hall child hchild

/-- The names that the declarations in a tree define in their scopes. -/
def declaredWithin (n : Node) : List IdentDef :=
  n.tree.preorder.flatMap declared

/-- What is declared within a node is its own and that of its children. -/
theorem declaredWithin_eq (n : Node) :
    n.declaredWithin = n.declared ++ n.children.flatMap declaredWithin := by
  unfold declaredWithin
  rw [preorder_eq, List.flatMap_cons, List.flatMap_assoc]

/-- Types, headings and expressions declare nothing in the scope around them. -/
theorem declaredWithin_eq_nil {n : Node} (h : n.holdsDeclarations = false) :
    n.declaredWithin = [] := by
  induction n using Node.induction with
  | step n ih =>
    have hhere : n.declared = [] := by
      cases n with
      | constDeclaration | typeDeclaration | variableDeclaration | procedureDeclaration => cases h
      | _ => rfl
    have hparts : n.children.flatMap declaredWithin = [] :=
      List.flatMap_eq_nil_iff.mpr fun child hchild =>
        ih child hchild (holdsDeclarations_children h hchild)
    rw [declaredWithin_eq, hhere, hparts, List.nil_append]

theorem declaredWithin_of_children {n : Node}
    (h : ∀ child ∈ n.children, child.holdsDeclarations = false) :
    n.declaredWithin = n.declared := by
  have hparts : n.children.flatMap declaredWithin = [] :=
    List.flatMap_eq_nil_iff.mpr fun child hchild => declaredWithin_eq_nil (h child hchild)
  rw [declaredWithin_eq, hparts, List.append_nil]

theorem declaredWithin_constDeclaration (d : ConstDeclaration) :
    (constDeclaration d).declaredWithin = [d.name] :=
  declaredWithin_of_children (by simp [children, holdsDeclarations])

theorem declaredWithin_typeDeclaration (d : TypeDeclaration) :
    (typeDeclaration d).declaredWithin = [d.name] :=
  declaredWithin_of_children (by simp [children, holdsDeclarations])

theorem declaredWithin_variableDeclarationList (ds : List VariableDeclaration) :
    (variableDeclarationList ds).declaredWithin = ds.flatMap VariableDeclaration.names := by
  have hone (d : VariableDeclaration) : (variableDeclaration d).declaredWithin = d.names :=
    declaredWithin_of_children (by simp [children, holdsDeclarations])
  rw [declaredWithin_eq]
  simp [declared, children, hone, List.flatMap_map]

end Node

def Declarations.preorder (d : Declarations) : List Node :=
  d.nodes.flatMap fun n => n.tree.preorder

def Declarations.declared (d : Declarations) : List IdentDef :=
  d.nodes.flatMap Node.declaredWithin

/-- The definitions in a body are the declared names and the names of fields. -/
theorem Declarations.perm_identDefs (d : Declarations) : (d.preorder.filterMap Node.identDef?).Perm
    (d.declared ++ d.preorder.flatMap Node.fieldNames) := by
  have hunowned : ∀ n ∈ d.nodes, n.unowned = [] := List.flatMap_eq_nil_iff.mp (Node.unowned_nodes d)
  have hnode : ∀ n ∈ d.nodes, (n.tree.preorder.filterMap Node.identDef?).Perm
      (n.declaredWithin ++ n.tree.preorder.flatMap Node.fieldNames) := by
    intro n hn
    have hall := n.perm_identDefs
    rw [hunowned n hn, List.nil_append] at hall
    exact hall.trans (List.flatMap_append_perm _ _ _).symm
  rw [preorder, List.filterMap_flatMap, List.flatMap_assoc]
  exact (List.Perm.flatMap_left _ hnode).trans (List.flatMap_append_perm _ _ _).symm

/-- A procedure declares its name and what its block declares. -/
theorem Node.declaredWithin_procedureDeclaration (p : ProcedureDeclaration) :
    (procedureDeclaration p).declaredWithin = p.heading.name :: p.declarations.declared := by
  have hheading : (procedureHeading p.heading).declaredWithin = [] := declaredWithin_eq_nil rfl
  have hresult (e : Expression) : (expression e).declaredWithin = [] := declaredWithin_eq_nil rfl
  have hend : (identifier p.endName).declaredWithin = [] := declaredWithin_eq_nil rfl
  rw [declaredWithin_eq, Declarations.declared]
  simp [declared, children, hheading, hresult, hend, List.flatMap_map]

/-- The names of a body are those of its constants, types, variables and procedures. -/
theorem Declarations.declared_eq (d : Declarations) : d.declared =
    d.constants.map ConstDeclaration.name ++ d.types.map TypeDeclaration.name ++
      d.vars.flatMap VariableDeclaration.names ++
      d.procedures.flatMap fun p => p.heading.name :: p.declarations.declared := by
  rw [declared, nodes, List.map_eq_flatMap (f := ConstDeclaration.name),
    List.map_eq_flatMap (f := TypeDeclaration.name)]
  simp [Node.declaredWithin_constDeclaration, Node.declaredWithin_typeDeclaration,
    Node.declaredWithin_variableDeclarationList, Node.declaredWithin_procedureDeclaration,
    List.flatMap_map]

end Oberon
