import Mathlib.Data.List.Basic
import Oberon.Proofs.Syntax.Parts
import Oberon.Proofs.Syntax.Tokens

/-!
# Tokens with content, from node to node

Names, numbers, strings, operators, signs and export marks are the content of a tree; the other
tokens only hold it together.  Every token with content belongs to one node.  Main statement: a
walk over the nodes of a tree, each before those below it, meets the tokens with content in the
order of the source.
-/

namespace Oberon

/-! ## Parts of nodes -/

def Declarations.nodes (d : Declarations) : List Node :=
  d.constants.map .constDeclaration ++ d.types.map .typeDeclaration ++
    .variableDeclarationList d.vars :: d.procedures.map .procedureDeclaration

def Node.children : Node → List Node
  | root m => [.module m]
  | module m =>
    .identifier m.name :: m.imports.toList.map .identifierList ++ m.declarations.nodes ++
      [.identifier m.endName]
  | identifier _ => []
  | identDef _ => []
  | qualident _ => []
  | number (.integer value) => [.integer value]
  | number (.real value) => [.real value]
  | integer _ => []
  | real _ => []
  | string _ => []
  | constDeclaration d => [.identDef d.name, .constExpression d.value]
  | constExpression e => [.expression e]
  | typeDeclaration d => [.identDef d.name, .type d.type]
  | variableDeclaration d => [.identDefList d.names, .type d.type]
  | variableDeclarationList ds => ds.map .variableDeclaration
  | procedureDeclaration p =>
    .procedureHeading p.heading :: p.declarations.nodes ++ p.result.toList.map .expression ++
      [.identifier p.endName]
  | procedureHeading h => .identDef h.name :: h.parameters.toList.map .formalParameters
  | type t => [.typeForm t]
  | typeForm (.named q) => [.qualident q]
  | typeForm (.array lengths element) => [.lengthList lengths, .type element]
  | typeForm (.record base fields) => base.toList.map .baseType ++ [.fieldListSequence fields]
  | typeForm (.pointer target) => [.type target]
  | typeForm (.procedure parameters) => parameters.toList.map .formalParameters
  | baseType q => [.qualident q]
  | fieldList fields => [.identDefList fields.names, .type fields.type]
  | fieldListSequence fields => fields.map .fieldList
  | identDefList names => names.map .identDef
  | length e => [.constExpression e]
  | lengthList lengths => lengths.map .length
  | expression e => [.simpleExpression e]
  | simpleExpression e => .singleTerm e.sign e.first :: e.operations.map .termOperation
  | singleTerm s t => s.toList.map .sign ++ [.term t]
  | termOperation operation => [.addOperator operation.operator, .term operation.right]
  | term t => .factor t.first :: t.operations.map .factorOperation
  | factor (.number n) => [.number n]
  | factor (.string content) => [.string content]
  | factor (.name q) => [.qualident q]
  | factor (.parenthesized e) => [.expression e]
  | addOperator _ => []
  | factorOperation operation => [.factor operation.right]
  | sign _ => []
  | formalParameters p => .parameterSectionList p.sections :: p.result.toList.map .qualident
  | formalType t => [.qualident t.name]
  | parameterSection s => [.identifierList s.names, .formalType s.type]
  | parameterSectionList sections => sections.map .parameterSection
  | identifierList names => names.map .identifier

/-- The trees of the declarations are those of the child nodes. -/
theorem Declarations.trees_eq_map (d : Declarations) : d.trees = d.nodes.map Node.tree := by
  obtain ⟨constants, types, vars, procedures⟩ := d
  rw [Declarations.trees, ProcedureDeclaration.trees_eq_map]
  simp [Declarations.nodes, Node.tree, Function.comp_def]

/-- The tree of a node is the node above the trees of its parts. -/
theorem Node.tree_eq (n : Node) : n.tree = .node n (n.children.map Node.tree) := by
  cases n with
  | number value => cases value <;> rfl
  | typeForm t =>
    cases t with
    | record base fields =>
      simp [Node.tree, TypeExpr.formTree, Node.children, fieldListSequenceTree, Function.comp_def]
    | procedure parameters => simp [Node.tree, TypeExpr.formTree, Node.children, Function.comp_def]
    | _ => rfl
  | factor f => cases f <;> rfl
  | fieldList fields => cases fields; rfl
  | termOperation operation => cases operation; rfl
  | factorOperation operation => cases operation; rfl
  | module m =>
    simp [Node.tree, Module.tree, Node.children, Declarations.trees_eq_map, Function.comp_def]
  | procedureDeclaration p =>
    obtain ⟨heading, declarations, result, endName⟩ := p
    simp [Node.tree, ProcedureDeclaration.tree, Node.children, Declarations.trees_eq_map,
      Function.comp_def]
  | simpleExpression e =>
    obtain ⟨sign, first, operations⟩ := e
    simp [Node.tree, Expression.simpleTree, Node.children, TermOperation.trees_eq_map,
      singleTermTree, Function.comp_def]
  | term t =>
    obtain ⟨first, operations⟩ := t
    simp [Node.tree, Term.tree, Node.children, FactorOperation.trees_eq_map, Function.comp_def]
  | fieldListSequence fields =>
    simp [Node.tree, fieldListSequenceTree, Node.children, FieldList.trees_eq_map,
      Function.comp_def]
  | singleTerm s t => simp [Node.tree, singleTermTree, signTrees, Node.children, Function.comp_def]
  | identifierList names => simp [Node.tree, identifierListTree, Node.children, Function.comp_def]
  | identDefList names => simp [Node.tree, identDefListTree, Node.children, Function.comp_def]
  | lengthList lengths => simp [Node.tree, lengthListTree, Node.children, Function.comp_def]
  | variableDeclarationList ds =>
    simp [Node.tree, variableDeclarationListTree, Node.children, Function.comp_def]
  | parameterSectionList sections =>
    simp [Node.tree, parameterSectionListTree, Node.children, Function.comp_def]
  | procedureHeading h => simp [Node.tree, ProcedureHeading.tree, Node.children, Function.comp_def]
  | formalParameters p => simp [Node.tree, FormalParameters.tree, Node.children, Function.comp_def]
  | _ => rfl

/-- A walk visits the node and then its children. -/
theorem Node.preorder_eq (n : Node) :
    n.tree.preorder = n :: n.children.flatMap fun child => child.tree.preorder := by
  rw [Node.tree_eq, Tree.preorder_node, List.flatMap_map]

/-- What passes from all parts of a node to the node holds of every node. -/
theorem Node.induction {P : Node → Prop} (step : ∀ n, (∀ child ∈ n.children, P child) → P n)
    (n : Node) :
    P n := by
  induction hsize : n.tree.preorder.length using Nat.strongRecOn generalizing n with
  | _ size ih =>
    refine step n fun child hchild => ih _ ?_ child rfl
    have hsublist := List.sublist_flatten_of_mem
      (List.mem_map_of_mem (f := fun c => c.tree.preorder) hchild)
    have hle := hsublist.length_le
    rw [← hsize, Node.preorder_eq n, List.length_cons]
    exact Nat.lt_succ_of_le hle

/-! ## Content -/

/-- A token with content, as opposed to one that only holds others together. -/
def Token.hasContent : Token → Bool
  | .identifier _ => true
  | .integer _ => true
  | .real _ => true
  | .string _ => true
  | .mark symbol => symbol ∈ [Mark.plus, .minus, .times, .slash, .ampersand]
  | .keyword word => word ∈ [Keyword.DIV, .MOD, .OR]
  | .endOfFile => false

/-- The tokens with content of a node that are not those of its parts. -/
def Node.content : Node → List Token
  | identifier name => [.identifier name]
  | identDef d => d.tokens
  | qualident q => q.qualifier.toList.map .identifier ++ [.identifier q.name]
  | integer value => [.integer value]
  | real value => [.real value]
  | string content => [.string content]
  | addOperator operator => [operator.token]
  | factorOperation operation => [operation.operator.token]
  | sign s => [s.token]
  | _ => []

section Filter

variable {p : Token → Bool}

/-- Separators without content do not show among the content. -/
theorem filter_joined {separator : Token} (h : p separator = false) (items : List (List Token)) :
    (joined separator items).filter p = items.flatMap (List.filter p) := by
  induction items with
  | nil => rfl
  | cons item items ih =>
    cases items with
    | nil => simp [joined]
    | cons =>
      rw [joined_cons _ _ (List.cons_ne_nil _ _), List.filter_append,
        List.filter_cons_of_neg (by simp [h]), ih]
      rfl

/-- Headings and semicolons do not show among the content. -/
theorem filter_sectionTokens {heading : Keyword} (hheading : p (.keyword heading) = false)
    (h : p (.mark .semicolon) = false) (items : List (List Token)) :
    (sectionTokens heading items).filter p = items.flatMap (List.filter p) := by
  cases items with
  | nil => rfl
  | cons item items =>
    rw [sectionTokens, List.filter_cons_of_neg (by simp [hheading]), List.filter_flatMap]
    simp [h]

end Filter

/-! ## Operators and names -/

@[simp]
theorem AddOperator.hasContent_token (operator : AddOperator) :
    operator.token.hasContent = true := by
  cases operator <;> rfl

@[simp]
theorem MulOperator.hasContent_token (operator : MulOperator) :
    operator.token.hasContent = true := by
  cases operator <;> rfl

@[simp]
theorem Sign.hasContent_token (sign : Sign) : sign.token.hasContent = true := by
  cases sign <;> rfl

/-- The content of a qualified name is the name without its point. -/
theorem Qualident.filter_tokens (q : Qualident) :
    q.tokens.filter Token.hasContent = (Node.qualident q).content := by
  obtain ⟨qualifier, name⟩ := q
  cases qualifier <;> rfl

/-- A name with its mark is all content. -/
theorem IdentDef.filter_tokens (d : IdentDef) : d.tokens.filter Token.hasContent = d.tokens := by
  obtain ⟨name, exported⟩ := d
  cases exported <;> rfl

/-- The words in front of a formal type have no content. -/
theorem FormalType.filter_tokens (t : FormalType) :
    t.tokens.filter Token.hasContent = (Node.qualident t.name).content := by
  have harrays (dimensions : Nat) : (openArrayTokens dimensions).filter Token.hasContent = [] := by
    induction dimensions with
    | zero => rfl
    | succ dimensions ih => exact ih
  rw [FormalType.tokens, List.filter_append, harrays, List.nil_append, Qualident.filter_tokens]

/-! ## Tokens of parts -/

section Parts

variable {α : Type} {t : Token}

/-- Nodes with a token between them that has no content. -/
theorem Node.filter_tokens_joined (node : α → Node) (h : t.hasContent = false) (items : List α) :
    (joined t (items.map fun x => (node x).tokens)).filter Token.hasContent =
      (items.map node).flatMap fun child => child.tokens.filter Token.hasContent := by
  rw [filter_joined h, List.flatMap_map, List.flatMap_map]

/-- The content of a section is that of its items. -/
theorem Node.filter_tokens_section (node : α → Node) {heading : Keyword}
    (h : (Token.keyword heading).hasContent = false) (items : List α) :
    (sectionTokens heading (items.map fun x => (node x).tokens)).filter Token.hasContent =
      (items.map node).flatMap fun child => child.tokens.filter Token.hasContent := by
  rw [filter_sectionTokens h rfl, List.flatMap_map, List.flatMap_map]

theorem Node.filter_tokens_pair (left right : Node) (h : t.hasContent = false) :
    (left.tokens ++ t :: right.tokens).filter Token.hasContent =
      [left, right].flatMap fun child => child.tokens.filter Token.hasContent := by
  rw [List.filter_append, List.filter_cons_of_neg (by simp [h]), List.flatMap_cons,
    List.flatMap_singleton]

end Parts

/-- The content of declarations is that of the child nodes. -/
theorem Declarations.filter_tokens (d : Declarations) :
    d.tokens.filter Token.hasContent =
      d.nodes.flatMap fun child => child.tokens.filter Token.hasContent := by
  obtain ⟨constants, types, vars, procedures⟩ := d
  rw [Declarations.tokens, ProcedureDeclaration.allTokens_eq_flatMap]
  simp [Declarations.nodes, Node.tokens, filter_sectionTokens, Token.hasContent,
    List.filter_flatMap, List.flatMap_map]

/-- The content of a type is that of the child nodes. -/
theorem TypeExpr.filter_tokens (t : TypeExpr) :
    t.tokens.filter Token.hasContent =
      (Node.typeForm t).children.flatMap fun child => child.tokens.filter Token.hasContent := by
  cases t with
  | array lengths element =>
    rw [TypeExpr.tokens, List.cons_append, List.filter_cons_of_neg (by decide)]
    exact Node.filter_tokens_pair (.lengthList lengths) (.type element) rfl
  | record base fields =>
    simp [Node.tokens, Node.children, TypeExpr.tokens, FieldList.tokenLists_eq_map, baseTokens,
      fieldTokens, Token.hasContent, List.filter_flatMap, List.flatMap_map]
  | procedure parameters =>
    simp [Node.tokens, Node.children, TypeExpr.tokens, parameterTokens, Token.hasContent,
      List.filter_flatMap, List.flatMap_map]
  | _ => simp [Node.tokens, Node.children, TypeExpr.tokens, Token.hasContent]

/-- The tokens with content of a node are its own and then those of its parts. -/
theorem Node.filter_tokens (n : Node) :
    n.tokens.filter Token.hasContent =
      n.content ++ n.children.flatMap fun child => child.tokens.filter Token.hasContent := by
  cases n with
  | module m =>
    rw [Node.tokens, Module.tokens, Node.children, List.flatMap_append, List.flatMap_append,
      ← Declarations.filter_tokens]
    simp [Node.tokens, Node.content, importTokens, Token.hasContent, List.filter_cons,
      List.filter_flatMap, List.flatMap_map]
  | procedureDeclaration p =>
    obtain ⟨heading, declarations, result, endName⟩ := p
    rw [Node.tokens, ProcedureDeclaration.tokens, Node.children, List.flatMap_append,
      List.flatMap_append, List.flatMap_cons, ← Declarations.filter_tokens]
    simp [Node.tokens, Node.content, resultTokens, Token.hasContent, List.filter_cons,
      List.filter_flatMap, List.flatMap_map]
  -- leaves
  | identifier name => rfl
  | integer value => rfl
  | real value => rfl
  | string content => rfl
  | addOperator operator => cases operator <;> rfl
  | sign s => cases s <;> rfl
  | identDef d => exact d.filter_tokens.trans (List.append_nil _).symm
  | qualident q => exact q.filter_tokens.trans (List.append_nil _).symm
  -- lists
  | variableDeclarationList ds => exact Node.filter_tokens_section .variableDeclaration rfl ds
  | fieldListSequence fields => exact Node.filter_tokens_joined .fieldList rfl fields
  | lengthList lengths => exact Node.filter_tokens_joined .length rfl lengths
  | parameterSectionList sections => exact Node.filter_tokens_joined .parameterSection rfl sections
  | identifierList names => exact Node.filter_tokens_joined .identifier rfl names
  | identDefList names => exact Node.filter_tokens_joined .identDef rfl names
  -- names in front of what they stand for
  | constDeclaration d =>
    exact Node.filter_tokens_pair (.identDef d.name) (.constExpression d.value) rfl
  | typeDeclaration d => exact Node.filter_tokens_pair (.identDef d.name) (.type d.type) rfl
  | variableDeclaration d =>
    exact Node.filter_tokens_pair (.identDefList d.names) (.type d.type) rfl
  | fieldList fields =>
    obtain ⟨names, type⟩ := fields
    exact Node.filter_tokens_pair (.identDefList names) (.type type) rfl
  | parameterSection s =>
    obtain ⟨byReference, names, type⟩ := s
    have hbehind := Node.filter_tokens_pair (.identifierList names) (.formalType type)
      (t := .mark .colon) rfl
    cases byReference <;> exact hbehind
  -- expressions
  | simpleExpression e =>
    obtain ⟨sign, first, operations⟩ := e
    simp [Node.tokens, Node.content, Node.children, Expression.tokens,
      TermOperation.allTokens_eq_flatMap, List.filter_flatMap, List.flatMap_map]
  | singleTerm s t =>
    cases s <;> simp [Node.tokens, Node.content, Node.children, signTokens]
  | termOperation operation =>
    obtain ⟨operator, right⟩ := operation
    simp [Node.tokens, Node.content, Node.children, TermOperation.tokens]
  | term t =>
    obtain ⟨first, operations⟩ := t
    simp [Node.tokens, Node.content, Node.children, Term.tokens,
      FactorOperation.allTokens_eq_flatMap, List.filter_flatMap, List.flatMap_map]
  | factorOperation operation =>
    obtain ⟨operator, right⟩ := operation
    simp [Node.tokens, Node.content, Node.children, FactorOperation.tokens]
  | factor f =>
    cases f <;> simp [Node.tokens, Node.content, Node.children, Factor.tokens, Token.hasContent]
  | number value => cases value <;> rfl
  -- types
  | typeForm t => exact t.filter_tokens
  | formalParameters p =>
    simp [Node.tokens, Node.content, Node.children, FormalParameters.tokens, resultTypeTokens,
      Token.hasContent, List.filter_flatMap, List.flatMap_map]
  | formalType t =>
    simp [Node.tokens, Node.content, Node.children, FormalType.filter_tokens,
      Qualident.filter_tokens]
  | procedureHeading h =>
    simp [Node.tokens, Node.content, Node.children, ProcedureHeading.tokens, parameterTokens,
      Token.hasContent, List.filter_flatMap, List.flatMap_map]
  | _ => simp [Node.tokens, Node.content, Node.children]

/-- A walk over a tree meets the tokens with content in the order of the source. -/
theorem Node.filter_tokens_eq_preorder (n : Node) :
    n.tokens.filter Token.hasContent = n.tree.preorder.flatMap Node.content := by
  induction n using Node.induction with
  | step n ih =>
    rw [Node.preorder_eq, List.flatMap_cons, List.flatMap_assoc, Node.filter_tokens]
    congr 1
    exact List.flatMap_congr ih

end Oberon
