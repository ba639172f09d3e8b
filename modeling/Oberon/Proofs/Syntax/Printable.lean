import Oberon.Proofs.Decimal.ReadBack
import Oberon.Proofs.Syntax.Parts
import Oberon.Proofs.Token.Spelling

/-!
# Printable trees

The trees whose source text can be read: their names, numbers and strings can be written, no list
that needs an item is empty, and the nesting is within the limits of the parser.
-/

namespace Oberon

open Scanner (IsIdentifier isStringChar)

/-- The condition that a node puts on what it contains itself. -/
def Node.Printable : Node → Prop
  | identifier name => IsIdentifier name
  | identDef d => IsIdentifier d.name
  | qualident q => IsIdentifier q.name ∧ ∀ qualifier ∈ q.qualifier, IsIdentifier qualifier
  | integer value => 0 ≤ value.toInt
  | real value => Real.IsPlain value
  | string content => ∀ c ∈ content.toList, c ≠ '"' ∧ c ≠ '\n'
  | identDefList names => names ≠ []
  | identifierList names => names ≠ []
  | lengthList lengths => lengths ≠ []
  | formalType t => t.openArrays ≤ maxOpenArrays
  | _ => True

instance (node : Node) : Decidable node.Printable :=
  match node with
  | .identifier name => inferInstanceAs (Decidable (IsIdentifier name))
  | .identDef d => inferInstanceAs (Decidable (IsIdentifier d.name))
  | .qualident q =>
    inferInstanceAs (Decidable (IsIdentifier q.name ∧ ∀ name ∈ q.qualifier, IsIdentifier name))
  | .integer value => inferInstanceAs (Decidable (0 ≤ value.toInt))
  | .real value => inferInstanceAs (Decidable (Real.IsPlain value))
  | .string content => List.decidableBAll (fun c => c ≠ '"' ∧ c ≠ '\n') content.toList
  | .identDefList names => inferInstanceAs (Decidable (names ≠ []))
  | .identifierList names => inferInstanceAs (Decidable (names ≠ []))
  | .lengthList lengths => decidable_of_iff (lengths.isEmpty = false) List.isEmpty_eq_false_iff
  | .formalType t => inferInstanceAs (Decidable (t.openArrays ≤ maxOpenArrays))
  | .root _ | .module _ | .number _ | .constDeclaration _ | .constExpression _ | .typeDeclaration _
  | .variableDeclaration _ | .variableDeclarationList _ | .procedureDeclaration _
  | .procedureHeading _ | .type _ | .typeForm _ | .baseType _ | .fieldList _ | .fieldListSequence _
  | .length _ | .expression _ | .simpleExpression _ | .singleTerm _ _ | .termOperation _ | .term _
  | .factor _ | .addOperator _ | .factorOperation _ | .sign _ | .formalParameters _
  | .parameterSection _ | .parameterSectionList _ => instDecidableTrue

/-- Every node is printable, and no path has more procedures, types and expressions than may
nest. -/
structure Module.Printable (m : Module) : Prop where
  nodes : ∀ node ∈ (Node.root m).tree.preorder, node.Printable
  nesting : (Node.root m).tree.nesting Node.nests ≤ maxNesting

instance (m : Module) : Decidable m.Printable :=
  decidable_of_iff ((∀ node ∈ (Node.root m).tree.preorder, node.Printable) ∧
    (Node.root m).tree.nesting Node.nests ≤ maxNesting)
    ⟨fun h => ⟨h.1, h.2⟩, fun h => ⟨h.nodes, h.nesting⟩⟩

theorem Module.printable_iff {m : Module} :
    m.Printable ↔ (Node.root m).tree.Within Node.Printable Node.nests maxNesting :=
  ⟨fun h => ⟨h.nodes, h.nesting⟩, fun h => ⟨h.1, h.2⟩⟩

end Oberon
