/-!
# Trees of vertices

Finite trees with a value at each vertex, and their vertices listed from the root downwards.
-/

namespace Oberon

inductive Tree (α : Type) where
  | node (root : α) (children : List (Tree α))

namespace Tree

variable {α : Type}

def leaf (root : α) : Tree α :=
  node root []

def root : Tree α → α
  | node root _ => root

def children : Tree α → List (Tree α)
  | node _ children => children

mutual

def outlineFrom (depth : Nat) : Tree α → List (Nat × α)
  | node root children => (depth, root) :: outlineAll (depth + 1) children

def outlineAll (depth : Nat) : List (Tree α) → List (Nat × α)
  | [] => []
  | tree :: trees => outlineFrom depth tree ++ outlineAll depth trees

end

def outline (tree : Tree α) : List (Nat × α) :=
  tree.outlineFrom 0

def canopy (tree : Tree α) : List (Nat × α) :=
  (0, tree.root) :: tree.children.map fun child => (1, child.root)

def preorder (tree : Tree α) : List α :=
  tree.outline.map Prod.snd

end Tree

end Oberon
