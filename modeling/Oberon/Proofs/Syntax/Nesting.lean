import Mathlib.Logic.Basic
import Oberon.Syntax.Cursor
import Oberon.Syntax.Outline

/-!
# Nesting in trees

How many of the vertices on one path of a tree are of a given sort, and how a property of all
vertices passes to the trees below.  Procedures, types and expressions are the constructs that
nest, and `Tree.WithinLimits` is the bound that a parser puts on them and on open array
dimensions.
-/

namespace Oberon

namespace Tree

variable {α : Type}

mutual

def nesting (counts : α → Bool) : Tree α → Nat
  | node root children => (if counts root then 1 else 0) + nestingAll counts children

def nestingAll (counts : α → Bool) : List (Tree α) → Nat
  | [] => 0
  | tree :: trees => max (nesting counts tree) (nestingAll counts trees)

end

/-- Every vertex satisfies `p`, and no path has more than `n` counted vertices. -/
def Within (p : α → Prop) (counts : α → Bool) (n : Nat) (tree : Tree α) : Prop :=
  (∀ x ∈ tree.preorder, p x) ∧ tree.nesting counts ≤ n

/-- Trees are within a depth exactly if each of them is. -/
theorem nestingAll_le_iff {counts : α → Bool} {trees : List (Tree α)} {n : Nat} :
    nestingAll counts trees ≤ n ↔ ∀ tree ∈ trees, tree.nesting counts ≤ n := by
  induction trees with
  | nil => simp [nestingAll]
  | cons tree trees ih => rw [nestingAll, Nat.max_le, ih, List.forall_mem_cons]

mutual

/-- The vertices of an outline do not depend on the depth at which it starts. -/
theorem map_snd_outlineFrom (tree : Tree α) (depth : Nat) :
    (tree.outlineFrom depth).map Prod.snd = tree.preorder := by
  match tree with
  | node root children =>
    rw [preorder, outline, outlineFrom, outlineFrom, List.map_cons, List.map_cons,
      map_snd_outlineAll children (depth + 1), map_snd_outlineAll children (0 + 1)]

/-- An outline lists the nodes in preorder. -/
theorem map_snd_outlineAll (trees : List (Tree α)) (depth : Nat) :
    (outlineAll depth trees).map Prod.snd = trees.flatMap preorder := by
  match trees with
  | [] => rfl
  | tree :: trees =>
    rw [outlineAll, List.map_append, map_snd_outlineFrom tree depth, map_snd_outlineAll trees depth,
      List.flatMap_cons]

end

theorem preorder_node (root : α) (children : List (Tree α)) :
    (node root children).preorder = root :: children.flatMap preorder := by
  rw [preorder, outline, outlineFrom, List.map_cons, map_snd_outlineAll]

/-- A vertex of a tree is its top or a vertex below. -/
theorem mem_preorder_node {x root : α} {children : List (Tree α)} :
    x ∈ (node root children).preorder ↔ x = root ∨ ∃ child ∈ children, x ∈ child.preorder := by
  rw [preorder_node, List.mem_cons, List.mem_flatMap]

section Within

variable {p : α → Prop} {counts : α → Bool} {n : Nat} {root : α} {children : List (Tree α)}

theorem forall_mem_preorder_node :
    (∀ x ∈ (node root children).preorder, p x) ↔
      p root ∧ ∀ child ∈ children, ∀ x ∈ child.preorder, p x := by
  simp only [mem_preorder_node]
  constructor
  · intro h
    exact ⟨h root (.inl rfl), fun child hchild x hx => h x (.inr ⟨child, hchild, hx⟩)⟩
  · rintro ⟨hroot, hchildren⟩ x (rfl | ⟨child, hchild, hx⟩)
    · exact hroot
    · exact hchildren child hchild x hx

/-- A vertex that is not counted leaves the bound to the trees below it. -/
theorem within_node_of_not_counts (h : counts root = false) :
    (node root children).Within p counts n ↔
      p root ∧ ∀ child ∈ children, child.Within p counts n := by
  simp only [Within, forall_mem_preorder_node, nesting, h, Bool.false_eq_true, ↓reduceIte,
    Nat.zero_add, nestingAll_le_iff, and_assoc]
  exact and_congr_right fun _ => forall₂_and.symm

/-- A counted vertex leaves one less to the trees below it. -/
theorem within_node_of_counts (h : counts root = true) :
    (node root children).Within p counts (n + 1) ↔
      p root ∧ ∀ child ∈ children, child.Within p counts n := by
  have hle : 1 + nestingAll counts children ≤ n + 1 ↔ nestingAll counts children ≤ n := by omega
  simp only [Within, forall_mem_preorder_node, nesting, h, ↓reduceIte, hle, nestingAll_le_iff,
    and_assoc]
  exact and_congr_right fun _ => forall₂_and.symm

/-- Below a bound of zero there is no counted vertex. -/
theorem not_within_zero (h : counts root = true) : ¬ (node root children).Within p counts 0 := by
  simp [Within, nesting, h]

end Within

end Tree

def Node.nests : Node → Bool
  | procedureDeclaration _ => true
  | type _ => true
  | expression _ => true
  | _ => false

/-- No formal type in the tree has more than `openArrays` open array dimensions, and no path holds
more than `nesting` procedures, types and expressions. -/
structure Tree.WithinLimits (nesting openArrays : Nat) (tree : Tree Node) : Prop where
  nesting_le : tree.nesting Node.nests ≤ nesting
  openArrays_le : ∀ formal, Node.formalType formal ∈ tree.preorder → formal.openArrays ≤ openArrays

def Node.FewOpenArrays (openArrays : Nat) : Node → Prop
  | formalType formal => formal.openArrays ≤ openArrays
  | _ => True

/-- The limits as a bound on every node and every path. -/
theorem Tree.withinLimits_iff {nesting openArrays : Nat} {tree : Tree Node} :
    tree.WithinLimits nesting openArrays ↔
      tree.Within (Node.FewOpenArrays openArrays) Node.nests nesting := by
  constructor
  · rintro ⟨hnesting, hopen⟩
    refine ⟨fun n hn => ?_, hnesting⟩
    cases n with
    | formalType formal => exact hopen formal hn
    | _ => trivial
  · rintro ⟨hall, hnesting⟩
    exact ⟨hnesting, fun formal hformal => hall _ hformal⟩

end Oberon
