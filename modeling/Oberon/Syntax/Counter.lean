import Oberon.Syntax.Outline

/-!
# Counting nodes

A counter visits the nodes of a tree, each before those below it.  It keeps the kinds in the order
of its visits and, next to that, how often it has met each of them.  It goes on counting when it
visits another tree.
-/

namespace Oberon

structure Counter where
  /-- The kinds of the visited nodes. -/
  order : Array NodeKind
  /-- The kinds met so far, each with the number of its nodes. -/
  counts : List (NodeKind × Nat)

namespace Counter

def empty : Counter :=
  ⟨#[], []⟩

def tally (kind : NodeKind) : List (NodeKind × Nat) → List (NodeKind × Nat)
  | [] => [(kind, 1)]
  | (other, count) :: others =>
    if kind = other then (other, count + 1) :: others else (other, count) :: tally kind others

def record (c : Counter) (kind : NodeKind) : Counter where
  order := c.order.push kind
  counts := tally kind c.counts

mutual

def visit (c : Counter) : Tree Node → Counter
  | .node n children => (c.record n.kind).visitAll children

def visitAll (c : Counter) : List (Tree Node) → Counter
  | [] => c
  | tree :: trees => (c.visit tree).visitAll trees

end

def ofNode (n : Node) : Counter :=
  empty.visit n.tree

def count (c : Counter) (kind : NodeKind) : Nat :=
  (c.counts.lookup kind).getD 0

def total (c : Counter) : Nat :=
  c.order.size

def census (c : Counter) : List (NodeKind × Nat) :=
  NodeKind.all.filterMap fun kind => (c.counts.lookup kind).map (kind, ·)

end Counter

end Oberon
