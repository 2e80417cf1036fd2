import BTree.Text.Display

/-!
# Drawing a tree

A tree is drawn as a directed graph in the DOT language: a line for each node, whose label lists the
entries, and a line for each edge from a parent to its child, after the lines of that child.  Nodes
are numbered from zero as they are met, parents first.
-/

namespace BTree

variable {κ ν : Type}

namespace Dot

/-- One statement of the graph. -/
inductive Line (κ ν : Type) where
  | node (id : Nat) (entries : List (Entry κ ν))
  | edge (parent child : Nat)

mutual

/-- The statements for `n` and all below it, with `id` the number of `n`; the answer has the next
free number. -/
def lines (id : Nat) : Node κ ν → List (Line κ ν) × Nat
  | ⟨es, cs⟩ =>
    let (ls, next) := childLines id (id + 1) cs
    (.node id es :: ls, next)

/-- The statements for the children of the node `parent`, numbered from `id`. -/
def childLines (parent id : Nat) : List (Node κ ν) → List (Line κ ν) × Nat
  | [] => ([], id)
  | c :: cs =>
    let (ls, next) := lines id c
    let (ms, last) := childLines parent next cs
    (ls ++ .edge parent id :: ms, last)

end

/-- The statements for a tree. -/
def ofTree (t : Tree κ ν) : List (Line κ ν) :=
  match t.root with
  | none => []
  | some root => (lines 0 root).1

variable [Display κ] [Display ν]

/-- The fields of a label, one for each entry, numbered on from `index`. -/
def fields (index : Nat) : List (Entry κ ν) → List Char
  | [] => []
  | e :: es =>
    "\x7b".toList ++ Display.plain e.key ++ "|<c".toList ++ Decimal.ofNat index ++ "> ".toList ++
      Display.plain e.value ++ "\x7d |".toList ++ fields (index + 1) es

/-- The label of a node with these entries. -/
def label (es : List (Entry κ ν)) : List Char := "<c0> |".toList ++ fields 1 es

def Line.text : Line κ ν → List Char
  | node id es =>
    "\tn".toList ++ Decimal.ofNat id ++ " [label=\"".toList ++ label es ++ "(".toList ++
      Decimal.ofNat id ++ ")\"];\n".toList
  | edge parent child =>
    "\tn".toList ++ Decimal.ofNat parent ++ " -> n".toList ++ Decimal.ofNat child ++ "\n".toList

end Dot

/-- The drawing of the tree. -/
def Tree.dot [Display κ] [Display ν] (t : Tree κ ν) : List Char :=
  "digraph tree \x7b\n\tnode [shape=record];\n".toList ++ (Dot.ofTree t).flatMap Dot.Line.text ++
    ['\x7d']

end BTree
