import BTree.Tree.Walk

/-!
# Equality of trees

Two trees are equal when they hold the same keys with the same values in the same order, whatever
their degrees and shapes.  Keys are compared by their order, so a caseless key equals its other
spellings.
-/

namespace BTree.Tree

variable {κ ν : Type}

/-- The same keys, in any spelling, with the same values. -/
def beq [Ord κ] [BEq ν] (s t : Tree κ ν) : Bool :=
  s.size == t.size && s.entries.isEqv t.entries fun a b => (compare a b).isEq && a.value == b.value

instance [Ord κ] [BEq ν] : BEq (Tree κ ν) := ⟨beq⟩

end BTree.Tree
