import BTree.Json.Pairs
import BTree.Tree.Codec

/-!
# Trees as JSON

A tree is written as the object of its pairs in order, and read from an object.
-/

namespace BTree

variable {κ ν : Type} [Json.Key κ] [Json.Value ν]

/-- Pairs as the fields of an object. -/
def Json.codec : Codec κ ν (List Char) Refusal := ⟨writePairs, readPairs⟩

namespace Tree

def toJson (t : Tree κ ν) : List Char := t.encode Json.codec

/-- The tree that the text describes, or why the text is refused. -/
def ofJson [Ord κ] (text : List Char) : Edit (Except Json.Refusal (Tree κ ν)) :=
  decode Json.codec text

end Tree

end BTree
