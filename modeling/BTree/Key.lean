/-!
# Key and value types

Besides numbers and strings in their own order, a key can be a number in descending order or a
string whose case does not count.  Two caseless strings can be the same key and yet be spelled
differently.  A value is a number or a string.
-/

namespace BTree

/-- Values of `α` in the opposite order. -/
structure Descending (α : Type) where
  val : α
deriving DecidableEq, Repr

instance {α : Type} [Ord α] : Ord (Descending α) := ⟨fun a b => compare b.val a.val⟩

/-- A string in which `A` to `Z` count as `a` to `z`, and no other letters are the same. -/
structure Caseless where
  spelling : String
deriving DecidableEq, Repr

namespace Caseless

/-- The spelling in lower case, which decides the order. -/
def folded (s : Caseless) : String := s.spelling.map Char.toLower

instance : Ord Caseless := ⟨fun a b => compare a.folded b.folded⟩

end Caseless

/-- A value: the number 1 and the string "1" differ. -/
inductive Scalar where
  | int (n : Int64)
  | text (s : String)
deriving DecidableEq, Repr

end BTree
