/-!
# Faults and structural defects

An operation stops with a fault when an index is out of range, when one is taken from zero, when a
number outgrows the machine word, when a key that has to be present is absent, or when a check finds
a defect in the tree.  A sound tree meets none of them but the absent key, as long as the double of
its degree fits a word; a malformed node can meet any.
-/

namespace BTree

/-- What a check of a node or of a whole tree can find wrong. -/
inductive Defect where
  | overflow
  | emptyRoot
  | underflow
  | childCount
  | unsorted
  | belowSeparator
  | aboveSeparator
  | unevenLeaves
  | wrongHeight
  | wrongSize
  | emptyWithSize
deriving DecidableEq, Repr

namespace Defect

def message : Defect → String
  | overflow => "node is overflowing"
  | emptyRoot => "root node is empty"
  | underflow => "node is underflowing"
  | childCount => "internal node has a wrong number of children"
  | unsorted => "node entries are not sorted"
  | belowSeparator => "node entry key is less than left separator"
  | aboveSeparator => "node entry key is greater than right separator"
  | unevenLeaves => "leaves are not all at the same depth"
  | wrongHeight => "wrong height"
  | wrongSize => "wrong length"
  | emptyWithSize => "empty tree with non-zero length"

end Defect

/-- Why an operation stopped. -/
inductive Fault where
  | outOfRange
  | negative
  | overflow
  | absentKey
  | defect (found : Defect)
deriving DecidableEq, Repr

namespace Fault

/-- A fault of plain arithmetic has no text of its own. -/
def message? : Fault → Option String
  | outOfRange => none
  | negative => none
  | overflow => none
  | absentKey => some "no entry found for key"
  | defect found => some found.message

end Fault

variable {α β : Type}

/-- Reads the item at `i`, which has to exist. -/
def access (xs : List α) (i : Nat) : Except Fault α :=
  match xs[i]? with
  | some a => .ok a
  | none => .error .outOfRange

/-- Takes one from `n`, which has to be positive. -/
def decrement : Nat → Except Fault Nat
  | 0 => .error .negative
  | n + 1 => .ok n

/-- Twice `n`, which has to fit a machine word of 64 bits. -/
def double (n : Nat) : Except Fault Nat :=
  if 2 * n < UInt64.size then .ok (2 * n) else .error .overflow

/-! ## Lemmas -/

theorem bind_eq_ok_iff {x : Except Fault α} {f : α → Except Fault β} {b : β} :
    x >>= f = .ok b ↔ ∃ a, x = .ok a ∧ f a = .ok b := by
  cases x <;> simp [bind, Except.bind]

theorem access_eq_ok_iff {xs : List α} {i : Nat} {a : α} :
    access xs i = .ok a ↔ xs[i]? = some a := by
  unfold access
  split <;> simp_all

theorem decrement_eq_ok_iff {n m : Nat} : decrement n = .ok m ↔ n = m + 1 := by
  cases n <;> simp [decrement]

theorem double_eq_ok {n : Nat} (hn : 2 * n < UInt64.size) : double n = .ok (2 * n) := if_pos hn

theorem double_eq_error {n : Nat} (hn : ¬ 2 * n < UInt64.size) :
    double n = .error .overflow := if_neg hn

end BTree
