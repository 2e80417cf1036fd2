import BTree.Degree
import BTree.Node.Check
import BTree.Node.Lookup

/-!
# Sorted maps as trees

A tree is a root node, absent when the map is empty, with its minimum degree and the number of its
entries.  Lookups are those of the root.
-/

namespace BTree

/-- A sorted map from `κ` to `ν`. -/
structure Tree (κ ν : Type) where
  root : Option (Node κ ν)
  degree : Degree
  /-- The number of entries. -/
  size : Nat

namespace Tree

variable {κ ν : Type}

/-- The tree of degree `d` without entries. -/
def empty (d : Degree) : Tree κ ν := ⟨none, d, 0⟩

instance : Inhabited (Tree κ ν) := ⟨empty .standard⟩

def isEmpty (t : Tree κ ν) : Bool := t.root.isNone

/-- The number of levels, none for an empty tree. -/
def height (t : Tree κ ν) : Nat := (t.root.map Node.height).getD 0

def nodeCount (t : Tree κ ν) : Nat := (t.root.map Node.nodeCount).getD 0

/-- The entries in order. -/
def toList (t : Tree κ ν) : List (Entry κ ν) := (t.root.map Node.toList).getD []

def first? (t : Tree κ ν) : Option (Entry κ ν) := t.root.bind Node.first?

def last? (t : Tree κ ν) : Option (Entry κ ν) := t.root.bind Node.last?

theorem height_of_root {t : Tree κ ν} {root : Node κ ν} (hroot : t.root = some root) :
    t.height = root.height := by
  rw [height, hroot]
  rfl

theorem nodeCount_of_root {t : Tree κ ν} {root : Node κ ν} (hroot : t.root = some root) :
    t.nodeCount = root.nodeCount := by
  rw [nodeCount, hroot]
  rfl

variable [Ord κ]

/-- The entry that holds `k`. -/
def entry? (k : κ) (t : Tree κ ν) : Option (Entry κ ν) := t.root.bind (Node.get? k)

/-- The value under `k`. -/
def get? (k : κ) (t : Tree κ ν) : Option ν := (t.entry? k).map Entry.value

def contains (k : κ) (t : Tree κ ν) : Bool := (t.get? k).isSome

/-- The value under `k`, which has to be present. -/
def fetch (k : κ) (t : Tree κ ν) : Except Fault ν :=
  match t.get? k with
  | some v => .ok v
  | none => .error .absentKey

/-- The entry with the greatest key at most `k`. -/
def floor? (k : κ) (t : Tree κ ν) : Option (Entry κ ν) := t.root.bind (Node.floor? k)

/-- The entry with the least key at least `k`. -/
def ceiling? (k : κ) (t : Tree κ ν) : Option (Entry κ ν) := t.root.bind (Node.ceiling? k)

/-- The value that `k` had, and the tree in which it has the value `v`. -/
def store? (k : κ) (v : ν) (t : Tree κ ν) : Option (ν × Tree κ ν) :=
  (t.root.bind (Node.store? k v)).map fun (old, root) => (old, { t with root := some root })

/-- Faults with the first defect met, that of the nodes before that of the figures kept. -/
def check (t : Tree κ ν) : Except Fault Unit := do
  match t.root with
  | none => Node.require (t.size = 0) .emptyWithSize
  | some root =>
    let h ← root.check t.degree.least true none none
    Node.require (h = t.height) .wrongHeight
    Node.require (root.count = t.size) .wrongSize

end Tree

end BTree
