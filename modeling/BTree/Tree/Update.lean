import BTree.Node.Insertion
import BTree.Node.Removal
import BTree.Tree.Basic

/-!
# Updates of a tree

An update works on the root and then settles the figures kept beside it.  A key that is present
takes a new value over in place; only a new key can split nodes, the root first if it is full.  A
removal that leaves the root without entries hands the tree over to the root's child.
-/

namespace BTree.Tree

variable {κ ν : Type}

/-! ## Removal at the ends -/

/-- The tree with `root` after a removal, with the root shrunk and the size lowered as needed. -/
def settle (t : Tree κ ν) (removed : Option (Entry κ ν)) (root : Node κ ν) :
    Edit (Option (Entry κ ν) × Tree κ ν) := do
  let root ←
    if root.entries.isEmpty then
      let next := root.children.head?
      .emit (.shrinkRoot ((next.map Node.height).getD 0))
      pure next
    else pure (some root)
  let size ← if removed.isSome then decrement t.size else pure t.size
  return (removed, { t with root := root, size := size })

/-- Runs a removal on the root, if there is one. -/
def removing (t : Tree κ ν) (take : Node κ ν → Edit (Option (Entry κ ν) × Node κ ν)) :
    Edit (Option (Entry κ ν) × Tree κ ν) :=
  match t.root with
  | none => return (none, t)
  | some root => do
    let (removed, root) ← take root
    t.settle removed root

/-- Takes out the first entry. -/
def popFirst (t : Tree κ ν) : Edit (Option (Entry κ ν) × Tree κ ν) :=
  t.removing (Node.popFirst t.degree.least)

/-- Takes out the last entry. -/
def popLast (t : Tree κ ν) : Edit (Option (Entry κ ν) × Tree κ ν) :=
  t.removing (Node.popLast t.degree.least)

/-- Takes out all entries at once. -/
def clear (t : Tree κ ν) : Edit (Tree κ ν) := do
  .emit (.clear t.size)
  return { t with root := none, size := 0 }

/-! ## Insertion and removal by key -/

variable [Ord κ]

/-- Takes out the entry that holds `k`. -/
def removeEntry (k : κ) (t : Tree κ ν) : Edit (Option (Entry κ ν) × Tree κ ν) :=
  t.removing (Node.remove t.degree.least k)

/-- Takes out the entry that holds `k`; the answer is its value. -/
def remove (k : κ) (t : Tree κ ν) : Edit (Option ν × Tree κ ν) := do
  let (removed, t) ← t.removeEntry k
  return (removed.map Entry.value, t)

/-- A root with room for an entry: a full one is split under a new root. -/
def openRoot (t : Tree κ ν) (root : Node κ ν) : Edit (Node κ ν) := do
  if ← root.isFull t.degree.least then
    let (left, median, right) ← root.split
    .emit (.splitRoot t.size)
    return .binary left median right
  else return root

/-- Inserts `v` under `k`; the answer is the value that it replaces.  A key that is present keeps
its spelling. -/
def insert (k : κ) (v : ν) (t : Tree κ ν) : Edit (Option ν × Tree κ ν) :=
  match t.store? k v with
  | some (old, t) => return (some old, t)
  | none =>
    match t.root with
    | none => return (none, { t with root := some (.leaf ⟨k, v⟩), size := t.size + 1 })
    | some root => do
      let (old, root) ← (← t.openRoot root).insert t.degree.least k v
      let size := if old.isNone then t.size + 1 else t.size
      return (old, { t with root := some root, size := size })

/-- Inserts the pairs one after another. -/
def insertMany (t : Tree κ ν) : List (κ × ν) → Edit (Tree κ ν)
  | [] => return t
  | (k, v) :: ps => do
    let (_, t) ← t.insert k v
    t.insertMany ps

/-- The tree of standard degree into which the pairs are inserted one after another. -/
def ofList (ps : List (κ × ν)) : Edit (Tree κ ν) := (empty .standard).insertMany ps

end BTree.Tree
