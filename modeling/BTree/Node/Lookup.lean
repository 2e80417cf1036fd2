import BTree.Node.Basic
import BTree.Search

/-!
# Lookups below a node

A lookup descends through the gap for its key until an item holds the key or no child stands in the
gap.  `floor?` and `ceiling?` fall back on the nearest entry beside the path, the deepest one first.
`store?` writes a new value into the entry found and leaves all else as it is.
-/

namespace BTree.Node

variable {κ ν : Type}

/-- The leftmost entry. -/
def first? : Node κ ν → Option (Entry κ ν)
  | ⟨es, []⟩ => es.head?
  | ⟨_, c :: _⟩ => c.first?

/-- The rightmost entry. -/
def last? (n : Node κ ν) : Option (Entry κ ν) :=
  match _h : n.children.getLast? with
  | none => n.entries.getLast?
  | some c => c.last?
termination_by n.depth
decreasing_by exact depth_lt_of_mem (List.mem_of_getLast? _h)

variable [Ord κ]

/-- The entry that holds `k`. -/
def get? (k : κ) (n : Node κ ν) : Option (Entry κ ν) :=
  match search Entry.key n.entries k with
  | .found i => some (n.entries.get i)
  | .gap i => if h : i < n.children.length then (n.children.get ⟨i, h⟩).get? k else none
termination_by n.depth
decreasing_by exact depth_lt_of_mem (List.get_mem _ _)

/-- The value that `k` had, and the node in which it has the value `v`. -/
def store? (k : κ) (v : ν) (n : Node κ ν) : Option (ν × Node κ ν) :=
  match search Entry.key n.entries k with
  | .found i =>
    let (old, e) := (n.entries.get i).exchange v
    some (old, { n with entries := n.entries.set i e })
  | .gap i =>
    if h : i < n.children.length then
      ((n.children.get ⟨i, h⟩).store? k v).map fun (old, c) =>
        (old, { n with children := n.children.set i c })
    else none
termination_by n.depth
decreasing_by exact depth_lt_of_mem (List.get_mem _ _)

/-- The entry with the greatest key at most `k`. -/
def floor? (k : κ) (n : Node κ ν) : Option (Entry κ ν) :=
  match search Entry.key n.entries k with
  | .found i => some (n.entries.get i)
  | .gap i =>
    let beside := (n.entries.take i).getLast?
    if h : i < n.children.length then ((n.children.get ⟨i, h⟩).floor? k).or beside
    else beside
termination_by n.depth
decreasing_by exact depth_lt_of_mem (List.get_mem _ _)

/-- The entry with the least key at least `k`. -/
def ceiling? (k : κ) (n : Node κ ν) : Option (Entry κ ν) :=
  match search Entry.key n.entries k with
  | .found i => some (n.entries.get i)
  | .gap i =>
    let beside := (n.entries.drop i).head?
    if h : i < n.children.length then ((n.children.get ⟨i, h⟩).ceiling? k).or beside
    else beside
termination_by n.depth
decreasing_by exact depth_lt_of_mem (List.get_mem _ _)

end BTree.Node
