import BTree.Node.Fill
import BTree.Node.Lookup

/-!
# Removal below a node

The descent fills every child before it enters it, so that taking an entry never leaves a node
short; this node itself may end empty, over a single child.  An entry with children on both sides
gives way to its neighbour in order, taken from the child that can spare one, or else goes down
between the two children as they are merged.
-/

namespace BTree.Node

variable {κ ν : Type}

/-! ## Algorithm -/

/-- Takes out the leftmost entry. -/
def popFirst (t : Nat) (n : Node κ ν) : Edit (Option (Entry κ ν) × Node κ ν) :=
  if n.isLeaf then return (n.entries.head?, { n with entries := n.entries.tail })
  else do
    let m ← (n.fillChild t 0).attach
    m.1.2.atChild m.1.1 fun c _ => c.popFirst t
termination_by n.depth
decreasing_by exact Nat.lt_of_lt_of_le (depth_lt_of_mem ‹_›) (depth_fillChild_le m.2)

/-- Takes out the rightmost entry. -/
def popLast (t : Nat) (n : Node κ ν) : Edit (Option (Entry κ ν) × Node κ ν) :=
  if n.isLeaf then return (n.entries.getLast?, { n with entries := n.entries.dropLast })
  else do
    let m ← (n.fillChild t (n.children.length - 1)).attach
    m.1.2.atChild m.1.1 fun c _ => c.popLast t
termination_by n.depth
decreasing_by exact Nat.lt_of_lt_of_le (depth_lt_of_mem ‹_›) (depth_fillChild_le m.2)

/-- Takes out the entry at `i` and puts in its place the one that `pop` takes from the child at
`j`; if that child has none, the entry stays. -/
def replaceEntry (n : Node κ ν) (i : Fin n.entries.length) (j : Nat)
    (pop : Node κ ν → Edit (Option (Entry κ ν) × Node κ ν)) :
    Edit (Option (Entry κ ν) × Node κ ν) := do
  match ← n.atChild j fun c _ => pop c with
  | (none, m) => return (none, m)
  | (some e, m) => return (some (n.entries.get i), { m with entries := m.entries.set i e })

/-- Takes out the entry that holds `k`. -/
def remove [Ord κ] (t : Nat) (k : κ) (n : Node κ ν) : Edit (Option (Entry κ ν) × Node κ ν) :=
  match search Entry.key n.entries k with
  | .found i =>
    if n.isLeaf then return (some (n.entries.get i), { n with entries := n.entries.eraseIdx i })
    else do
      let left ← access n.children i
      if t ≤ left.entries.length then n.replaceEntry i i (popLast t)
      else
        let right ← access n.children (i + 1)
        if t ≤ right.entries.length then n.replaceEntry i (i + 1) (popFirst t)
        else
          let m ← (n.mergeChildren i).attach
          m.1.atChild i fun c _ => c.remove t k
  | .gap i =>
    if n.isLeaf then return (none, n)
    else do
      let m ← (n.fillChild t i).attach
      m.1.2.atChild m.1.1 fun c _ => c.remove t k
termination_by n.depth
decreasing_by
  · exact Nat.lt_of_lt_of_le (depth_lt_of_mem ‹_›) (depth_mergeChildren_le m.2)
  · exact Nat.lt_of_lt_of_le (depth_lt_of_mem ‹_›) (depth_fillChild_le m.2)

/-! ## Lemmas -/

/-- One step of the descent to the left. -/
theorem popFirst_eq (t : Nat) (n : Node κ ν) :
    n.popFirst t =
      if n.isLeaf then pure (n.entries.head?, { n with entries := n.entries.tail })
      else (do
        let (j, m) ← n.fillChild t 0
        m.atChild j fun c _ => c.popFirst t) := by
  rw [popFirst, ← Edit.attach_bind (n.fillChild t 0)]

/-- One step of the descent to the right. -/
theorem popLast_eq (t : Nat) (n : Node κ ν) :
    n.popLast t =
      if n.isLeaf then pure (n.entries.getLast?, { n with entries := n.entries.dropLast })
      else (do
        let (j, m) ← n.fillChild t (n.children.length - 1)
        m.atChild j fun c _ => c.popLast t) := by
  rw [popLast, ← Edit.attach_bind (n.fillChild t _)]

/-- One step of the descent to `k`. -/
theorem remove_eq [Ord κ] (t : Nat) (k : κ) (n : Node κ ν) :
    n.remove t k =
      match search Entry.key n.entries k with
      | .found i =>
        if n.isLeaf then pure (some (n.entries.get i), { n with entries := n.entries.eraseIdx i })
        else do
          let left ← access n.children i
          if t ≤ left.entries.length then n.replaceEntry i i (popLast t)
          else
            let right ← access n.children (i + 1)
            if t ≤ right.entries.length then n.replaceEntry i (i + 1) (popFirst t)
            else
              let m ← n.mergeChildren i
              m.atChild i fun c _ => c.remove t k
      | .gap i =>
        if n.isLeaf then pure (none, n)
        else (do
          let (j, m) ← n.fillChild t i
          m.atChild j fun c _ => c.remove t k) := by
  rw [remove]
  cases search Entry.key n.entries k with
  | found i =>
    simp only [← Edit.attach_bind (n.mergeChildren i)]
  | gap i =>
    simp only [← Edit.attach_bind (n.fillChild t i)]

end BTree.Node
