import BTree.Node.Lookup
import BTree.Node.Split

/-!
# Insertion below a node that has room

The descent splits every full child before it enters it, so a median handed up always finds room.
A key met on the way, the median of a split child included, only takes the new value over.
-/

namespace BTree.Node

variable {κ ν : Type} [Ord κ]

/-! ## Algorithm -/

/-- Inserts `v` under `k`; the answer is the value that it replaces. -/
def insert (t : Nat) (k : κ) (v : ν) (n : Node κ ν) : Edit (Option ν × Node κ ν) :=
  match search Entry.key n.entries k with
  | .found i =>
    let (old, e) := (n.entries.get i).exchange v
    return (some old, { n with entries := n.entries.set i e })
  | .gap i =>
    if n.isLeaf then return (none, { n with entries := n.entries.insertIdx i ⟨k, v⟩ })
    else do
      let c ← access n.children i
      if ← c.isFull t then
        let m ← (n.splitChild i).attach
        let median ← access m.1.entries i
        match compare k median.key with
        | .lt => m.1.atChild i fun c _ => c.insert t k v
        | .eq =>
          let (old, e) := median.exchange v
          return (some old, { m.1 with entries := m.1.entries.set i e })
        | .gt => m.1.atChild (i + 1) fun c _ => c.insert t k v
      else n.atChild i fun c _ => c.insert t k v
termination_by n.depth
decreasing_by
  · exact Nat.lt_of_lt_of_le (depth_lt_of_mem ‹_›) (depth_splitChild_le m.2)
  · exact Nat.lt_of_lt_of_le (depth_lt_of_mem ‹_›) (depth_splitChild_le m.2)
  · exact depth_lt_of_mem ‹_›

/-! ## Lemmas -/

/-- One step of the descent. -/
theorem insert_eq (t : Nat) (k : κ) (v : ν) (n : Node κ ν) :
    n.insert t k v =
      match search Entry.key n.entries k with
      | .found i =>
        pure (some (n.entries.get i).value,
          { n with entries := n.entries.set i { n.entries.get i with value := v } })
      | .gap i =>
        if n.isLeaf then pure (none, { n with entries := n.entries.insertIdx i ⟨k, v⟩ })
        else (do
          let c ← access n.children i
          if ← c.isFull t then
            let m ← n.splitChild i
            let median ← access m.entries i
            match compare k median.key with
            | .lt => m.atChild i fun c _ => c.insert t k v
            | .eq =>
              pure (some median.value,
                { m with entries := m.entries.set i { median with value := v } })
            | .gt => m.atChild (i + 1) fun c _ => c.insert t k v
          else n.atChild i fun c _ => c.insert t k v) := by
  rw [insert]
  cases search Entry.key n.entries k with
  | found i => rfl
  | gap i =>
    simp only [← Edit.attach_bind (n.splitChild i)]
    rfl

end BTree.Node
