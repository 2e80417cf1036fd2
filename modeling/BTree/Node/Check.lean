import BTree.Node.Basic

/-!
# Checking a node

`check t isRoot lower upper n` answers the height of a node that is sound for the minimum degree
`t` with all its keys strictly between the bounds given, and otherwise faults with the first defect
met: those of the node itself, in a fixed order, then those of its children from left to right, each
with the entries around it as bounds.
-/

namespace BTree

variable {κ ν : Type} [Ord κ]

/-- Each key is below the next. -/
def ascending : List κ → Bool
  | a :: b :: ks => (compare a b).isLT && ascending (b :: ks)
  | _ => true

namespace Node

/-- Faults with the defect unless the condition holds. -/
def require (holds : Bool) (d : Defect) : Except Fault Unit :=
  if holds then .ok () else .error (.defect d)

/-- The checks of one node: the occupancy, the number of children, and the order of the keys. -/
def checkEntries (t : Nat) (isRoot : Bool) (lower upper : Option κ) (n : Node κ ν) :
    Except Fault Unit := do
  require (n.entries.length ≤ (← mostEntries t)) .overflow
  if isRoot then require (!n.entries.isEmpty) .emptyRoot
  else require (t ≤ n.entries.length + 1) .underflow
  require (n.isLeaf || n.children.length = n.entries.length + 1) .childCount
  require (ascending (n.entries.map Entry.key)) .unsorted
  let first := n.entries.head?.map Entry.key
  let last := n.entries.getLast?.map Entry.key
  require (lower.all fun k => first.all fun a => (compare k a).isLT) .belowSeparator
  require (upper.all fun k => last.all fun b => (compare k b).isGT) .aboveSeparator

mutual

/-- The height of a sound node. -/
def check (t : Nat) (isRoot : Bool) (lower upper : Option κ) : Node κ ν → Except Fault Nat
  | ⟨es, cs⟩ => do
    checkEntries t isRoot lower upper ⟨es, cs⟩
    return (← checkChildren t lower upper es none cs).getD 0 + 1

/-- The common height of the children of a node, the first of them between `lower` and the first of
the entries `es`; `height` is that of the children before. -/
def checkChildren (t : Nat) (lower upper : Option κ) (es : List (Entry κ ν)) (height : Option Nat) :
    List (Node κ ν) → Except Fault (Option Nat)
  | [] => return height
  | c :: cs => do
    let separator := es.head?.map Entry.key
    let h ← c.check t false lower (separator.or upper)
    require (height.all (· = h)) .unevenLeaves
    checkChildren t (separator.or lower) upper es.tail (some h) cs

end

end Node

end BTree
