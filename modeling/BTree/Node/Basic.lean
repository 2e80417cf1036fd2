import BTree.Degree
import BTree.Edit
import BTree.Weave

/-!
# Entries and nodes

A node holds entries in ascending order of their keys and, unless it is a leaf, one child more than
entries: child `i` stands before entry `i`.  The type also admits malformed nodes, which an
operation takes as they are.

The views of a node are its entries in order (`toList`), their number (`count`), the number of its
nodes (`nodeCount`), its levels (`height` down the leftmost children, `depth` down the deepest), and
the node as seen from the other side (`flip`).
-/

namespace BTree

variable {α κ ν : Type}

/-- A key with its value. -/
structure Entry (κ ν : Type) where
  key : κ
  value : ν
deriving DecidableEq, Repr

/-- Entries are ordered by their keys alone. -/
instance [Ord κ] : Ord (Entry κ ν) := ⟨fun a b => compare a.key b.key⟩

namespace Entry

def toPair (e : Entry κ ν) : κ × ν := (e.key, e.value)

def ofPair (p : κ × ν) : Entry κ ν := ⟨p.1, p.2⟩

/-- The value before, and the entry with `v` in its place. -/
def exchange (e : Entry κ ν) (v : ν) : ν × Entry κ ν := (e.value, { e with value := v })

end Entry

/-- A node of the tree with all that hangs below it. -/
structure Node (κ ν : Type) where
  entries : List (Entry κ ν)
  children : List (Node κ ν)

namespace Node

instance : Inhabited (Node κ ν) := ⟨⟨[], []⟩⟩

/-- A leaf of one entry. -/
def leaf (e : Entry κ ν) : Node κ ν := ⟨[e], []⟩

/-- One entry between two children. -/
def binary (left : Node κ ν) (median : Entry κ ν) (right : Node κ ν) : Node κ ν :=
  ⟨[median], [left, right]⟩

def isLeaf (n : Node κ ν) : Bool := n.children.isEmpty

/-- The node holds the most entries allowed, `2t - 1`. -/
def isFull (t : Nat) (n : Node κ ν) : Except Fault Bool :=
  return (← mostEntries t) ≤ n.entries.length

/-! ## Views -/

/-- The entries in order. -/
def toList : Node κ ν → List (Entry κ ν)
  | ⟨es, cs⟩ => weave es (cs.map fun c => c.toList)

/-- The number of entries. -/
def count : Node κ ν → Nat
  | ⟨es, cs⟩ => es.length + (cs.map fun c => c.count).foldr (· + ·) 0

/-- The number of nodes. -/
def nodeCount : Node κ ν → Nat
  | ⟨_, cs⟩ => 1 + (cs.map fun c => c.nodeCount).foldr (· + ·) 0

/-- The number of levels down the leftmost children. -/
def height : Node κ ν → Nat
  | ⟨_, []⟩ => 1
  | ⟨_, c :: _⟩ => c.height + 1

/-- The number of levels down to the deepest leaf. -/
def depth : Node κ ν → Nat
  | ⟨_, cs⟩ => 1 + (cs.map fun c => c.depth).foldr max 0

/-- The node with left and right exchanged at every level. -/
def flip : Node κ ν → Node κ ν
  | ⟨es, cs⟩ => ⟨es.reverse, (cs.map fun c => c.flip).reverse⟩

/-! ## One child in place -/

/-- Replaces the child at `i` by what `f` makes of it. -/
def atChild (n : Node κ ν) (i : Nat)
    (f : (c : Node κ ν) → c ∈ n.children → Edit (α × Node κ ν)) : Edit (α × Node κ ν) :=
  if h : i < n.children.length then do
    let (a, c) ← f (n.children.get ⟨i, h⟩) (List.get_mem _ _)
    return (a, { n with children := n.children.set i c })
  else .fault .outOfRange

/-! ## Lemmas -/

theorem toList_eq (n : Node κ ν) : n.toList = weave n.entries (n.children.map toList) := by
  obtain ⟨es, cs⟩ := n
  rw [toList]

/-- A node without children reads as its entries. -/
theorem toList_childless (es : List (Entry κ ν)) : toList ⟨es, []⟩ = es := by
  rw [toList_eq, List.map_nil, weave_nil]

theorem toList_leaf (e : Entry κ ν) : (leaf e).toList = [e] := toList_childless [e]

theorem count_eq (n : Node κ ν) :
    n.count = n.entries.length + (n.children.map count).foldr (· + ·) 0 := by
  obtain ⟨es, cs⟩ := n
  rw [count]

theorem nodeCount_eq (n : Node κ ν) :
    n.nodeCount = 1 + (n.children.map nodeCount).foldr (· + ·) 0 := by
  obtain ⟨es, cs⟩ := n
  rw [nodeCount]

/-- What is done to the child at `i` is done in place. -/
theorem atChild_eq_done {n c d : Node κ ν} {i : Nat} {f : Node κ ν → Edit (α × Node κ ν)} {a : α}
    {es : List Event} (hc : n.children[i]? = some c) (hf : f c = .done (a, d) es) :
    (n.atChild i fun c _ => f c) = .done (a, { n with children := n.children.set i d }) es := by
  obtain ⟨hi, hget⟩ := List.getElem?_eq_some_iff.1 hc
  unfold atChild
  rw [dif_pos hi]
  simp only [List.get_eq_getElem, hget, hf, Edit.done_bind, Edit.pure_eq_done, Edit.done_after,
    List.append_nil]

theorem foldr_max_le_iff {b : Nat} {l : List Nat} : l.foldr max 0 ≤ b ↔ ∀ a ∈ l, a ≤ b := by
  induction l with
  | nil => simp
  | cons c l ih =>
    rw [List.foldr_cons, Nat.max_le, ih]
    simp

theorem depth_le_iff {n : Node κ ν} {d : Nat} :
    n.depth ≤ d + 1 ↔ ∀ c ∈ n.children, c.depth ≤ d := by
  obtain ⟨es, cs⟩ := n
  rw [depth, Nat.add_comm, Nat.add_le_add_iff_right, foldr_max_le_iff]
  simp

theorem depth_pos (n : Node κ ν) : 0 < n.depth := by
  obtain ⟨es, cs⟩ := n
  rw [depth]
  omega

theorem depth_lt_of_mem {n c : Node κ ν} (h : c ∈ n.children) : c.depth < n.depth := by
  obtain ⟨d, hd⟩ := Nat.exists_eq_succ_of_ne_zero (Nat.ne_of_gt n.depth_pos)
  have := depth_le_iff.1 (Nat.le_of_eq hd) c h
  omega

/-- A node is no deeper than another if each of its children is no deeper than some child there. -/
theorem depth_le_of_children {n m : Node κ ν}
    (h : ∀ c ∈ n.children, ∃ d ∈ m.children, c.depth ≤ d.depth) : n.depth ≤ m.depth := by
  obtain ⟨d, hd⟩ := Nat.exists_eq_succ_of_ne_zero (Nat.ne_of_gt m.depth_pos)
  rw [hd, depth_le_iff]
  intro c hc
  obtain ⟨e, he, hce⟩ := h c hc
  have := depth_lt_of_mem he
  omega

theorem depth_le_of_subset {n m : Node κ ν} (h : n.children ⊆ m.children) : n.depth ≤ m.depth :=
  depth_le_of_children fun c hc => ⟨c, h hc, Nat.le_refl _⟩

end Node

end BTree
