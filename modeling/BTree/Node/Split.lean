import BTree.Node.Basic

/-!
# Splitting and merging

A node is split around its median; a child split in place hands the median up.  Merging joins two
neighbouring children and the entry between them.  Neither makes the node deeper:

    n.splitChild i     yields m  →  m.depth ≤ n.depth     (depth_splitChild_le)
    n.mergeChildren i  yields m  →  m.depth ≤ n.depth     (depth_mergeChildren_le)
-/

namespace BTree.Node

variable {κ ν : Type}

/-! ## Algorithm -/

/-- The entries before the median, the median, and those after it, with the children among them. -/
def split (n : Node κ ν) : Except Fault (Node κ ν × Entry κ ν × Node κ ν) := do
  let m := (← decrement n.entries.length) / 2
  let median ← access n.entries m
  if n.isLeaf || m < n.children.length then
    return (⟨n.entries.take m, n.children.take (m + 1)⟩, median,
      ⟨n.entries.drop (m + 1), n.children.drop (m + 1)⟩)
  else throw .outOfRange

/-- Splits the child at `i`; its median becomes an entry of this node. -/
def splitChild (n : Node κ ν) (i : Nat) : Edit (Node κ ν) := do
  let c ← access n.children i
  let (left, median, right) ← c.split
  .emit (.splitChild i left.entries.length right.entries.length)
  if i ≤ n.entries.length then
    return ⟨n.entries.insertIdx i median, (n.children.set i left).insertIdx (i + 1) right⟩
  else .fault .outOfRange

/-- The content of both nodes with `separator` between. -/
def append (n : Node κ ν) (separator : Entry κ ν) (other : Node κ ν) : Node κ ν :=
  ⟨n.entries ++ separator :: other.entries, n.children ++ other.children⟩

/-- Joins the child at `i` with its right sibling and the entry between them. -/
def mergeChildren (n : Node κ ν) (i : Nat) : Edit (Node κ ν) := do
  let separator ← access n.entries i
  let right ← access n.children (i + 1)
  let left ← access n.children i
  .emit (.mergeChildren i left.entries.length right.entries.length)
  return ⟨n.entries.eraseIdx i,
    (n.children.eraseIdx (i + 1)).set i (left.append separator right)⟩

/-! ## Lemmas -/

theorem split_eq_ok_iff {n left right : Node κ ν} {median : Entry κ ν} :
    n.split = .ok (left, median, right) ↔
      ∃ m, m = (n.entries.length - 1) / 2 ∧ n.entries[m]? = some median ∧
        (n.isLeaf = true ∨ m < n.children.length) ∧
        left = ⟨n.entries.take m, n.children.take (m + 1)⟩ ∧
        right = ⟨n.entries.drop (m + 1), n.children.drop (m + 1)⟩ := by
  simp only [split, bind_eq_ok_iff, decrement_eq_ok_iff, access_eq_ok_iff]
  constructor
  · rintro ⟨d, hd, e, he, h⟩
    split at h
    · next hm =>
      cases h
      refine ⟨d / 2, by simp [hd], he, ?_, rfl, rfl⟩
      simpa using hm
    · cases h
  · rintro ⟨m, hm, he, hc, rfl, rfl⟩
    obtain ⟨hlt, _⟩ := List.getElem?_eq_some_iff.1 he
    refine ⟨n.entries.length - 1, by omega, median, hm ▸ he, ?_⟩
    rw [← hm, if_pos (by simpa using hc)]
    rfl

theorem split_depth_le {n left right : Node κ ν} {median : Entry κ ν}
    (h : n.split = .ok (left, median, right)) :
    left.depth ≤ n.depth ∧ right.depth ≤ n.depth := by
  obtain ⟨m, -, -, -, rfl, rfl⟩ := split_eq_ok_iff.1 h
  exact ⟨depth_le_of_subset (List.take_subset _ _), depth_le_of_subset (List.drop_subset _ _)⟩

theorem splitChild_yields_iff {n m : Node κ ν} {i : Nat} :
    (n.splitChild i).Yields m ↔
      ∃ c left median right, n.children[i]? = some c ∧ c.split = .ok (left, median, right) ∧
        i ≤ n.entries.length ∧
        m = ⟨n.entries.insertIdx i median,
          (n.children.set i left).insertIdx (i + 1) right⟩ := by
  simp only [splitChild, Edit.yields_bind_iff, Edit.yields_liftM_iff, access_eq_ok_iff]
  constructor
  · rintro ⟨c, hc, ⟨left, median, right⟩, hs, -, -, h⟩
    split at h
    · next hi => exact ⟨c, left, median, right, hc, hs, hi, (Edit.yields_pure_iff.1 h).symm⟩
    · exact absurd h (Edit.not_yields_fault _ _)
  · rintro ⟨c, left, median, right, hc, hs, hi, rfl⟩
    refine ⟨c, hc, (left, median, right), hs, (), ⟨_, rfl⟩, ?_⟩
    rw [if_pos hi]
    exact Edit.yields_pure_iff.2 rfl

theorem depth_splitChild_le {n m : Node κ ν} {i : Nat} (h : (n.splitChild i).Yields m) :
    m.depth ≤ n.depth := by
  obtain ⟨c, left, median, right, hc, hs, -, rfl⟩ := splitChild_yields_iff.1 h
  obtain ⟨hl, hr⟩ := split_depth_le hs
  have hmem := List.mem_of_getElem? hc
  obtain ⟨hi, -⟩ := List.getElem?_eq_some_iff.1 hc
  refine depth_le_of_children fun d hd => ?_
  rcases (List.mem_insertIdx (by simp; omega)).1 hd with rfl | hd
  · exact ⟨c, hmem, hr⟩
  · rcases List.mem_or_eq_of_mem_set hd with hd | rfl
    · exact ⟨d, hd, Nat.le_refl _⟩
    · exact ⟨c, hmem, hl⟩

theorem mergeChildren_yields_iff {n m : Node κ ν} {i : Nat} :
    (n.mergeChildren i).Yields m ↔
      ∃ separator left right, n.entries[i]? = some separator ∧ n.children[i]? = some left ∧
        n.children[i + 1]? = some right ∧
        m = ⟨n.entries.eraseIdx i,
          (n.children.eraseIdx (i + 1)).set i (left.append separator right)⟩ := by
  simp only [mergeChildren, Edit.yields_bind_iff, Edit.yields_liftM_iff, access_eq_ok_iff,
    Edit.yields_pure_iff]
  constructor
  · rintro ⟨separator, hs, right, hr, left, hl, -, -, rfl⟩
    exact ⟨separator, left, right, hs, hl, hr, rfl⟩
  · rintro ⟨separator, left, right, hs, hl, hr, rfl⟩
    exact ⟨separator, hs, right, hr, left, hl, (), ⟨_, rfl⟩, rfl⟩

theorem depth_append_le (n other : Node κ ν) (separator : Entry κ ν) :
    (n.append separator other).depth ≤ max n.depth other.depth := by
  obtain ⟨d, hd⟩ := Nat.exists_eq_succ_of_ne_zero (Nat.ne_of_gt n.depth_pos)
  have hmax : max n.depth other.depth = max d (other.depth - 1) + 1 := by
    have := other.depth_pos
    omega
  rw [hmax, depth_le_iff]
  intro c hc
  rcases List.mem_append.1 hc with hc | hc
  · have := depth_lt_of_mem hc
    omega
  · have := depth_lt_of_mem hc
    omega

theorem depth_mergeChildren_le {n m : Node κ ν} {i : Nat} (h : (n.mergeChildren i).Yields m) :
    m.depth ≤ n.depth := by
  obtain ⟨separator, left, right, -, hl, hr, rfl⟩ := mergeChildren_yields_iff.1 h
  refine depth_le_of_children fun d hd => ?_
  rcases List.mem_or_eq_of_mem_set hd with hd | rfl
  · exact ⟨d, List.mem_of_mem_eraseIdx hd, Nat.le_refl _⟩
  · have := depth_append_le left right separator
    rcases Nat.le_total left.depth right.depth with hle | hle
    · exact ⟨right, List.mem_of_getElem? hr, by omega⟩
    · exact ⟨left, List.mem_of_getElem? hl, by omega⟩

end BTree.Node
