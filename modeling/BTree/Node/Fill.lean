import BTree.Node.Split
import BTree.Node.Rotate

/-!
# Filling a child

Before a removal descends into a child, the child is given an entry to spare: borrowed from a
sibling if one can spare it, or gained by a merge.

    n.fillChild t i  yields (j, m)  →  m.depth ≤ n.depth     (depth_fillChild_le)
-/

namespace BTree.Node

variable {κ ν : Type}

/-! ## Algorithm -/

/-- Sees to it that the child at `i` holds at least `t` entries: it borrows from the left sibling,
or from the right one, or is merged with the right one, or with the left one.  The answer tells
where the child is now. -/
def fillChild (t : Nat) (n : Node κ ν) (i : Nat) : Edit (Nat × Node κ ν) := do
  let c ← access n.children i
  if t ≤ c.entries.length then return (i, n)
  let (moved, n) ← n.rotateRight t i
  if moved then return (i, n)
  let (moved, n) ← n.rotateLeft t i
  if moved then return (i, n)
  if i + 1 < n.children.length then return (i, ← n.mergeChildren i)
  let j ← decrement i
  return (j, ← n.mergeChildren j)

/-! ## Lemmas -/

theorem depth_fillChild_le {t i j : Nat} {n m : Node κ ν} (h : (n.fillChild t i).Yields (j, m)) :
    m.depth ≤ n.depth := by
  simp only [fillChild, Edit.yields_bind_iff] at h
  obtain ⟨c, -, h⟩ := h
  split at h
  · cases Edit.yields_pure_iff.1 h
    exact Nat.le_refl _
  · simp only [Edit.yields_bind_iff] at h
    obtain ⟨⟨b, n₁⟩, h₁, h⟩ := h
    have hle₁ := depth_rotateRight_le h₁
    split at h
    · cases Edit.yields_pure_iff.1 h
      exact hle₁
    · simp only [Edit.yields_bind_iff] at h
      obtain ⟨⟨b, n₂⟩, h₂, h⟩ := h
      have hle₂ := Nat.le_trans (depth_rotateLeft_le h₂) hle₁
      split at h
      · cases Edit.yields_pure_iff.1 h
        exact hle₂
      · split at h
        · simp only [Edit.yields_bind_iff, Edit.yields_pure_iff] at h
          obtain ⟨k, hk, h⟩ := h
          cases h
          exact Nat.le_trans (depth_mergeChildren_le hk) hle₂
        · simp only [Edit.yields_bind_iff, Edit.yields_pure_iff] at h
          obtain ⟨_, -, k, hk, h⟩ := h
          cases h
          exact Nat.le_trans (depth_mergeChildren_le hk) hle₂

end BTree.Node
