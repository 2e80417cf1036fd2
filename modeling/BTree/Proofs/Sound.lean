import BTree.Proofs.Check
import BTree.Proofs.Lookup
import BTree.Tree.Basic

/-!
# Sound trees

A tree is sound when its root is missing just if it is empty, its nodes hold as many entries as its
degree allows and as many children as they need, its leaves are level, its keys ascend, and its size
is the number of its entries.  Just such trees pass their own check, as long as `2t - 1` fits a word,
and a lookup finds what the list of the entries holds:

    t.check = ok ()  ↔  t is sound                   (Sound.check_eq_ok_iff)
    t.entry? k = Association.find? k t.toList        (Sound.entry?_eq)
-/

namespace BTree.Tree

variable {κ ν : Type} [Ord κ]

/-- The tree represents a sorted map. -/
structure Sound (t : Tree κ ν) : Prop where
  absent_iff : t.root = none ↔ t.size = 0
  /-- The root is not empty and not too large. -/
  root_size : ∀ n ∈ t.root, 1 ≤ n.entries.length ∧ n.entries.length ≤ 2 * t.degree.least - 1
  /-- Below the root nodes hold `t - 1` to `2t - 1` entries; inner nodes have one child more than
  entries, and all leaves are at one depth. -/
  levelled : ∀ n ∈ t.root, n.Levelled (Occupied t.degree.least) t.height
  ascending : Ascending t.toList
  size_eq_count : t.size = (t.root.map Node.count).getD 0

namespace Sound

variable {t : Tree κ ν}

/-- A tree is sound if its root is. -/
theorem of_root {root : Node κ ν} {h : Nat} (hroot : t.root = some root)
    (hn : root.Levelled (Occupied t.degree.least) h) (hmin : 1 ≤ root.entries.length)
    (hmax : root.entries.length ≤ 2 * t.degree.least - 1) (hasc : Ascending root.toList)
    (hsize : t.size = root.toList.length) : t.Sound where
  absent_iff := by
    have hle : root.entries.length ≤ root.toList.length := root.entries_sublist.length_le
    rw [hroot, hsize]
    constructor
    · intro hnone
      cases hnone
    · intro hzero
      omega
  root_size n hmem := by
    obtain rfl : root = n := Option.some.inj (hroot ▸ hmem)
    exact ⟨hmin, hmax⟩
  levelled n hmem := by
    obtain rfl : root = n := Option.some.inj (hroot ▸ hmem)
    rw [height_of_root hroot, hn.height_eq]
    exact hn
  ascending := by
    rw [toList, hroot]
    exact hasc
  size_eq_count := by
    rw [hsize, hroot, Option.map_some, Option.getD_some, Node.count_eq_length_toList hn]

theorem of_absent (hroot : t.root = none) (hsize : t.size = 0) : t.Sound where
  absent_iff := by simp [hroot, hsize]
  root_size n hmem := by simp [hroot] at hmem
  levelled n hmem := by simp [hroot] at hmem
  ascending := by
    rw [toList, hroot]
    exact ascending_nil
  size_eq_count := by simp [hroot, hsize]

theorem empty (d : Degree) : (Tree.empty d : Tree κ ν).Sound := of_absent rfl rfl

/-- A tree of a single entry is sound. -/
theorem leaf (d : Degree) (e : Entry κ ν) : (⟨some (.leaf e), d, 1⟩ : Tree κ ν).Sound := by
  have hlev : (Node.leaf e).Levelled (Occupied d.least) 1 := .leaf _
  have hlist : (Node.leaf e).toList = [e] := Node.toList_leaf e
  refine .of_root rfl hlev (Nat.le_refl 1) ?_ ?_ ?_
  · show 1 ≤ 2 * d.least - 1
    have htwo := d.two_le
    omega
  · rw [hlist]
    exact ascending_cons.2 ⟨by simp, ascending_nil⟩
  · rw [hlist]
    rfl

theorem ascending_root {root : Node κ ν} (h : t.Sound) (hroot : t.root = some root) :
    Ascending root.toList := by
  have hasc := h.ascending
  rwa [toList, hroot] at hasc

theorem size_eq_count_root {root : Node κ ν} (h : t.Sound) (hroot : t.root = some root) :
    t.size = root.count := by
  rw [h.size_eq_count, hroot]
  rfl

theorem size_eq_length (h : t.Sound) : t.size = t.toList.length := by
  rw [h.size_eq_count, toList]
  cases hroot : t.root with
  | none => rfl
  | some root => exact Node.count_eq_length_toList (h.levelled root hroot)

theorem isEmpty_eq_false_iff (h : t.Sound) : t.isEmpty = false ↔ t.toList ≠ [] := by
  rw [isEmpty, Ne, ← List.length_eq_zero_iff, ← h.size_eq_length, ← h.absent_iff]
  cases t.root <;> simp

section
variable [Std.TransOrd κ]

theorem entry?_eq (h : t.Sound) (k : κ) : t.entry? k = Association.find? k t.toList := by
  have hasc := h.ascending
  unfold entry?
  rw [toList] at hasc ⊢
  cases hroot : t.root with
  | none => rfl
  | some root =>
    rw [hroot] at hasc
    exact Node.get?_eq k (h.levelled root hroot) hasc

/-- The check of a tree finds no defect just in a sound one. -/
theorem check_eq_ok_iff (hw : InWord t.degree.least) : t.check = .ok () ↔ t.Sound := by
  obtain ⟨root, d, size⟩ := t
  have ht : 1 ≤ d.least := Nat.le_of_succ_le d.two_le
  cases root with
  | none =>
    rw [check, Node.require_eq_ok_iff, decide_eq_true_iff]
    exact ⟨fun hsize => .of_absent rfl hsize, fun h => h.absent_iff.1 rfl⟩
  | some root =>
    simp only [check, bind_eq_ok_iff (x := root.check ..), Node.require_bind_eq_ok_iff,
      Node.require_eq_ok_iff, decide_eq_true_iff, Node.check_eq_ok_iff ht hw, ascends_unbounded_iff]
    constructor
    · rintro ⟨h, ⟨⟨hmax, hne⟩, hn, hasc⟩, -, hsize⟩
      have hmin : 1 ≤ root.entries.length := List.length_pos_iff.2 hne
      have hcount : root.count = root.toList.length := Node.count_eq_length_toList hn
      exact .of_root rfl hn hmin hmax hasc (hsize.symm.trans hcount)
    · intro h
      obtain ⟨hmin, hmax⟩ := h.root_size root rfl
      have hne : root.entries ≠ [] := List.length_pos_iff.1 hmin
      exact ⟨_, ⟨⟨hmax, hne⟩, h.levelled root rfl, h.ascending⟩, rfl, h.size_eq_count.symm⟩

theorem check_eq_ok (h : t.Sound) (hw : InWord t.degree.least) : t.check = .ok () :=
  (check_eq_ok_iff hw).2 h

end

end Sound

end BTree.Tree
