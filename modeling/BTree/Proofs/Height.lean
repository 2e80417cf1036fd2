import BTree.Proofs.History
import Mathlib.Algebra.BigOperators.Ring.List
import Mathlib.Algebra.Order.BigOperators.Group.List
import Mathlib.Analysis.SpecialFunctions.Log.Base

/-!
# Height and number of nodes

The levels of a tree and the number of its nodes are bound to the number of its entries.  Below a
node with `e` entries, `h` levels stand on at least `t` children for each node and at most `2t`; each
node but the top holds `t - 1` to `2t - 1` entries:

    (e + 1) * t ^ (h - 1)  ≤  n.count + 1  ≤  (e + 1) * (2t) ^ (h - 1)     (Levelled.count_bounds)
    t.Reachable, t not empty  →  t.height  ≤  1 + log_t ((t.size + 1) / 2)  (Reachable.size_bounds)
-/

namespace BTree

variable {κ ν : Type}

namespace Node

variable {t h : Nat} {n : Node κ ν}

/-- Every entry of an inner node goes with one of its children, and one child is left over. -/
theorem count_add_one (hlen : n.children.length = n.entries.length + 1) :
    n.count + 1 = (n.children.map fun c => c.count + 1).sum := by
  have hsum : (n.children.map fun c => c.count + 1).sum =
      (n.children.map count).sum + n.children.length := by
    rw [List.sum_map_add, List.map_const', List.sum_replicate, smul_eq_mul, Nat.mul_one]
  rw [hsum, count_eq, ← List.sum_eq_foldr, hlen]
  omega

/-- The entries below a node are at least those of a tree in which each node has `t` children, and
at most those of one in which each has `2t`. -/
theorem Levelled.count_bounds (ht : 1 ≤ t) (hn : n.Levelled (Occupied t) h) :
    (n.entries.length + 1) * t ^ (h - 1) ≤ n.count + 1 ∧
      n.count + 1 ≤ (n.entries.length + 1) * (2 * t) ^ (h - 1) := by
  induction hn with
  | leaf es => simp [count_eq]
  | @inner h es cs hlen hok hcs ih =>
    have hchild : ∀ c ∈ cs, t ^ (h + 1) ≤ c.count + 1 ∧ c.count + 1 ≤ (2 * t) ^ (h + 1) := by
      intro c hc
      obtain ⟨hmin, hmax⟩ := hok c hc
      obtain ⟨hlow, hhigh⟩ := ih c hc
      rw [Nat.add_sub_cancel] at hlow hhigh
      constructor
      · calc t ^ (h + 1) = t * t ^ h := Nat.pow_succ'
          _ ≤ (c.entries.length + 1) * t ^ h := Nat.mul_le_mul_right _ (by omega)
          _ ≤ c.count + 1 := hlow
      · calc c.count + 1 ≤ (c.entries.length + 1) * (2 * t) ^ h := hhigh
          _ ≤ 2 * t * (2 * t) ^ h := Nat.mul_le_mul_right _ (by omega)
          _ = (2 * t) ^ (h + 1) := Nat.pow_succ'.symm
    rw [count_add_one (n := ⟨es, cs⟩) hlen]
    show (es.length + 1) * t ^ (h + 1) ≤ _ ∧ _ ≤ (es.length + 1) * (2 * t) ^ (h + 1)
    rw [← hlen]
    constructor
    · have hle := List.card_nsmul_le_sum (cs.map fun c => c.count + 1) (t ^ (h + 1)) (by
        simpa using fun c hc => (hchild c hc).1)
      simpa using hle
    · have hle := List.sum_le_card_nsmul (cs.map fun c => c.count + 1) ((2 * t) ^ (h + 1)) (by
        simpa using fun c hc => (hchild c hc).2)
      simpa using hle

/-- Each node below the top holds `t - 1` to `2t - 1` of the entries. -/
theorem Levelled.nodeCount_bounds (hn : n.Levelled (Occupied t) h) :
    n.nodeCount * (t - 1) + n.entries.length ≤ n.count + (t - 1) ∧
      n.count + (2 * t - 1) ≤ n.nodeCount * (2 * t - 1) + n.entries.length := by
  induction hn with
  | leaf es => simp [count_eq, nodeCount_eq, Nat.add_comm]
  | @inner h es cs hlen hok hcs ih =>
    have hlow : (cs.map nodeCount).sum * (t - 1) ≤ (cs.map count).sum := by
      rw [← List.sum_map_mul_right]
      refine List.sum_le_sum fun c hc => ?_
      have hmin : t - 1 ≤ c.entries.length := (hok c hc).1
      have hle := (ih c hc).1
      omega
    have hhigh : (cs.map count).sum ≤ (cs.map nodeCount).sum * (2 * t - 1) := by
      rw [← List.sum_map_mul_right]
      refine List.sum_le_sum fun c hc => ?_
      have hmax : c.entries.length ≤ 2 * t - 1 := (hok c hc).2
      have hle := (ih c hc).2
      omega
    have hcount : count ⟨es, cs⟩ = es.length + (cs.map count).sum := count_eq ⟨es, cs⟩
    have hnodes : nodeCount ⟨es, cs⟩ = 1 + (cs.map nodeCount).sum := nodeCount_eq ⟨es, cs⟩
    rw [hcount, hnodes, Nat.add_mul, Nat.add_mul]
    show 1 * (t - 1) + _ + es.length ≤ _ ∧ _ ≤ 1 * (2 * t - 1) + _ + es.length
    omega

end Node

namespace Tree

theorem exists_root {t : Tree κ ν} (hne : t.isEmpty = false) : ∃ root, t.root = some root := by
  cases hroot : t.root with
  | none => simp [isEmpty, hroot] at hne
  | some root => exact ⟨root, rfl⟩

variable [Ord κ] {t : Tree κ ν}

theorem Sound.height_bounds (h : t.Sound) (hne : t.isEmpty = false) :
    2 * t.degree.least ^ (t.height - 1) ≤ t.size + 1 ∧
      t.size + 1 ≤ (2 * t.degree.least) ^ t.height := by
  have ht := t.degree.two_le
  obtain ⟨root, hroot⟩ := exists_root hne
  have hlev := h.levelled root hroot
  obtain ⟨hmin, hmax⟩ := h.root_size root hroot
  have hsize := h.size_eq_count_root hroot
  obtain ⟨hlow, hhigh⟩ := hlev.count_bounds (by omega)
  obtain ⟨g, hg⟩ := hlev.exists_height
  rw [hg, Nat.add_sub_cancel] at hlow hhigh
  rw [hsize, hg, Nat.add_sub_cancel]
  constructor
  · -- the root holds an entry, so it has two children, or would have them
    calc 2 * t.degree.least ^ g ≤ (root.entries.length + 1) * t.degree.least ^ g :=
          Nat.mul_le_mul_right _ (by omega)
      _ ≤ root.count + 1 := hlow
  · calc root.count + 1 ≤ (root.entries.length + 1) * (2 * t.degree.least) ^ g := hhigh
      _ ≤ 2 * t.degree.least * (2 * t.degree.least) ^ g := Nat.mul_le_mul_right _ (by omega)
      _ = (2 * t.degree.least) ^ (g + 1) := Nat.pow_succ'.symm

theorem Sound.height_le_log (h : t.Sound) (hne : t.isEmpty = false) :
    (t.height : ℝ) ≤ 1 + Real.logb t.degree.least ((t.size + 1) / 2) := by
  have hbase : (1 : ℝ) < t.degree.least := by exact_mod_cast t.degree.two_le
  have hsize : (0 : ℝ) < (t.size + 1) / 2 := by positivity
  obtain ⟨hlow, -⟩ := h.height_bounds hne
  have hpow : (t.degree.least : ℝ) ^ (t.height - 1) ≤ (t.size + 1) / 2 := by
    have hlow' : (2 : ℝ) * t.degree.least ^ (t.height - 1) ≤ t.size + 1 := by exact_mod_cast hlow
    linarith
  have hlog : ((t.height - 1 : Nat) : ℝ) ≤ Real.logb t.degree.least ((t.size + 1) / 2) := by
    rw [Real.le_logb_iff_rpow_le hbase hsize, Real.rpow_natCast]
    exact hpow
  have hheight : (t.height : ℝ) ≤ 1 + ((t.height - 1 : Nat) : ℝ) := by
    have hle : t.height ≤ 1 + (t.height - 1) := by omega
    exact_mod_cast hle
  linarith

theorem Sound.nodeCount_bounds (h : t.Sound) (hne : t.isEmpty = false) :
    (t.nodeCount - 1) * (t.degree.least - 1) + 1 ≤ t.size ∧
      t.size ≤ t.nodeCount * (2 * t.degree.least - 1) := by
  obtain ⟨root, hroot⟩ := exists_root hne
  obtain ⟨hmin, hmax⟩ := h.root_size root hroot
  have hsize := h.size_eq_count_root hroot
  have hnodes := nodeCount_of_root hroot
  obtain ⟨hlow, hhigh⟩ := (h.levelled root hroot).nodeCount_bounds
  obtain ⟨m, hm⟩ : ∃ m, root.nodeCount = 1 + m := ⟨_, root.nodeCount_eq⟩
  rw [hm, Nat.add_mul, Nat.one_mul] at hlow hhigh
  rw [hsize, hnodes, hm, Nat.add_sub_cancel_left, Nat.add_mul, Nat.one_mul]
  omega

/-- Whatever was inserted and removed, the levels of a tree and its nodes are few: the height is at
most logarithmic in the number of entries, and no node but the root is less than about half full. -/
theorem Reachable.size_bounds [Std.TransOrd κ] (hr : t.Reachable) :
    (t.isEmpty = false →
      (2 * t.degree.least ^ (t.height - 1) ≤ t.size + 1 ∧
        t.size + 1 ≤ (2 * t.degree.least) ^ t.height) ∧
      (t.height : ℝ) ≤ 1 + Real.logb t.degree.least ((t.size + 1) / 2) ∧
      (t.nodeCount - 1) * (t.degree.least - 1) + 1 ≤ t.size ∧
        t.size ≤ t.nodeCount * (2 * t.degree.least - 1)) ∧
    (t.isEmpty = true → t.size = 0 ∧ t.height = 0 ∧ t.nodeCount = 0) := by
  constructor
  · intro hne
    exact ⟨hr.sound.height_bounds hne, hr.sound.height_le_log hne, hr.sound.nodeCount_bounds hne⟩
  · intro he
    have hroot : t.root = none := Option.isNone_iff_eq_none.1 he
    exact ⟨hr.sound.absent_iff.1 hroot, by simp [height, hroot], by simp [nodeCount, hroot]⟩

/-- Thirteen entries of degree three are left, and they can only stand on two levels. -/
theorem size_bounds_of_degree_three :
    ∃ t : Tree Nat Nat, t.Reachable ∧ t.isEmpty = false ∧ t.degree.least = 3 ∧ t.size = 13 ∧
      t.height = 2 ∧ 3 ≤ t.nodeCount ∧ t.nodeCount ≤ 7 := by
  obtain ⟨s, es, heq, hsound, hdegree, hlist⟩ := update_spec (.empty ⟨3, by decide⟩) (by decide)
    (.extend ((List.range 14).map fun k => (5 * k % 14, k)))
  obtain ⟨t, fs, heq', hsound', hdegree', hlist'⟩ :=
    update_spec hsound (hdegree ▸ by decide) (.remove 7)
  have hr : t.Reachable := .update (.update (.empty _) ⟨es, heq⟩) ⟨fs, heq'⟩
  have hleast : t.degree.least = 3 := congrArg Degree.least (hdegree'.trans hdegree)
  have hsize : t.size = 13 := by
    rw [hsound'.size_eq_length, hlist', hlist]
    decide
  have hne : t.isEmpty = false := by
    cases he : t.isEmpty with
    | false => rfl
    | true =>
      have hzero := hsound'.absent_iff.1 (Option.isNone_iff_eq_none.1 he)
      omega
  obtain ⟨⟨hlow, hhigh⟩, -, hnodes⟩ := (Reachable.size_bounds hr).1 hne
  rw [hleast, hsize] at hlow hhigh hnodes
  refine ⟨t, hr, hne, hleast, hsize, Nat.le_antisymm ?_ ?_, by omega, by omega⟩
  · by_contra hgt
    have hpow : 3 ^ 2 ≤ 3 ^ (t.height - 1) := Nat.pow_le_pow_right (by decide) (by omega)
    omega
  · by_contra hlt
    have hpow : (2 * 3) ^ t.height ≤ (2 * 3) ^ 1 := Nat.pow_le_pow_right (by decide) (by omega)
    omega

end Tree

end BTree
