import BTree.Fault
import BTree.Proofs.Search
import Mathlib.Order.Bounds.Basic
import Mathlib.Order.Fin.Basic

/-!
# Bisection of any list

On plain indices a bisection could read beyond the list, or find the ends of its bracket crossed.  It
does neither, whatever the list and its order.  What it answers is an item at most `k` that is last,
or has one above `k` next to it.  In an ascending list, where equal keys may repeat, this is the last
item at most `k`, and a search finds the last one that holds `k`:

    floorIndexAt? key xs k = ok i, where i is what floorIndex? key xs k finds    (floorIndexAt?_eq_ok)
    Floors key xs k i   →  xs[j] ≤ k just if j ≤ i                               (Floors.isLE_iff)
    AscendingBy key xs  →  Placed key xs k (search key xs k)                     (search_placed)
-/

namespace BTree

variable {α κ : Type} [Ord κ]

/-! ## Plain indices -/

/-- Halves the bracket from `lo` to `hi` until nothing lies between; its ends must not cross. -/
def bisectAt (key : α → κ) (xs : List α) (k : κ) (lo hi : Nat) : Except Fault Nat :=
  if hi < lo then throw .negative
  else if 1 < hi - lo then do
    let mid := (lo + hi) / 2
    let a ← access xs mid
    if (compare (key a) k).isGT then bisectAt key xs k lo mid else bisectAt key xs k mid hi
  else return lo
termination_by hi - lo

/-- The index of the last item whose key is at most `k`, with every read at an index that has to
exist. -/
def floorIndexAt? (key : α → κ) (xs : List α) (k : κ) : Except Fault (Option Nat) := do
  if xs.isEmpty then return none
  let first ← access xs 0
  if (compare (key first) k).isGT then return none
  let hi ← decrement xs.length
  let last ← access xs hi
  if (compare (key last) k).isLE then return some hi
  return some (← bisectAt key xs k 0 hi)

section
variable {key : α → κ} {xs : List α} {k : κ}

theorem access_val (i : Fin xs.length) : access xs i.val = .ok (xs.get i) :=
  access_eq_ok_iff.2 (List.getElem?_eq_getElem i.isLt)

theorem bisectAt_eq_ok (lo hi : Fin xs.length) (h : lo.val < hi.val) :
    bisectAt key xs k lo.val hi.val = .ok (bisect key xs k lo hi h).val := by
  fun_induction bisect key xs k lo hi h with
  | case1 lo hi h hlt mid hmid ih =>
    have hread : access xs ((lo.val + hi.val) / 2) = .ok (xs.get mid) := access_val mid
    rw [bisectAt, if_neg (by omega), if_pos hlt]
    simp only [hread]
    show (if _ then _ else _) = _
    rw [if_pos hmid]
    exact ih
  | case2 lo hi h hlt mid hmid ih =>
    have hread : access xs ((lo.val + hi.val) / 2) = .ok (xs.get mid) := access_val mid
    rw [bisectAt, if_neg (by omega), if_pos hlt]
    simp only [hread]
    show (if _ then _ else _) = _
    rw [if_neg hmid]
    exact ih
  | case3 lo hi h hlt =>
    rw [bisectAt, if_neg (by omega), if_neg hlt]
    rfl

end

/-- Read at plain indices, the bisection meets no fault, and finds what it finds by type. -/
theorem floorIndexAt?_eq_ok (key : α → κ) (xs : List α) (k : κ) :
    floorIndexAt? key xs k = .ok ((floorIndex? key xs k).map Fin.val) := by
  unfold floorIndexAt? floorIndex?
  by_cases hlen : 0 < xs.length
  · have hempty : xs.isEmpty = false := by
      rw [List.isEmpty_eq_false_iff]
      exact List.ne_nil_of_length_pos hlen
    have hend : xs.length - 1 < xs.length := by omega
    have hdec : decrement xs.length = .ok (xs.length - 1) := decrement_eq_ok_iff.2 (by omega)
    have hfirst : access xs 0 = .ok (xs.get ⟨0, hlen⟩) := access_val ⟨0, hlen⟩
    have hlast : access xs (xs.length - 1) = .ok (xs.get ⟨xs.length - 1, hend⟩) :=
      access_val ⟨xs.length - 1, hend⟩
    rw [dif_pos hlen, hempty, hfirst, hdec]
    simp only [Bool.false_eq_true, if_false, bind, Except.bind, pure, Except.pure, hlast]
    by_cases hmin : (compare (key (xs.get ⟨0, hlen⟩)) k).isGT
    · rw [if_pos hmin, dif_pos hmin]
      rfl
    · rw [if_neg hmin, dif_neg hmin]
      by_cases hmax : (compare (key (xs.get ⟨xs.length - 1, hend⟩)) k).isLE
      · rw [if_pos hmax, dif_pos hmax]
        rfl
      · have hlt : 0 < xs.length - 1 := lt_of_isGT_of_not_isGT (Nat.zero_le _) hmin hmax
        have hbisect : bisectAt key xs k 0 (xs.length - 1) =
            .ok (bisect key xs k ⟨0, hlen⟩ ⟨xs.length - 1, hend⟩ hlt).val :=
          bisectAt_eq_ok ⟨0, hlen⟩ ⟨xs.length - 1, hend⟩ hlt
        rw [if_neg hmax, dif_neg hmax, hbisect]
        rfl
  · obtain rfl : xs = [] := List.eq_nil_of_length_eq_zero (by omega)
    rfl

/-! ## Ascending lists -/

/-- No item has a key above that of a later one; equal keys may repeat. -/
def AscendingBy (key : α → κ) (xs : List α) : Prop :=
  xs.Pairwise fun a b => (compare (key a) (key b)).isLE

instance (key : α → κ) (xs : List α) : Decidable (AscendingBy key xs) :=
  inferInstanceAs (Decidable (xs.Pairwise _))

/-- Where just the first `m` items are as `p` tells, there are `m` of them. -/
theorem countP_eq_of_lt_iff {xs : List α} {p : α → Bool} {m : Nat} (hm : m ≤ xs.length)
    (hp : ∀ j : Fin xs.length, p (xs.get j) = true ↔ j.val < m) : xs.countP p = m := by
  have htake : (xs.take m).countP p = m := by
    have hall : ∀ a ∈ xs.take m, p a = true := by
      intro a ha
      obtain ⟨j, hj, rfl⟩ := List.mem_take_iff_getElem.1 ha
      exact (hp ⟨j, by omega⟩).2 (show j < m by omega)
    rw [List.countP_eq_length.2 hall, List.length_take, Nat.min_eq_left hm]
  have hdrop : (xs.drop m).countP p = 0 := by
    rw [List.countP_eq_zero]
    intro a ha hpa
    obtain ⟨j, hj, rfl⟩ := List.mem_drop_iff_getElem.1 ha
    have hlt : m + j < m := (hp ⟨m + j, by omega⟩).1 hpa
    omega
  rw [← List.take_append_drop m xs, List.countP_append, htake, hdrop, Nat.add_zero]

section
variable [Std.TransOrd κ] {key : α → κ} {xs : List α} {k : κ}

theorem AscendingBy.isLE_get (h : AscendingBy key xs) {i j : Fin xs.length} (hij : i ≤ j) :
    (compare (key (xs.get i)) (key (xs.get j))).isLE := by
  rcases Nat.lt_or_eq_of_le hij with hlt | heq
  · exact List.pairwise_iff_getElem.1 h i j i.isLt j.isLt hlt
  · obtain rfl : i = j := Fin.ext heq
    exact Ordering.isLE_of_eq_eq Std.ReflCmp.compare_self

/-- In an ascending list the items at most `k` are those up to the one that the bisection finds. -/
theorem Floors.isLE_iff {i : Fin xs.length} (hf : Floors key xs k i) (h : AscendingBy key xs)
    (j : Fin xs.length) : (compare (key (xs.get j)) k).isLE ↔ j ≤ i := by
  constructor
  · intro hj
    by_contra hlt
    have hlt : i.val < j.val := Nat.not_le.1 hlt
    have hnext : i.val + 1 < xs.length := by omega
    -- the item next to `i` is above `k`, and the one at `j` is not below it
    have habove := hf.next _ (List.getElem?_eq_getElem hnext)
    have hle : (compare (key xs[i.val + 1]) (key (xs.get j))).isLE :=
      h.isLE_get (i := ⟨i.val + 1, hnext⟩) hlt
    apply Ordering.isLE_iff_ne_gt.1 (Std.TransCmp.isLE_trans hle hj)
    exact Ordering.isGT_iff_eq_gt.1 habove
  · intro hij
    exact Std.TransCmp.isLE_trans (h.isLE_get hij) hf.isLE

/-- Where the first item of an ascending list is above `k`, all are. -/
theorem AscendingBy.above_of_head (h : AscendingBy key xs)
    (hhead : ∀ a ∈ xs.head?, (compare (key a) k).isGT) : ∀ a ∈ xs, compare (key a) k = .gt := by
  intro a ha
  obtain ⟨j, rfl⟩ := List.get_of_mem ha
  have hlen : 0 < xs.length := Nat.lt_of_le_of_lt (Nat.zero_le _) j.isLt
  have hfirst : (compare (key (xs.get ⟨0, hlen⟩)) k).isGT := by
    apply hhead
    rw [List.head?_eq_getElem?]
    exact List.getElem?_eq_getElem hlen
  have hle : (compare (key (xs.get ⟨0, hlen⟩)) (key (xs.get j))).isLE := h.isLE_get (Nat.zero_le _)
  by_contra hne
  apply Ordering.isLE_iff_ne_gt.1 (Std.TransCmp.isLE_trans hle (Ordering.ne_gt_iff_isLE.1 hne))
  exact Ordering.isGT_iff_eq_gt.1 hfirst

/-- In an ascending list the bisection finds the last item at most `k`. -/
theorem floorIndex?_eq_some_iff (h : AscendingBy key xs) (i : Fin xs.length) :
    floorIndex? key xs k = some i ↔ IsGreatest {j | (compare (key (xs.get j)) k).isLE} i := by
  have hgreatest (i : Fin xs.length) (hi : floorIndex? key xs k = some i) :
      IsGreatest {j | (compare (key (xs.get j)) k).isLE} i := by
    have hf := floorIndex?_floors hi
    exact ⟨hf.isLE, fun j hj => (hf.isLE_iff h j).1 hj⟩
  constructor
  · exact hgreatest i
  · intro hi
    cases hfloor : floorIndex? key xs k with
    | none =>
      have hgt := h.above_of_head (floorIndex?_eq_none_iff.1 hfloor) _ (List.get_mem xs i)
      exact absurd hgt (Ordering.isLE_iff_ne_gt.1 hi.1)
    | some j => rw [(hgreatest j hfloor).unique hi]

end

/-! ## Where a key stands -/

/-- Where `k` stands in a list in which it may repeat: at the last item that holds it, or behind all
items below it, if none holds it. -/
inductive Placed (key : α → κ) (xs : List α) (k : κ) : Position xs.length → Prop
  | found {i : Fin xs.length} (hi : IsGreatest {j | compare (key (xs.get j)) k = .eq} i) :
      Placed key xs k (.found i)
  | gap {i : Fin (xs.length + 1)} (hne : ∀ a ∈ xs, compare (key a) k ≠ .eq)
      (hi : i.val = xs.countP fun a => compare (key a) k = .lt) : Placed key xs k (.gap i)

section
variable {key : α → κ} {xs : List α} {k : κ} {pos : Position xs.length}

theorem Placed.found_iff (h : Placed key xs k pos) (i : Fin xs.length) :
    pos = .found i ↔ IsGreatest {j | compare (key (xs.get j)) k = .eq} i := by
  cases h with
  | @found j hj =>
    constructor
    · intro heq
      cases heq
      exact hj
    · intro hi
      rw [hj.unique hi]
  | gap hne hi =>
    constructor
    · intro heq
      cases heq
    · intro hi
      exact absurd hi.1 (hne _ (List.get_mem xs i))

theorem Placed.gap_iff (h : Placed key xs k pos) (i : Fin (xs.length + 1)) :
    pos = .gap i ↔ (∀ a ∈ xs, compare (key a) k ≠ .eq) ∧
      i.val = xs.countP fun a => compare (key a) k = .lt := by
  cases h with
  | @found j hj =>
    constructor
    · intro heq
      cases heq
    · intro hi
      exact absurd hj.1 (hi.1 _ (List.get_mem xs j))
  | @gap j hne hj =>
    constructor
    · intro heq
      cases heq
      exact ⟨hne, hj⟩
    · intro hi
      rw [Fin.ext (hj.trans hi.2.symm)]

/-- Where all items are above `k`, it stands before them. -/
theorem Placed.of_above (habove : ∀ a ∈ xs, compare (key a) k = .gt) :
    Placed key xs k (.gap 0) := by
  have hnone : (xs.countP fun a => compare (key a) k = .lt) = 0 := by
    apply List.countP_eq_zero.2
    intro a ha
    rw [habove a ha]
    decide
  refine .gap (fun a ha => ?_) hnone.symm
  rw [habove a ha]
  decide

variable [Std.TransOrd κ]

/-- Where the last item at most `k` is below it, all items up to that one are, and no other. -/
theorem Floors.placed_of_lt {i : Fin xs.length} (hf : Floors key xs k i) (h : AscendingBy key xs)
    (hlt : compare (key (xs.get i)) k = .lt) : Placed key xs k (.gap i.succ) := by
  have hbelow (j : Fin xs.length) (hj : j ≤ i) : compare (key (xs.get j)) k = .lt :=
    Std.TransCmp.lt_of_isLE_of_lt (h.isLE_get hj) hlt
  have hcount : (xs.countP fun a => compare (key a) k = .lt) = i.val + 1 := by
    apply countP_eq_of_lt_iff (Nat.succ_le_of_lt i.isLt)
    intro j
    rw [decide_eq_true_iff]
    constructor
    · intro hj
      exact Nat.lt_succ_of_le ((hf.isLE_iff h j).1 (Ordering.isLE_of_eq_lt hj))
    · intro hj
      exact hbelow j (Nat.le_of_lt_succ hj)
  refine .gap (fun a ha heq => ?_) hcount.symm
  obtain ⟨j, rfl⟩ := List.get_of_mem ha
  have hji : j ≤ i := (hf.isLE_iff h j).1 (Ordering.isLE_of_eq_eq heq)
  rw [hbelow j hji] at heq
  cases heq

/-- Where the last item at most `k` holds it, none after that does. -/
theorem Floors.placed_of_eq {i : Fin xs.length} (hf : Floors key xs k i) (h : AscendingBy key xs)
    (heq : compare (key (xs.get i)) k = .eq) : Placed key xs k (.found i) :=
  .found ⟨heq, fun j hj => (hf.isLE_iff h j).1 (Ordering.isLE_of_eq_eq hj)⟩

/-- In an ascending list a search finds the last item that holds `k`, or the gap behind those
below it. -/
theorem search_placed (h : AscendingBy key xs) (k : κ) : Placed key xs k (search key xs k) := by
  unfold search
  split
  · next hnone => exact .of_above (h.above_of_head (floorIndex?_eq_none_iff.1 hnone))
  · next i hi =>
    have hf := floorIndex?_floors hi
    rcases Ordering.isLE_iff_eq_lt_or_eq_eq.1 hf.isLE with hlt | heq
    · rw [if_neg (by rw [hlt]; decide)]
      exact hf.placed_of_lt h hlt
    · rw [if_pos (by rw [heq]; rfl)]
      exact hf.placed_of_eq h heq

end

/-- In a list of any order the bisection meets no fault, finds nothing just where the list is empty
or begins above `k`, and otherwise finds an item at most `k` that is last or has one above `k` next
to it.  In an ascending list this is the last item at most `k`; a search finds the last item that
holds `k` and, where there is none, the gap behind all items below. -/
theorem bisection_laws (key : α → κ) (xs : List α) (k : κ) :
    floorIndexAt? key xs k = .ok ((floorIndex? key xs k).map Fin.val) ∧
    (floorIndex? key xs k = none ↔ xs = [] ∨ ∃ a ∈ xs.head?, (compare (key a) k).isGT) ∧
    (∀ i, floorIndex? key xs k = some i → (compare (key (xs.get i)) k).isLE ∧
      (i.val + 1 = xs.length ∨ ∃ b ∈ xs[i.val + 1]?, (compare (key b) k).isGT)) ∧
    (∀ [Std.TransOrd κ], AscendingBy key xs →
      (∀ i, floorIndex? key xs k = some i ↔
        IsGreatest {j | (compare (key (xs.get j)) k).isLE} i) ∧
      (∀ i, search key xs k = .found i ↔ IsGreatest {j | compare (key (xs.get j)) k = .eq} i) ∧
      (∀ i, search key xs k = .gap i ↔ (∀ a ∈ xs, compare (key a) k ≠ .eq) ∧
        i.val = xs.countP fun a => compare (key a) k = .lt)) := by
  refine ⟨floorIndexAt?_eq_ok key xs k, ?_, ?_, ?_⟩
  · rw [floorIndex?_eq_none_iff]
    cases xs <;> simp
  · intro i hi
    have hf := floorIndex?_floors hi
    refine ⟨hf.isLE, ?_⟩
    by_cases hlast : i.val + 1 = xs.length
    · exact .inl hlast
    · have hnext : i.val + 1 < xs.length := by omega
      have hget := List.getElem?_eq_getElem hnext
      exact .inr ⟨_, hget, hf.next _ hget⟩
  · intro _ h
    have hplaced := search_placed h k
    exact ⟨floorIndex?_eq_some_iff h, hplaced.found_iff, hplaced.gap_iff⟩

/-- Four items, of which two hold the same key. -/
def twins : List (Nat × Char) := [(2, 'a'), (4, 'b'), (4, 'c'), (7, 'd')]

/-- Of two items that hold the key the last one is found.  In a list out of order nothing is found
for a key below its first one, and no read is out of range. -/
theorem bisection_laws_of_twins :
    AscendingBy Prod.fst twins ∧ search Prod.fst twins 4 = .found ⟨2, by decide⟩ ∧
    search Prod.fst twins 5 = .gap ⟨3, by decide⟩ ∧
    floorIndex? Prod.fst twins 9 = some ⟨3, by decide⟩ ∧
    floorIndexAt? Prod.fst [(5, 'a'), (2, 'b'), (9, 'c')] 4 = .ok none := by
  have hasc : AscendingBy Prod.fst twins := by decide
  have hfour : ∀ j : Fin twins.length, compare (twins.get j).1 4 = .eq → j ≤ ⟨2, by decide⟩ := by
    decide
  have hnine : ∀ j : Fin twins.length, j ≤ ⟨3, by decide⟩ := by decide
  obtain ⟨hplain, hnone, -⟩ := bisection_laws Prod.fst [(5, 'a'), (2, 'b'), (9, 'c')] 4
  refine ⟨hasc, ?_, ?_, ?_, ?_⟩
  · obtain ⟨-, -, -, hlaws⟩ := bisection_laws Prod.fst twins 4
    exact ((hlaws hasc).2.1 _).2 ⟨rfl, fun j hj => hfour j hj⟩
  · obtain ⟨-, -, -, hlaws⟩ := bisection_laws Prod.fst twins 5
    exact ((hlaws hasc).2.2 _).2 ⟨by decide, by decide⟩
  · obtain ⟨-, -, -, hlaws⟩ := bisection_laws Prod.fst twins 9
    exact ((hlaws hasc).1 _).2 ⟨rfl, fun j _ => hnine j⟩
  · rw [hplain, hnone.2 (.inr ⟨_, rfl, by decide⟩)]
    rfl

end BTree
