import BTree.Proofs.Levels
import BTree.Search

/-!
# What a search finds

Bisection keeps an item at most `k` at its lower end and one above `k` at its upper end, whether the
list is sorted or not; in ascending entries the two ends it stops at cut the list in two.  In a node
the search is over, or goes on in one child:

    floorIndex? key xs k = some i  →  xs[i] ≤ k, and the item after it, if any, is above k
    Ascending es     →  Located k es (search Entry.key es k)                (search_located)
    Brackets l r k   →  search Entry.key (l ++ r) k = gap l.length          (search_gap)
    n.Levelled ok h  →  Reached ok k h n (search Entry.key n.entries k)     (search_reached)
-/

namespace BTree

variable {α κ ν : Type} [Ord κ]

/-! ## Bisection -/

/-- The item at `i` is at most `k`, and the one after it, if any, is above. -/
structure Floors (key : α → κ) (xs : List α) (k : κ) (i : Fin xs.length) : Prop where
  isLE : (compare (key (xs.get i)) k).isLE
  next : ∀ b ∈ xs[i.val + 1]?, (compare (key b) k).isGT

theorem isLE_of_not_isGT {o : Ordering} (h : ¬ o.isGT) : o.isLE := by
  cases o <;> simp at h ⊢

theorem bisect_floors {key : α → κ} {xs : List α} {k : κ} {lo hi : Fin xs.length}
    {h : lo.val < hi.val} (hlo : (compare (key (xs.get lo)) k).isLE)
    (hhi : (compare (key (xs.get hi)) k).isGT) : Floors key xs k (bisect key xs k lo hi h) := by
  fun_induction bisect key xs k lo hi h with
  | case1 lo hi h hlt mid hmid ih => exact ih hlo hmid
  | case2 lo hi h hlt mid hmid ih => exact ih (isLE_of_not_isGT hmid) hhi
  | case3 lo hi h hlt =>
    -- the bracket holds nothing between its ends, so the item after `lo` is the one at `hi`
    refine ⟨hlo, fun b hb => ?_⟩
    have heq : lo.val + 1 = hi.val := by omega
    have hget : xs[lo.val + 1]? = some (xs.get hi) := by
      rw [heq]
      exact List.getElem?_eq_getElem hi.isLt
    rw [hget, Option.mem_some_iff] at hb
    rw [← hb]
    exact hhi

theorem floorIndex?_floors {key : α → κ} {xs : List α} {k : κ} {i : Fin xs.length}
    (h : floorIndex? key xs k = some i) : Floors key xs k i := by
  unfold floorIndex? at h
  split at h
  · next hlen =>
    simp only at h
    split at h
    · cases h
    · next hfirst =>
      split at h
      · next hlast =>
        cases h
        refine ⟨hlast, fun b hb => ?_⟩
        have hend : xs[xs.length - 1 + 1]? = none := by
          rw [List.getElem?_eq_none]
          omega
        rw [hend] at hb
        cases hb
      · next hlast =>
        cases h
        refine bisect_floors (isLE_of_not_isGT hfirst) ?_
        revert hlast
        cases compare (key (xs.get ⟨xs.length - 1, _⟩)) k <;> decide
  · cases h

theorem floorIndex?_eq_none_iff {key : α → κ} {xs : List α} {k : κ} :
    floorIndex? key xs k = none ↔ ∀ a ∈ xs.head?, (compare (key a) k).isGT := by
  unfold floorIndex?
  split
  · next hlen =>
    have hhead : xs.head? = some (xs.get ⟨0, hlen⟩) := by
      rw [List.head?_eq_getElem?]
      exact List.getElem?_eq_getElem hlen
    simp only [hhead, Option.mem_some_iff, forall_eq']
    split
    · next hfirst => exact ⟨fun _ => hfirst, fun _ => rfl⟩
    · next hfirst =>
      refine ⟨fun h => ?_, fun h => absurd h hfirst⟩
      split at h <;> cases h
  · next hlen =>
    have hnil : xs = [] := List.eq_nil_of_length_eq_zero (by omega)
    simp [hnil]

/-! ## Search -/

/-- Where `k` stands among entries: at one that holds an equal key, or in the gap between those
below it and those above. -/
inductive Located (k : κ) (es : List (Entry κ ν)) : Position es.length → Prop
  | found {l r : List (Entry κ ν)} {e : Entry κ ν} {i : Fin es.length} (hes : es = l ++ e :: r)
      (hi : i.val = l.length) (he : compare k e.key = .eq) : Located k es (.found i)
  | gap {l r : List (Entry κ ν)} {i : Fin (es.length + 1)} (hes : es = l ++ r)
      (hi : i.val = l.length) (hb : Brackets l r k) : Located k es (.gap i)

/-- A list is cut in one place only between items that lie below `k` and items that do not. -/
theorem length_eq_of_below {l r l' r' : List (Entry κ ν)} {k : κ} (heq : l ++ r = l' ++ r')
    (hl : ∀ a ∈ l, compare a.key k = .lt) (hr : ∀ b ∈ r, compare b.key k ≠ .lt)
    (hl' : ∀ a ∈ l', compare a.key k = .lt) (hr' : ∀ b ∈ r', compare b.key k ≠ .lt) :
    l.length = l'.length := by
  have hcount {l r : List (Entry κ ν)} (hl : ∀ a ∈ l, compare a.key k = .lt)
      (hr : ∀ b ∈ r, compare b.key k ≠ .lt) :
      (l ++ r).countP (fun a => compare a.key k = .lt) = l.length := by
    rw [List.countP_append, List.countP_eq_length.2 (by simpa using hl),
      List.countP_eq_zero.2 (by simpa using hr), Nat.add_zero]
  rw [← hcount hl hr, heq, hcount hl' hr']

variable [Std.TransOrd κ]

theorem search_located {es : List (Entry κ ν)} (h : Ascending es) (k : κ) :
    Located k es (search Entry.key es k) := by
  unfold search
  split
  · next hn =>
    rw [floorIndex?_eq_none_iff] at hn
    refine .gap (l := []) (r := es) rfl rfl ⟨by simp, ?_⟩
    cases es with
    | nil => simp
    | cons e es =>
      have he : compare k e.key = .lt := by
        rw [← Std.OrientedCmp.gt_iff_lt, ← Ordering.isGT_iff_eq_gt]
        exact hn e rfl
      exact above_cons h he
  · next i hi =>
    obtain ⟨hle, hnext⟩ := floorIndex?_floors hi
    -- the list is cut after the item at `i`, which is the last one at most `k`
    have hcut : es = es.take i ++ es.get i :: es.drop (i + 1) := by simp
    have hlen : (es.take i).length = i.val := by simp
    have hasc : Ascending (es.take i ++ es.get i :: es.drop (i + 1)) := hcut ▸ h
    split
    · next heq =>
      have he : compare (es.get i).key k = .eq := by simpa using heq
      exact .found hcut hlen.symm (Std.OrientedCmp.eq_symm he)
    · next hne =>
      have he : compare (es.get i).key k = .lt := by
        revert hle hne
        cases compare (es.get i).key k <;> simp
      have hcut' : es = (es.take i ++ [es.get i]) ++ es.drop (i + 1) := by simp
      have hi : i.val + 1 = (es.take i ++ [es.get i]).length := by
        rw [List.length_append, List.length_take, List.length_singleton]
        omega
      refine .gap hcut' hi ⟨?_, ?_⟩
      · exact below_concat ((ascending_append.1 (hcut' ▸ h)).1) he
      · cases hr : es.drop (i + 1) with
        | nil => simp
        | cons b r =>
          have hget : es[i.val + 1]? = some b := by
            rw [← List.head?_drop, hr, List.head?_cons]
          have hb : compare k b.key = .lt := by
            rw [← Std.OrientedCmp.gt_iff_lt, ← Ordering.isGT_iff_eq_gt]
            exact hnext b hget
          rw [hr] at hasc
          exact above_cons (hasc.sublist (by simp)) hb

theorem Brackets.not_below {l r : List (Entry κ ν)} {k : κ} (hb : Brackets l r k) :
    ∀ b ∈ r, compare b.key k ≠ .lt := by
  intro b hbr
  rw [Std.OrientedCmp.gt_of_lt (hb.above b hbr)]
  decide

/-- Where `k` lies between the entries, the search finds the gap. -/
theorem search_gap {l r : List (Entry κ ν)} {k : κ} (h : Ascending (l ++ r)) (hb : Brackets l r k) :
    ∃ i, search Entry.key (l ++ r) k = .gap i ∧ i.val = l.length := by
  have hloc := search_located h k
  generalize search Entry.key (l ++ r) k = pos at hloc
  cases hloc with
  | @found l' r' e i hes hi he =>
    have hmem : e ∈ l ++ r := hes ▸ List.mem_append_right _ List.mem_cons_self
    rcases List.mem_append.1 hmem with hl | hr
    · rw [Std.OrientedCmp.gt_of_lt (hb.below e hl)] at he
      cases he
    · rw [hb.above e hr] at he
      cases he
  | @gap l' r' i hes hi hb' =>
    refine ⟨i, rfl, hi.trans ?_⟩
    exact length_eq_of_below hes.symm hb'.below hb'.not_below hb.below hb.not_below

/-- Where an entry holds `k`, the search finds it. -/
theorem search_found {l r : List (Entry κ ν)} {e : Entry κ ν} {k : κ}
    (h : Ascending (l ++ e :: r)) (he : compare k e.key = .eq) :
    ∃ i, search Entry.key (l ++ e :: r) k = .found i ∧ i.val = l.length := by
  have hnot {l r : List (Entry κ ν)} {e : Entry κ ν} (hb : Brackets l r k)
      (he : compare k e.key = .eq) : ∀ b ∈ e :: r, compare b.key k ≠ .lt := by
    refine List.forall_mem_cons.2 ⟨?_, hb.not_below⟩
    rw [Std.OrientedCmp.eq_symm he]
    decide
  have hb : Brackets l r k := brackets_of_eq h he
  have hloc := search_located h k
  generalize search Entry.key (l ++ e :: r) k = pos at hloc
  cases hloc with
  | @found l' r' e' i hes hi he' =>
    have hb' : Brackets l' r' k := brackets_of_eq (hes ▸ h) he'
    refine ⟨i, rfl, hi.trans ?_⟩
    exact length_eq_of_below hes.symm hb'.below (hnot hb' he') hb.below (hnot hb he)
  | @gap l' r' i hes hi hb' =>
    have hmem : e ∈ l' ++ r' := hes ▸ List.mem_append_right _ List.mem_cons_self
    rcases List.mem_append.1 hmem with hl | hr
    · rw [Std.OrientedCmp.gt_of_lt (hb'.below e hl)] at he
      cases he
    · rw [hb'.above e hr] at he
      cases he

namespace Node

/-- Where the search for `k` ends in a node of `h` levels: at an entry that holds the key, in a gap
of a leaf, or at the child in a gap. -/
inductive Reached (ok : Nat → Prop) (k : κ) :
    Nat → (n : Node κ ν) → Position n.entries.length → Prop
  | hit {h : Nat} {n : Node κ ν} {l r : List (Entry κ ν)} {e : Entry κ ν}
      {i : Fin n.entries.length} (hes : n.entries = l ++ e :: r) (hi : i.val = l.length)
      (he : compare k e.key = .eq) : Reached ok k h n (.found i)
  | miss {l r : List (Entry κ ν)} {i : Fin ((l ++ r).length + 1)} (hi : i.val = l.length)
      (hb : Brackets l r k) : Reached ok k 1 ⟨l ++ r, []⟩ (.gap i)
  | child {h : Nat} {x : Context κ ν} {c : Node κ ν} {i : Fin ((x.plug c).entries.length + 1)}
      (hi : i.val = x.index) (hb : Brackets x.leftEntries x.rightEntries k)
      (hx : x.Fits ok (h + 1)) (hc : c.Fits ok (h + 1)) : Reached ok k (h + 2) (x.plug c) (.gap i)

theorem search_reached {ok : Nat → Prop} {h : Nat} {n : Node κ ν} (hn : n.Levelled ok h)
    (hasc : Ascending n.toList) (k : κ) : Reached ok k h n (search Entry.key n.entries k) := by
  have hloc := search_located (ascending_entries hasc) k
  generalize search Entry.key n.entries k = pos at hloc
  cases hloc with
  | found hes hi he => exact .hit hes hi he
  | @gap l r i hes hi hb =>
    rcases hn.gap_cases hes with ⟨rfl, rfl⟩ | ⟨g, x, c, rfl, rfl, rfl, rfl, hx, hc⟩
    · exact .miss hi hb
    · exact .child hi hb hx hc

end Node

end BTree
