/-!
# Searching a sorted list

`floorIndex? key xs k` bisects for the last item whose key is at most `k`; `search` tells an item
that holds `k` from the gap in which `k` would stand.  By type, every item is read at an index that
exists, and the ends of the bracket never meet.  Order is by `compare` alone: keys that compare
equal are the same key, however spelled.
-/

namespace BTree

variable {α κ : Type} [Ord κ]

/-! ## Algorithm -/

/-- Halves the bracket from `lo` to `hi` until nothing lies between; the item at `lo` is at most
`k` and the one at `hi` above it throughout. -/
def bisect (key : α → κ) (xs : List α) (k : κ) (lo hi : Fin xs.length) (h : lo.val < hi.val) :
    Fin xs.length :=
  if hlt : 1 < hi.val - lo.val then
    let mid : Fin xs.length := ⟨(lo.val + hi.val) / 2, by omega⟩
    if (compare (key (xs.get mid)) k).isGT then bisect key xs k lo mid (show _ < _ / 2 by omega)
    else bisect key xs k mid hi (show _ / 2 < _ by omega)
  else lo
termination_by hi.val - lo.val
decreasing_by
  · show (lo.val + hi.val) / 2 - lo.val < hi.val - lo.val
    omega
  · show hi.val - (lo.val + hi.val) / 2 < hi.val - lo.val
    omega

/-- Two items that compare differently stand at different places. -/
theorem lt_of_isGT_of_not_isGT {key : α → κ} {xs : List α} {k : κ} {first last : Fin xs.length}
    (hle : first.val ≤ last.val) (hfirst : ¬ (compare (key (xs.get first)) k).isGT)
    (hlast : ¬ (compare (key (xs.get last)) k).isLE) : first.val < last.val := by
  refine Nat.lt_of_le_of_ne hle fun h => ?_
  have : ∀ o : Ordering, ¬ o.isGT → ¬ o.isLE → False := by decide
  exact this _ (Fin.ext h ▸ hfirst) hlast

/-- The index of the last item whose key is at most `k`. -/
def floorIndex? (key : α → κ) (xs : List α) (k : κ) : Option (Fin xs.length) :=
  if h : 0 < xs.length then
    let first : Fin xs.length := ⟨0, h⟩
    let last : Fin xs.length := ⟨xs.length - 1, by omega⟩
    if hfirst : (compare (key (xs.get first)) k).isGT then none
    else if hlast : (compare (key (xs.get last)) k).isLE then some last
    else some (bisect key xs k first last (lt_of_isGT_of_not_isGT (Nat.zero_le _) hfirst hlast))
  else none

/-- Where a key stands among `n` sorted items. -/
inductive Position (n : Nat) where
  /-- The item at `index` holds the key. -/
  | found (index : Fin n)
  /-- No item holds it; it would come before the item at `index`. -/
  | gap (index : Fin (n + 1))
deriving DecidableEq, Repr

/-- The item that holds `k`, or the gap for it. -/
def search (key : α → κ) (xs : List α) (k : κ) : Position xs.length :=
  match floorIndex? key xs k with
  | none => .gap 0
  | some i => if (compare (key (xs.get i)) k).isEq then .found i else .gap i.succ

end BTree
