import BTree.Cursor
import BTree.Tree.Basic

/-!
# Windows: the entries between two bounds

A window hands out the entries of a tree within two bounds, from either end.  Each cursor seeks its
bound; the next key of either end is kept beside them, and the window is done once an end hands out
the entry that is next for the other.  Bounds in the wrong order, or with no key between, leave
nothing to hand out.
-/

namespace BTree

variable {κ ν : Type}

/-- The entries of a range not yet handed out. -/
structure Window (κ ν : Type) where
  front : List (Frame κ ν)
  back : List (Frame κ ν)
  /-- The least key not yet handed out. -/
  head : Option κ
  /-- The greatest key not yet handed out. -/
  tail : Option κ
  done : Bool

namespace Window

variable [Ord κ]

/-- The window between the places that two cursors have reached. -/
def between (front back : List (Frame κ ν)) : Window κ ν :=
  let head := (Ascent.peek? front).map Entry.key
  let tail := (Descent.peek? back).map Entry.key
  let done :=
    match head, tail with
    | some a, some b => (compare a b).isGT
    | _, _ => true
  ⟨front, back, head, tail, done⟩

/-- The entry just handed out was the last one for the other end. -/
def meets (e : Entry κ ν) (end? : Option κ) : Bool := end?.all fun k => (compare e.key k).isEq

/-- The least entry that remains. -/
def next? (w : Window κ ν) : Option (Entry κ ν) × Window κ ν :=
  if w.done then (none, w)
  else
    match Ascent.next? w.front with
    | none => (none, { w with front := [] })
    | some (e, front) =>
      if meets e w.tail then (some e, { w with front := front, done := true })
      else (some e, { w with front := front, head := (Ascent.peek? front).map Entry.key })

/-- The greatest entry that remains. -/
def nextBack? (w : Window κ ν) : Option (Entry κ ν) × Window κ ν :=
  if w.done then (none, w)
  else
    match Descent.next? w.back with
    | none => (none, { w with back := [] })
    | some (e, back) =>
      if meets e w.head then (some e, { w with back := back, done := true })
      else (some e, { w with back := back, tail := (Descent.peek? back).map Entry.key })

/-- Bounds of the number of entries that remain: none is known. -/
def sizeHint (_ : Window κ ν) : Nat × Option Nat := (0, none)

theorem pending_next? {w v : Window κ ν} {e : Entry κ ν} (h : w.next? = (some e, v)) :
    Ascent.pending w.front = e :: Ascent.pending v.front := by
  unfold next? at h
  split at h
  · cases h
  · split at h
    · cases h
    · next hn =>
      rw [Ascent.pending_next? hn]
      split at h <;> cases h <;> rfl

theorem pending_nextBack? {w v : Window κ ν} {e : Entry κ ν} (h : w.nextBack? = (some e, v)) :
    Descent.pending w.back = e :: Descent.pending v.back := by
  unfold nextBack? at h
  split at h
  · cases h
  · split at h
    · cases h
    · next hn =>
      rw [Descent.pending_next? hn]
      split at h <;> cases h <;> rfl

/-- The entries that remain, from the front. -/
def toList (w : Window κ ν) : List (Entry κ ν) :=
  match _h : w.next? with
  | (none, _) => []
  | (some e, v) => e :: v.toList
termination_by (Ascent.pending w.front).length
decreasing_by simp [pending_next? _h]

/-- The entries that remain, from the back. -/
def toListBack (w : Window κ ν) : List (Entry κ ν) :=
  match _h : w.nextBack? with
  | (none, _) => []
  | (some e, v) => e :: v.toListBack
termination_by (Descent.pending w.back).length
decreasing_by simp [pending_nextBack? _h]

end Window

namespace Tree

variable [Ord κ]

/-- The entries whose keys are within both bounds. -/
def range (t : Tree κ ν) (lower upper : Bound κ) : Window κ ν :=
  match t.root with
  | none => .between [] []
  | some root => .between (Ascent.seek lower root []) (Descent.seek upper root [])

/-- The entries from `a` to `b`, both included. -/
def rangeInclusive (t : Tree κ ν) (a b : κ) : Window κ ν := t.range (.included a) (.included b)

end Tree

end BTree
