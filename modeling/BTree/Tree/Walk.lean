import BTree.Cursor
import BTree.Tree.Basic

/-!
# Walking a tree from both ends

A walk hands out the entries of a tree from either end.  Two cursors go towards each other without
knowing of one another; the number of entries that remain, counted down from the size of the tree,
tells when they have met.  A column is a walk that hands out one part of each entry, its key or its
value.
-/

namespace BTree

variable {κ ν : Type}

/-- The entries of a tree not yet handed out. -/
structure Walk (κ ν : Type) where
  front : List (Frame κ ν)
  back : List (Frame κ ν)
  remaining : Nat

/-- A walk over all entries. -/
def Tree.walk (t : Tree κ ν) : Walk κ ν :=
  match t.root with
  | none => ⟨[], [], t.size⟩
  | some root => ⟨Ascent.enter root [], Descent.enter root [], t.size⟩

namespace Walk

/-- The least entry that remains. -/
def next? (w : Walk κ ν) : Option (Entry κ ν) × Walk κ ν :=
  match w.remaining with
  | 0 => (none, w)
  | r + 1 =>
    match Ascent.next? w.front with
    | none => (none, { w with front := [], remaining := r })
    | some (e, front) => (some e, { w with front := front, remaining := r })

/-- The greatest entry that remains. -/
def nextBack? (w : Walk κ ν) : Option (Entry κ ν) × Walk κ ν :=
  match w.remaining with
  | 0 => (none, w)
  | r + 1 =>
    match Descent.next? w.back with
    | none => (none, { w with back := [], remaining := r })
    | some (e, back) => (some e, { w with back := back, remaining := r })

/-- Bounds of the number of entries that remain, which are exact. -/
def sizeHint (w : Walk κ ν) : Nat × Option Nat := (w.remaining, some w.remaining)

/-- The number of entries that remain, the lower bound of the two. -/
def length (w : Walk κ ν) : Nat := w.sizeHint.1

/-- At most `r` entries of an ascent. -/
def takeUp : Nat → List (Frame κ ν) → List (Entry κ ν)
  | 0, _ => []
  | r + 1, fs =>
    match Ascent.next? fs with
    | none => []
    | some (e, gs) => e :: takeUp r gs

/-- At most `r` entries of a descent. -/
def takeDown : Nat → List (Frame κ ν) → List (Entry κ ν)
  | 0, _ => []
  | r + 1, fs =>
    match Descent.next? fs with
    | none => []
    | some (e, gs) => e :: takeDown r gs

/-- The entries that remain, from the front. -/
def toList (w : Walk κ ν) : List (Entry κ ν) := takeUp w.remaining w.front

/-- The entries that remain, from the back. -/
def toListBack (w : Walk κ ν) : List (Entry κ ν) := takeDown w.remaining w.back

end Walk

/-- The entries of the tree in order, as a walk hands them out. -/
def Tree.entries (t : Tree κ ν) : List (Entry κ ν) := t.walk.toList

/-! ## Columns -/

/-- A walk that hands out one part of each entry. -/
structure Column (κ ν α : Type) where
  part : Entry κ ν → α
  walk : Walk κ ν

/-- The keys of the tree. -/
def Tree.keys (t : Tree κ ν) : Column κ ν κ := ⟨Entry.key, t.walk⟩

/-- The values of the tree, in the order of their keys. -/
def Tree.values (t : Tree κ ν) : Column κ ν ν := ⟨Entry.value, t.walk⟩

namespace Column

variable {α : Type}

/-- The part of the least entry that remains. -/
def next? (c : Column κ ν α) : Option α × Column κ ν α :=
  let (e, walk) := c.walk.next?
  (e.map c.part, { c with walk := walk })

/-- The part of the greatest entry that remains. -/
def nextBack? (c : Column κ ν α) : Option α × Column κ ν α :=
  let (e, walk) := c.walk.nextBack?
  (e.map c.part, { c with walk := walk })

def sizeHint (c : Column κ ν α) : Nat × Option Nat := c.walk.sizeHint

def length (c : Column κ ν α) : Nat := c.sizeHint.1

/-- The parts of the entries that remain, from the front. -/
def toList (c : Column κ ν α) : List α := c.walk.toList.map c.part

/-- The parts of the entries that remain, from the back. -/
def toListBack (c : Column κ ν α) : List α := c.walk.toListBack.map c.part

end Column

/-! ## Lemmas -/

namespace Walk

theorem takeUp_eq_take (r : Nat) (fs : List (Frame κ ν)) :
    takeUp r fs = (Ascent.pending fs).take r := by
  induction r generalizing fs with
  | zero => rw [takeUp, List.take_zero]
  | succ r ih =>
    rw [takeUp]
    split
    · next h => rw [Ascent.next?_eq_none_iff.1 h, List.take_nil]
    · next e gs h => rw [Ascent.pending_next? h, ih, List.take_succ_cons]

theorem takeDown_eq_take (r : Nat) (fs : List (Frame κ ν)) :
    takeDown r fs = (Descent.pending fs).take r := by
  induction r generalizing fs with
  | zero => rw [takeDown, List.take_zero]
  | succ r ih =>
    rw [takeDown]
    split
    · next h => rw [Descent.next?_eq_none_iff.1 h, List.take_nil]
    · next e gs h => rw [Descent.pending_next? h, ih, List.take_succ_cons]

end Walk

/-- A walk hands out as many entries as the size says. -/
theorem Tree.entries_eq_take (t : Tree κ ν) : t.entries = t.toList.take t.size := by
  obtain ⟨_ | root, d, n⟩ := t <;>
    simp [entries, walk, Walk.toList, Walk.takeUp_eq_take, Ascent.pending_enter, toList]

end BTree
