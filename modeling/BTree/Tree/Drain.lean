import BTree.Tree.Basic

/-!
# Draining a tree

A drain takes a tree apart as it hands out its entries in order.  A frame holds the entries and the
children that a node has left: the child before the first of these entries has been entered, so the
two lists stay aligned.  What is still to come is the list `pending`:

    d.next? = ok (some e, d')  →  d.pending = e :: d'.pending     (pending_next?)

A column of a drain hands out one part of each entry, its key or its value.
-/

namespace BTree

variable {κ ν : Type}

/-- The entries not yet handed out, with the number that there should be. -/
structure Drain (κ ν : Type) where
  /-- Opened nodes without the children entered, innermost first. -/
  opened : List (Node κ ν)
  remaining : Nat

namespace Drain

/-- Opens the nodes down the leftmost children of `n`. -/
def enter : Node κ ν → List (Node κ ν) → List (Node κ ν)
  | ⟨es, []⟩, ns => ⟨es, []⟩ :: ns
  | ⟨es, c :: cs⟩, ns => enter c (⟨es, cs⟩ :: ns)

/-- The next entry, and what is left. -/
def step? : List (Node κ ν) → Option (Entry κ ν × List (Node κ ν))
  | [] => none
  | ⟨[], _⟩ :: ns => step? ns
  | ⟨e :: es, []⟩ :: ns => some (e, ⟨es, []⟩ :: ns)
  | ⟨e :: es, c :: cs⟩ :: ns => some (e, enter c (⟨es, cs⟩ :: ns))

/-- The least entry that remains. -/
def next? (d : Drain κ ν) : Except Fault (Option (Entry κ ν) × Drain κ ν) :=
  match step? d.opened with
  | none => .ok (none, { d with opened := [] })
  | some (e, opened) =>
    match decrement d.remaining with
    | .error f => .error f
    | .ok r => .ok (some e, ⟨opened, r⟩)

/-- Bounds of the number of entries that remain, which are exact. -/
def sizeHint (d : Drain κ ν) : Nat × Option Nat := (d.remaining, some d.remaining)

/-- The number of entries that remain, the lower bound of the two. -/
def length (d : Drain κ ν) : Nat := d.sizeHint.1

/-- The entries still to come. -/
def pending (d : Drain κ ν) : List (Entry κ ν) :=
  d.opened.flatMap fun n => weave n.entries ([] :: n.children.map Node.toList)

theorem pending_enter (n : Node κ ν) (ns : List (Node κ ν)) (r : Nat) :
    (⟨enter n ns, r⟩ : Drain κ ν).pending = n.toList ++ (⟨ns, r⟩ : Drain κ ν).pending := by
  fun_induction enter n ns with
  | case1 es ns => simp [pending, Node.toList_eq]
  | case2 es c cs ns ih =>
    rw [ih, Node.toList_eq ⟨es, c :: cs⟩, List.map_cons, weave_cons, List.append_assoc]
    rfl

theorem pending_step? {ns ms : List (Node κ ν)} {e : Entry κ ν} (h : step? ns = some (e, ms))
    (r s : Nat) : (⟨ns, r⟩ : Drain κ ν).pending = e :: (⟨ms, s⟩ : Drain κ ν).pending := by
  fun_induction step? ns with
  | case1 => cases h
  | case2 cs ns ih => simpa [pending] using ih h
  | case3 e es ns =>
    cases h
    simp [pending]
  | case4 e es c cs ns =>
    cases h
    rw [pending_enter]
    simp only [pending, List.flatMap_cons, List.map_cons, cons_weave_cons, List.nil_append,
      weave_cons _ c.toList, List.append_assoc, List.cons_append]

/-- A step takes the head of what is to come. -/
theorem pending_next? {d c : Drain κ ν} {e : Entry κ ν} (h : d.next? = .ok (some e, c)) :
    d.pending = e :: c.pending := by
  unfold next? at h
  split at h
  · cases h
  · next hs =>
    split at h
    · cases h
    · cases h
      exact pending_step? hs _ _

/-- The entries that remain. -/
def toList (d : Drain κ ν) : Except Fault (List (Entry κ ν)) :=
  match _h : d.next? with
  | .error f => .error f
  | .ok (none, _) => .ok []
  | .ok (some e, c) => (c.toList).map (e :: ·)
termination_by d.pending.length
decreasing_by simp [pending_next? _h]

/-! ## Columns -/

/-- A drain that hands out one part of each entry. -/
structure Column (κ ν α : Type) where
  part : Entry κ ν → α
  drain : Drain κ ν

namespace Column

variable {α : Type}

/-- The part of the least entry that remains. -/
def next? (c : Column κ ν α) : Except Fault (Option α × Column κ ν α) := do
  let (e, drain) ← c.drain.next?
  return (e.map c.part, { c with drain := drain })

def sizeHint (c : Column κ ν α) : Nat × Option Nat := c.drain.sizeHint

def length (c : Column κ ν α) : Nat := c.sizeHint.1

/-- The parts of the entries that remain. -/
def toList (c : Column κ ν α) : Except Fault (List α) := (c.drain.toList).map (List.map c.part)

end Column

end Drain

namespace Tree

/-- Takes the tree apart. -/
def drain (t : Tree κ ν) : Drain κ ν :=
  match t.root with
  | none => ⟨[], t.size⟩
  | some root => ⟨Drain.enter root [], t.size⟩

/-- Takes the tree apart for its keys. -/
def drainKeys (t : Tree κ ν) : Drain.Column κ ν κ := ⟨Entry.key, t.drain⟩

/-- Takes the tree apart for its values, in the order of their keys. -/
def drainValues (t : Tree κ ν) : Drain.Column κ ν ν := ⟨Entry.value, t.drain⟩

end Tree

end BTree
