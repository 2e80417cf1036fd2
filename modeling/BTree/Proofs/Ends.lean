/-!
# The two ends of a list

Entries are taken from the front or from the back: of a map by its pops, of a window by its two
iterators.  On a plain list both are the same operation with the end as a parameter.
-/

namespace BTree

/-- One end of a list. -/
inductive End where
  | front
  | back
deriving DecidableEq, Repr

namespace End

variable {α : Type}

/-- Puts an item at the end. -/
def put (s : End) (a : α) (as : List α) : List α :=
  match s with
  | front => a :: as
  | back => as ++ [a]

/-- The item at the end. -/
def peek? (s : End) (as : List α) : Option α :=
  match s with
  | front => as.head?
  | back => as.getLast?

/-- What is left without the item at the end. -/
def rest (s : End) (as : List α) : List α :=
  match s with
  | front => as.tail
  | back => as.dropLast

/-- Of what stands on either side, the part towards the end. -/
def outer (s : End) (l r : List α) : List α :=
  match s with
  | front => l
  | back => r

/-- Takes items at the ends given, one after another; the answers, none once the list is empty. -/
def takeAll (as : List α) : List End → List (Option α)
  | [] => []
  | s :: ss => s.peek? as :: takeAll (s.rest as) ss

/-! ## Lemmas -/

@[simp]
theorem length_put (s : End) (a : α) (as : List α) : (s.put a as).length = as.length + 1 := by
  cases s <;> simp [put]

@[simp]
theorem peek?_put (s : End) (a : α) (as : List α) : s.peek? (s.put a as) = some a := by
  cases s <;> simp [peek?, put]

@[simp]
theorem rest_put (s : End) (a : α) (as : List α) : s.rest (s.put a as) = as := by
  cases s <;> simp [rest, put]

theorem put_nil (s : End) (a : α) : s.put a [] = [a] := by
  cases s <;> rfl

theorem cons_perm_put (s : End) (a : α) (as : List α) : (a :: as).Perm (s.put a as) := by
  cases s with
  | front => exact List.Perm.refl _
  | back => exact (List.perm_append_singleton a as).symm

theorem rest_sublist (s : End) (as : List α) : (s.rest as).Sublist as := by
  cases s with
  | front => exact List.tail_sublist as
  | back => exact List.dropLast_sublist as

theorem mem_of_peek? {s : End} {a : α} {as : List α} (h : s.peek? as = some a) : a ∈ as := by
  cases s with
  | front => exact List.mem_of_head? h
  | back => exact List.mem_of_getLast? h

/-- A list is empty, or has an item at the end. -/
theorem exists_put (s : End) {as : List α} (hne : as ≠ []) : ∃ a bs, as = s.put a bs := by
  cases s with
  | front => exact ⟨as.head hne, as.tail, (List.cons_head_tail hne).symm⟩
  | back => exact ⟨as.getLast hne, as.dropLast, (List.dropLast_concat_getLast hne).symm⟩

/-- With nothing outside, an end of the middle is the end of the whole. -/
theorem append_put {s : End} {l r : List α} (h : s.outer l r = []) (a : α) (m : List α) :
    l ++ (s.put a m ++ r) = s.put a (l ++ (m ++ r)) := by
  cases s with
  | front =>
    obtain rfl : l = [] := h
    rfl
  | back =>
    obtain rfl : r = [] := h
    simp [put]

theorem peek?_append {s : End} {l m r : List α} (h : s.outer l r = []) (hm : m ≠ []) :
    s.peek? (l ++ (m ++ r)) = s.peek? m := by
  obtain ⟨a, bs, rfl⟩ := s.exists_put hm
  rw [append_put h, peek?_put, peek?_put]

theorem length_rest (s : End) (as : List α) :
    (s.rest as).length + (if (s.peek? as).isSome then 1 else 0) = as.length := by
  by_cases hne : as = []
  · rw [hne]
    cases s <;> rfl
  · obtain ⟨a, bs, rfl⟩ := s.exists_put hne
    rw [rest_put, peek?_put, length_put]
    rfl

theorem takeAll_nil (ss : List End) :
    takeAll ([] : List α) ss = List.replicate ss.length none := by
  induction ss with
  | nil => rfl
  | cons s ss ih =>
    have hrest : s.rest ([] : List α) = [] := by cases s <;> rfl
    have hpeek : s.peek? ([] : List α) = none := by cases s <;> rfl
    rw [takeAll, hrest, hpeek, ih]
    rfl

/-- Taken often enough, every item comes out once, from whichever end. -/
theorem filterMap_takeAll_perm {as : List α} {ss : List End} (hlen : as.length ≤ ss.length) :
    ((takeAll as ss).filterMap id).Perm as := by
  induction ss generalizing as with
  | nil =>
    obtain rfl : as = [] := List.eq_nil_of_length_eq_zero (Nat.le_zero.1 hlen)
    exact List.Perm.refl []
  | cons s ss ih =>
    by_cases hne : as = []
    · rw [hne, takeAll_nil]
      simp
    · obtain ⟨a, bs, rfl⟩ := s.exists_put hne
      rw [length_put, List.length_cons] at hlen
      have hperm : ((takeAll bs ss).filterMap id).Perm bs := ih (by omega)
      rw [takeAll, peek?_put, rest_put]
      exact (hperm.cons a).trans (s.cons_perm_put a bs)

/-- Once all items are taken, there is none. -/
theorem takeAll_append {as : List α} {ss : List End} (hlen : as.length ≤ ss.length)
    (ss' : List End) :
    takeAll as (ss ++ ss') = takeAll as ss ++ List.replicate ss'.length none := by
  induction ss generalizing as with
  | nil =>
    obtain rfl : as = [] := List.eq_nil_of_length_eq_zero (Nat.le_zero.1 hlen)
    exact takeAll_nil ss'
  | cons s ss ih =>
    by_cases hne : as = []
    · rw [hne, takeAll_nil, takeAll_nil, List.length_append, ← List.replicate_append_replicate]
    · obtain ⟨a, bs, rfl⟩ := s.exists_put hne
      rw [length_put, List.length_cons] at hlen
      have happ : takeAll bs (ss ++ ss') = takeAll bs ss ++ List.replicate ss'.length none :=
        ih (by omega)
      rw [List.cons_append, takeAll, takeAll, rest_put, happ, List.cons_append]

end End

end BTree
