import BTree.Node.Basic
import BTree.Search

/-!
# Cursors

A cursor walks the entries below a node without a view of its own: it keeps the path to the next
entry as a stack of frames, innermost first.  `Ascent` walks upwards in order and `Descent`
downwards.  What is still to come is the list `pending`, and every step takes its head:

    next? fs = some (e, gs)  →  pending fs = e :: pending gs     (pending_next?)
    next? fs = none          ↔  pending fs = []                  (next?_eq_none_iff)
    pending (enter n fs)     =  n.toList ++ pending fs           (pending_enter, upwards)
-/

namespace BTree

variable {κ ν : Type}

/-- A node on the way, with the gap between its entries that the walk has reached.  The child in
that gap is being walked by the frames within. -/
structure Frame (κ ν : Type) where
  node : Node κ ν
  gap : Fin (node.entries.length + 1)

/-- One end of a range of keys. -/
inductive Bound (κ : Type) where
  | unbounded
  | included (key : κ)
  | excluded (key : κ)
deriving DecidableEq, Repr

namespace Bound

variable [Ord κ]

/-- The gap before the first entry of `n` within a lower bound. -/
def lowerGap (n : Node κ ν) : Bound κ → Fin (n.entries.length + 1)
  | unbounded => 0
  | included k =>
    match search Entry.key n.entries k with
    | .found i => i.castSucc
    | .gap i => i
  | excluded k =>
    match search Entry.key n.entries k with
    | .found i => i.succ
    | .gap i => i

/-- The gap after the last entry of `n` within an upper bound. -/
def upperGap (n : Node κ ν) : Bound κ → Fin (n.entries.length + 1)
  | unbounded => Fin.last _
  | included k =>
    match search Entry.key n.entries k with
    | .found i => i.succ
    | .gap i => i
  | excluded k =>
    match search Entry.key n.entries k with
    | .found i => i.castSucc
    | .gap i => i

end Bound

namespace Frame

/-- The entries after the gap, with what lies below their right sides, in order. -/
def after (f : Frame κ ν) : List (Entry κ ν) :=
  weave (f.node.entries.drop f.gap) ([] :: (f.node.children.drop (f.gap + 1)).map Node.toList)

/-- The entries before the gap, with what lies below their left sides, in order. -/
def before (f : Frame κ ν) : List (Entry κ ν) :=
  weave (f.node.entries.take f.gap) ((f.node.children.take f.gap).map Node.toList)

/-- The same node at the gap after the entry `i`. -/
def rightOf (f : Frame κ ν) (i : Fin f.node.entries.length) : Frame κ ν := ⟨f.node, i.succ⟩

/-- The same node at the gap before the entry `i`. -/
def leftOf (f : Frame κ ν) (i : Fin f.node.entries.length) : Frame κ ν := ⟨f.node, i.castSucc⟩

/-- The entry after the gap. -/
def right? (f : Frame κ ν) : Option (Fin f.node.entries.length) :=
  if h : f.gap.val < f.node.entries.length then some ⟨f.gap, h⟩ else none

/-- The entry before the gap. -/
def left? (f : Frame κ ν) : Option (Fin f.node.entries.length) :=
  if h : 0 < f.gap.val then some ⟨f.gap - 1, by omega⟩ else none

end Frame

/-! ## Upwards -/

namespace Ascent

/-- Enters `n` before its first entry. -/
def enter : Node κ ν → List (Frame κ ν) → List (Frame κ ν)
  | ⟨es, []⟩, fs => ⟨⟨es, []⟩, 0⟩ :: fs
  | ⟨es, c :: cs⟩, fs => enter c (⟨⟨es, c :: cs⟩, 0⟩ :: fs)

/-- Enters `n` before its first entry within the lower bound `b`. -/
def seek [Ord κ] (b : Bound κ) (n : Node κ ν) (fs : List (Frame κ ν)) : List (Frame κ ν) :=
  if h : b.lowerGap n < n.children.length then
    seek b (n.children.get ⟨b.lowerGap n, h⟩) (⟨n, b.lowerGap n⟩ :: fs)
  else ⟨n, b.lowerGap n⟩ :: fs
termination_by n.depth
decreasing_by exact Node.depth_lt_of_mem (List.get_mem _ _)

/-- The next entry. -/
def peek? : List (Frame κ ν) → Option (Entry κ ν)
  | [] => none
  | f :: fs =>
    match f.right? with
    | none => peek? fs
    | some i => some (f.node.entries.get i)

/-- The next entry, and the walk beyond it. -/
def next? : List (Frame κ ν) → Option (Entry κ ν × List (Frame κ ν))
  | [] => none
  | f :: fs =>
    match f.right? with
    | none => next? fs
    | some i =>
      match f.node.children[i.val + 1]? with
      | none => some (f.node.entries.get i, f.rightOf i :: fs)
      | some c => some (f.node.entries.get i, enter c (f.rightOf i :: fs))

/-- The entries still to come. -/
def pending (fs : List (Frame κ ν)) : List (Entry κ ν) := fs.flatMap Frame.after

end Ascent

/-! ## Downwards -/

namespace Descent

/-- Enters `n` after its last entry. -/
def enter (n : Node κ ν) (fs : List (Frame κ ν)) : List (Frame κ ν) :=
  if h : n.entries.length < n.children.length then
    enter (n.children.get ⟨n.entries.length, h⟩) (⟨n, Fin.last _⟩ :: fs)
  else ⟨n, Fin.last _⟩ :: fs
termination_by n.depth
decreasing_by exact Node.depth_lt_of_mem (List.get_mem _ _)

/-- Enters `n` after its last entry within the upper bound `b`. -/
def seek [Ord κ] (b : Bound κ) (n : Node κ ν) (fs : List (Frame κ ν)) : List (Frame κ ν) :=
  if h : b.upperGap n < n.children.length then
    seek b (n.children.get ⟨b.upperGap n, h⟩) (⟨n, b.upperGap n⟩ :: fs)
  else ⟨n, b.upperGap n⟩ :: fs
termination_by n.depth
decreasing_by exact Node.depth_lt_of_mem (List.get_mem _ _)

/-- The next entry. -/
def peek? : List (Frame κ ν) → Option (Entry κ ν)
  | [] => none
  | f :: fs =>
    match f.left? with
    | none => peek? fs
    | some i => some (f.node.entries.get i)

/-- The next entry, and the walk beyond it. -/
def next? : List (Frame κ ν) → Option (Entry κ ν × List (Frame κ ν))
  | [] => none
  | f :: fs =>
    match f.left? with
    | none => next? fs
    | some i =>
      match f.node.children[i]? with
      | none => some (f.node.entries.get i, f.leftOf i :: fs)
      | some c => some (f.node.entries.get i, enter c (f.leftOf i :: fs))

/-- The entries still to come, the greatest first. -/
def pending (fs : List (Frame κ ν)) : List (Entry κ ν) := fs.flatMap fun f => f.before.reverse

end Descent

/-! ## Lemmas -/

namespace Frame

theorem after_eq_nil {f : Frame κ ν} (h : f.right? = none) : f.after = [] := by
  have : f.node.entries.drop f.gap = [] := by simpa [right?] using h
  simp [after, this]

theorem after_eq_cons {f : Frame κ ν} {i : Fin f.node.entries.length} (h : f.right? = some i) :
    f.after = f.node.entries.get i ::
      (((f.node.children[i.val + 1]?).map Node.toList).getD [] ++ (f.rightOf i).after) := by
  obtain ⟨hlt, rfl⟩ : ∃ hlt : f.gap.val < f.node.entries.length, ⟨f.gap, hlt⟩ = i := by
    simpa [right?] using h
  have he : f.node.entries.drop f.gap =
      f.node.entries[f.gap.val] :: f.node.entries.drop (f.gap + 1) :=
    List.drop_eq_getElem_cons hlt
  simp only [after, rightOf, he, cons_weave_cons, List.nil_append, Fin.val_succ]
  congr 1
  cases hc : f.node.children[f.gap.val + 1]? with
  | none =>
    have hd : f.node.children.drop (f.gap + 1) = [] := by simpa using hc
    have hd' : f.node.children.drop (f.gap + 1 + 1) = [] := by
      simp only [List.drop_eq_nil_iff] at hd ⊢
      omega
    simp [hd, hd']
  | some c =>
    obtain ⟨hlt', rfl⟩ := List.getElem?_eq_some_iff.1 hc
    rw [List.drop_eq_getElem_cons hlt', List.map_cons, weave_cons]
    rfl

theorem before_eq_nil {f : Frame κ ν} (h : f.left? = none) : f.before = [] := by
  have : f.gap.val = 0 := by simpa [left?] using h
  simp [before, this]

theorem before_eq_concat {f : Frame κ ν} {i : Fin f.node.entries.length} (h : f.left? = some i) :
    f.before = (f.leftOf i).before ++
      ((f.node.children[i]?).map Node.toList).getD [] ++ [f.node.entries.get i] := by
  obtain ⟨hlt, rfl⟩ : ∃ hlt : 0 < f.gap.val, ⟨f.gap - 1, by omega⟩ = i := by
    simpa [left?] using h
  obtain ⟨o, ho⟩ := Nat.exists_eq_succ_of_ne_zero (Nat.ne_of_gt hlt)
  have hlen : o < f.node.entries.length := by omega
  have htake : (f.node.entries.take o).length = o := by simp; omega
  simp only [before, leftOf, ho, Nat.succ_eq_add_one, Nat.add_sub_cancel, Fin.castSucc_mk,
    ← List.take_append_getElem hlen]
  rw [weave_concat _ (by simp; omega), htake]
  simp [← List.map_take, List.take_take]

end Frame

namespace Ascent

@[simp]
theorem pending_nil : pending ([] : List (Frame κ ν)) = [] := rfl

@[simp]
theorem pending_cons (f : Frame κ ν) (fs : List (Frame κ ν)) :
    pending (f :: fs) = f.after ++ pending fs := by
  simp [pending]

theorem pending_enter (n : Node κ ν) (fs : List (Frame κ ν)) :
    pending (enter n fs) = n.toList ++ pending fs := by
  fun_induction enter n fs with
  | case1 es fs => simp [Frame.after, Node.toList_eq]
  | case2 es c cs fs ih =>
    rw [ih, pending_cons, Node.toList_eq ⟨es, c :: cs⟩, List.map_cons, weave_cons,
      List.append_assoc]
    rfl

/-- A step takes the head of what is to come. -/
theorem pending_next? {fs gs : List (Frame κ ν)} {e : Entry κ ν} (h : next? fs = some (e, gs)) :
    pending fs = e :: pending gs := by
  fun_induction next? fs with
  | case1 => cases h
  | case2 f fs hi ih => simp [Frame.after_eq_nil hi, ih h]
  | case3 f fs i hi hc =>
    cases h
    simp [Frame.after_eq_cons hi, hc]
  | case4 f fs i hi c hc =>
    cases h
    simp [Frame.after_eq_cons hi, hc, pending_enter]

theorem next?_eq_none_iff {fs : List (Frame κ ν)} : next? fs = none ↔ pending fs = [] := by
  fun_induction next? fs with
  | case1 => simp [pending]
  | case2 f fs hi ih => simp [Frame.after_eq_nil hi, ih]
  | case3 f fs i hi hc => simp [Frame.after_eq_cons hi]
  | case4 f fs i hi c hc => simp [Frame.after_eq_cons hi]

theorem peek?_eq_head? (fs : List (Frame κ ν)) : peek? fs = (pending fs).head? := by
  fun_induction peek? fs with
  | case1 => rfl
  | case2 f fs hi ih => simp [Frame.after_eq_nil hi, ih]
  | case3 f fs i hi => simp [Frame.after_eq_cons hi]

end Ascent

namespace Descent

@[simp]
theorem pending_nil : pending ([] : List (Frame κ ν)) = [] := rfl

@[simp]
theorem pending_cons (f : Frame κ ν) (fs : List (Frame κ ν)) :
    pending (f :: fs) = f.before.reverse ++ pending fs := by
  simp [pending]

theorem pending_enter (n : Node κ ν) (fs : List (Frame κ ν)) :
    pending (enter n fs) = n.toList.reverse ++ pending fs := by
  fun_induction enter n fs with
  | case1 n fs h ih =>
    rw [ih, pending_cons, Node.toList_eq n, weave_eq_take_append]
    simp [Frame.before, h, List.map_take]
  | case2 n fs h =>
    rw [pending_cons, Node.toList_eq n, weave_eq_take_append]
    simp [Frame.before, h, List.map_take]

/-- A step takes the head of what is to come. -/
theorem pending_next? {fs gs : List (Frame κ ν)} {e : Entry κ ν} (h : next? fs = some (e, gs)) :
    pending fs = e :: pending gs := by
  fun_induction next? fs with
  | case1 => cases h
  | case2 f fs hi ih => simp [Frame.before_eq_nil hi, ih h]
  | case3 f fs i hi hc =>
    cases h
    simp [Frame.before_eq_concat hi, hc]
  | case4 f fs i hi c hc =>
    cases h
    simp [Frame.before_eq_concat hi, hc, pending_enter]

theorem next?_eq_none_iff {fs : List (Frame κ ν)} : next? fs = none ↔ pending fs = [] := by
  fun_induction next? fs with
  | case1 => simp [pending]
  | case2 f fs hi ih => simp [Frame.before_eq_nil hi, ih]
  | case3 f fs i hi hc => simp [Frame.before_eq_concat hi]
  | case4 f fs i hi c hc => simp [Frame.before_eq_concat hi]

theorem peek?_eq_head? (fs : List (Frame κ ν)) : peek? fs = (pending fs).head? := by
  fun_induction peek? fs with
  | case1 => rfl
  | case2 f fs hi ih => simp [Frame.before_eq_nil hi, ih]
  | case3 f fs i hi => simp [Frame.before_eq_concat hi]

end Descent

end BTree
