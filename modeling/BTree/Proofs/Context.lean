import BTree.Proofs.Order

/-!
# A node around one of its children

A context is an inner node without the child in one of its gaps: the entries and children on either
side of the gap, a child for each entry.  `plug` puts a child into the gap; `pair` puts two children
with an entry between them there.  Every restructuring step is the exchange of one for the other, or
of the contents of one of them, so that what a node reads as is found once:

    (x.plug c).toList      =  x.before ++ c.toList ++ x.after                     (toList_plug)
    (x.pair a e b).toList  =  x.before ++ a.toList ++ e :: b.toList ++ x.after    (toList_pair)
-/

namespace BTree

variable {κ ν : Type}

/-- An inner node with the child in one gap taken out. -/
structure Context (κ ν : Type) where
  leftEntries : List (Entry κ ν)
  leftChildren : List (Node κ ν)
  rightEntries : List (Entry κ ν)
  rightChildren : List (Node κ ν)
  left_length : leftChildren.length = leftEntries.length
  right_length : rightChildren.length = rightEntries.length

namespace Context

/-- The index of the gap. -/
def index (x : Context κ ν) : Nat := x.leftEntries.length

/-- The number of entries. -/
def size (x : Context κ ν) : Nat := x.leftEntries.length + x.rightEntries.length

/-- The node with `c` in the gap. -/
def plug (x : Context κ ν) (c : Node κ ν) : Node κ ν :=
  ⟨x.leftEntries ++ x.rightEntries, x.leftChildren ++ c :: x.rightChildren⟩

/-- The node with `a` and `b` in the gap, and `e` between them. -/
def pair (x : Context κ ν) (a : Node κ ν) (e : Entry κ ν) (b : Node κ ν) : Node κ ν :=
  ⟨x.leftEntries ++ e :: x.rightEntries, x.leftChildren ++ a :: b :: x.rightChildren⟩

/-- The gap behind `a` and `e`, which come to stand left of it. -/
def skip (x : Context κ ν) (a : Node κ ν) (e : Entry κ ν) : Context κ ν where
  leftEntries := x.leftEntries ++ [e]
  leftChildren := x.leftChildren ++ [a]
  rightEntries := x.rightEntries
  rightChildren := x.rightChildren
  left_length := by simp [x.left_length]
  right_length := x.right_length

/-- The gap before `e` and `b`, which come to stand right of it. -/
def hold (x : Context κ ν) (e : Entry κ ν) (b : Node κ ν) : Context κ ν where
  leftEntries := x.leftEntries
  leftChildren := x.leftChildren
  rightEntries := e :: x.rightEntries
  rightChildren := b :: x.rightChildren
  left_length := x.left_length
  right_length := by simp [x.right_length]

/-- The entries left of the gap, with all that is read before it. -/
def before (x : Context κ ν) : List (Entry κ ν) :=
  weave x.leftEntries (x.leftChildren.map Node.toList)

/-- The entries right of the gap, with all that is read after it. -/
def after (x : Context κ ν) : List (Entry κ ν) :=
  weave x.rightEntries ([] :: x.rightChildren.map Node.toList)

/-! ## Lemmas -/

theorem skip_plug (x : Context κ ν) (a : Node κ ν) (e : Entry κ ν) (b : Node κ ν) :
    (x.skip a e).plug b = x.pair a e b := by
  simp [skip, plug, pair]

theorem hold_plug (x : Context κ ν) (a : Node κ ν) (e : Entry κ ν) (b : Node κ ν) :
    (x.hold e b).plug a = x.pair a e b := rfl

@[simp]
theorem index_skip (x : Context κ ν) (a : Node κ ν) (e : Entry κ ν) :
    (x.skip a e).index = x.index + 1 := by
  simp [skip, index]

@[simp]
theorem index_hold (x : Context κ ν) (e : Entry κ ν) (b : Node κ ν) :
    (x.hold e b).index = x.index := rfl

@[simp]
theorem size_skip (x : Context κ ν) (a : Node κ ν) (e : Entry κ ν) :
    (x.skip a e).size = x.size + 1 := by
  simp only [skip, size, List.length_append, List.length_singleton]
  omega

@[simp]
theorem size_hold (x : Context κ ν) (e : Entry κ ν) (b : Node κ ν) :
    (x.hold e b).size = x.size + 1 := by
  simp only [hold, size, List.length_cons]
  omega

@[simp]
theorem length_entries_plug (x : Context κ ν) (c : Node κ ν) :
    (x.plug c).entries.length = x.size := by
  simp [plug, size]

@[simp]
theorem length_entries_pair (x : Context κ ν) (a b : Node κ ν) (e : Entry κ ν) :
    (x.pair a e b).entries.length = x.size + 1 := by
  rw [← hold_plug, length_entries_plug, size_hold]

@[simp]
theorem isLeaf_plug (x : Context κ ν) (c : Node κ ν) : (x.plug c).isLeaf = false := by
  simp [plug, Node.isLeaf]

@[simp]
theorem isLeaf_pair (x : Context κ ν) (a b : Node κ ν) (e : Entry κ ν) :
    (x.pair a e b).isLeaf = false := by
  simp [pair, Node.isLeaf]

theorem length_children_plug (x : Context κ ν) (c : Node κ ν) :
    (x.plug c).children.length = (x.plug c).entries.length + 1 := by
  simp only [plug, List.length_append, List.length_cons, x.left_length, x.right_length]
  omega

theorem index_le_size (x : Context κ ν) : x.index ≤ x.size := Nat.le_add_right _ _

theorem getElem?_children_plug (x : Context κ ν) (c : Node κ ν) :
    (x.plug c).children[x.index]? = some c := by
  simp [plug, index, ← x.left_length]

theorem getElem?_children_pair_left (x : Context κ ν) (a b : Node κ ν) (e : Entry κ ν) :
    (x.pair a e b).children[x.index]? = some a :=
  (x.hold e b).getElem?_children_plug a

theorem getElem?_children_pair_right (x : Context κ ν) (a b : Node κ ν) (e : Entry κ ν) :
    (x.pair a e b).children[x.index + 1]? = some b := by
  have hget := (x.skip a e).getElem?_children_plug b
  rwa [skip_plug, index_skip] at hget

/-- The left sibling of the gap is the last child before it. -/
theorem getElem?_children_plug_left (x : Context κ ν) (c : Node κ ν) {i : Nat}
    (hi : i + 1 = x.index) : (x.plug c).children[i]? = x.leftChildren.getLast? := by
  have hlen : x.leftChildren.length = i + 1 := x.left_length.trans hi.symm
  rw [plug, List.getElem?_append_left (by omega), List.getLast?_eq_getElem?, hlen]
  rfl

/-- The right sibling of the gap is the first child after it. -/
theorem getElem?_children_plug_right (x : Context κ ν) (c : Node κ ν) :
    (x.plug c).children[x.index + 1]? = x.rightChildren.head? := by
  rw [plug, index, ← x.left_length, List.getElem?_append_right (by omega)]
  simp [List.head?_eq_getElem?]

/-- The last entry before the gap. -/
theorem getElem?_entries_plug_left (x : Context κ ν) (c : Node κ ν) {i : Nat}
    (hi : i + 1 = x.index) : (x.plug c).entries[i]? = x.leftEntries.getLast? := by
  have hlen : x.leftEntries.length = i + 1 := hi.symm
  rw [plug, List.getElem?_append_left (by omega), List.getLast?_eq_getElem?, hlen]
  rfl

/-- The first entry after the gap. -/
theorem getElem?_entries_plug_right (x : Context κ ν) (c : Node κ ν) :
    (x.plug c).entries[x.index]? = x.rightEntries.head? := by
  rw [plug, index, List.getElem?_append_right (Nat.le_refl _)]
  simp [List.head?_eq_getElem?]

theorem access_children_plug (x : Context κ ν) (c : Node κ ν) :
    access (x.plug c).children x.index = .ok c :=
  access_eq_ok_iff.2 (x.getElem?_children_plug c)

theorem access_children_pair_left (x : Context κ ν) (a b : Node κ ν) (e : Entry κ ν) :
    access (x.pair a e b).children x.index = .ok a :=
  access_eq_ok_iff.2 (x.getElem?_children_pair_left a b e)

theorem access_children_pair_right (x : Context κ ν) (a b : Node κ ν) (e : Entry κ ν) :
    access (x.pair a e b).children (x.index + 1) = .ok b :=
  access_eq_ok_iff.2 (x.getElem?_children_pair_right a b e)

theorem access_entries_pair (x : Context κ ν) (a b : Node κ ν) (e : Entry κ ν) :
    access (x.pair a e b).entries x.index = .ok e := by
  rw [access_eq_ok_iff]
  simp [pair, index]

theorem lt_length_children_plug (x : Context κ ν) (c : Node κ ν) {i : Nat} (hi : i = x.index) :
    i < (x.plug c).children.length := by
  rw [hi]
  exact (List.getElem?_eq_some_iff.1 (x.getElem?_children_plug c)).1

theorem get_children_plug {x : Context κ ν} {c : Node κ ν} {i : Nat} (hi : i = x.index)
    (hlt : i < (x.plug c).children.length) : (x.plug c).children.get ⟨i, hlt⟩ = c := by
  subst hi
  have hget := x.getElem?_children_plug c
  rw [List.getElem?_eq_getElem hlt] at hget
  exact Option.some.inj hget

theorem set_children_plug (x : Context κ ν) (c d : Node κ ν) :
    (x.plug c).children.set x.index d = (x.plug d).children := by
  simp [plug, index, ← x.left_length]

theorem atChild_plug {α : Type} {x : Context κ ν} {c d : Node κ ν}
    {f : Node κ ν → Edit (α × Node κ ν)} {a : α} {es : List Event} (hf : f c = .done (a, d) es) :
    ((x.plug c).atChild x.index fun d _ => f d) = .done (a, x.plug d) es := by
  rw [Node.atChild_eq_done (x.getElem?_children_plug c) hf, set_children_plug]
  rfl

theorem atChild_pair_left {α : Type} {x : Context κ ν} {a b d : Node κ ν} {e : Entry κ ν}
    {f : Node κ ν → Edit (α × Node κ ν)} {r : α} {es : List Event} (hf : f a = .done (r, d) es) :
    ((x.pair a e b).atChild x.index fun d _ => f d) = .done (r, x.pair d e b) es :=
  atChild_plug (x := x.hold e b) hf

theorem atChild_pair_right {α : Type} {x : Context κ ν} {a b d : Node κ ν} {e : Entry κ ν}
    {f : Node κ ν → Edit (α × Node κ ν)} {r : α} {es : List Event} (hf : f b = .done (r, d) es) :
    ((x.pair a e b).atChild (x.index + 1) fun d _ => f d) = .done (r, x.pair a e d) es := by
  have := atChild_plug (x := x.skip a e) hf
  rwa [skip_plug, skip_plug, index_skip] at this

/-! ### What is read before and after the gap -/

@[simp]
theorem before_hold (x : Context κ ν) (e : Entry κ ν) (b : Node κ ν) :
    (x.hold e b).before = x.before := rfl

@[simp]
theorem after_skip (x : Context κ ν) (a : Node κ ν) (e : Entry κ ν) :
    (x.skip a e).after = x.after := rfl

@[simp]
theorem after_hold (x : Context κ ν) (e : Entry κ ν) (b : Node κ ν) :
    (x.hold e b).after = e :: (b.toList ++ x.after) := by
  simp only [hold, after, List.map_cons, cons_weave_cons, List.nil_append]
  rw [weave_cons]

@[simp]
theorem before_skip (x : Context κ ν) (a : Node κ ν) (e : Entry κ ν) :
    (x.skip a e).before = x.before ++ (a.toList ++ [e]) := by
  have hlen : x.leftEntries.length = (x.leftChildren.map Node.toList).length := by
    rw [List.length_map, x.left_length]
  simp only [skip, before, List.map_append, List.map_cons, List.map_nil]
  rw [weave_append hlen]
  simp

theorem toList_plug (x : Context κ ν) (c : Node κ ν) :
    (x.plug c).toList = x.before ++ (c.toList ++ x.after) := by
  have hlen : x.leftEntries.length = (x.leftChildren.map Node.toList).length := by
    rw [List.length_map, x.left_length]
  rw [Node.toList_eq]
  simp only [plug, List.map_append, List.map_cons]
  rw [weave_append hlen, weave_cons]
  rfl

theorem toList_pair (x : Context κ ν) (a b : Node κ ν) (e : Entry κ ν) :
    (x.pair a e b).toList = x.before ++ (a.toList ++ e :: (b.toList ++ x.after)) := by
  rw [← hold_plug, toList_plug, before_hold, after_hold]

/-- Nothing is read before the first gap. -/
theorem before_eq_nil_iff {x : Context κ ν} : x.before = [] ↔ x.leftEntries = [] := by
  constructor
  · intro h
    exact List.sublist_nil.1 (h ▸ sublist_weave x.leftEntries _)
  · intro h
    have hnil : x.leftChildren = [] :=
      List.eq_nil_of_length_eq_zero (by rw [x.left_length, h, List.length_nil])
    rw [before, h, hnil]
    rfl

/-- Nothing is read after the last gap. -/
theorem after_eq_nil_iff {x : Context κ ν} : x.after = [] ↔ x.rightEntries = [] := by
  constructor
  · intro h
    exact List.sublist_nil.1 (h ▸ sublist_weave x.rightEntries _)
  · intro h
    rw [after, h]
    rfl

/-! ### Ways to find a context -/

/-- A context has nothing left of its gap, or an entry with a child before it. -/
theorem left_cases (x : Context κ ν) :
    x.leftEntries = [] ∧ x.leftChildren = [] ∨ ∃ y a e, x = skip y a e := by
  obtain ⟨les, lcs, res, rcs, hl, hr⟩ := x
  rcases List.eq_nil_or_concat les with rfl | ⟨les, e, rfl⟩
  · exact .inl ⟨rfl, List.eq_nil_of_length_eq_zero hl⟩
  · rcases List.eq_nil_or_concat lcs with rfl | ⟨lcs, a, rfl⟩
    · simp at hl
    · have hlen : lcs.length = les.length := by simpa using hl
      exact .inr ⟨⟨les, lcs, res, rcs, hlen, hr⟩, a, e, by simp [skip]⟩

/-- A context has nothing right of its gap, or an entry with a child after it. -/
theorem right_cases (x : Context κ ν) :
    x.rightEntries = [] ∧ x.rightChildren = [] ∨ ∃ y e b, x = hold y e b := by
  obtain ⟨les, lcs, res, rcs, hl, hr⟩ := x
  cases res with
  | nil => exact .inl ⟨rfl, List.eq_nil_of_length_eq_zero hr⟩
  | cons e res =>
    cases rcs with
    | nil => simp at hr
    | cons b rcs =>
      have hlen : rcs.length = res.length := by simpa using hr
      exact .inr ⟨⟨les, lcs, res, rcs, hl, hlen⟩, e, b, rfl⟩

theorem ascending_child [Ord κ] {x : Context κ ν} {c : Node κ ν}
    (hasc : Ascending (x.plug c).toList) : Ascending c.toList := by
  rw [toList_plug, ascending_append, ascending_append] at hasc
  obtain ⟨-, ⟨hc, -⟩, -⟩ := hasc
  exact hc

/-- What holds of the entries left of the gap, and of all keys below theirs, holds of all that is
read before the gap. -/
theorem forall_before [Ord κ] {x : Context κ ν} {c : Node κ ν} {p : κ → Prop}
    (hdown : ∀ a b, compare a b = .lt → p b → p a) (hasc : Ascending (x.plug c).toList)
    (hl : ∀ a ∈ x.leftEntries, p a.key) : ∀ a ∈ x.before, p a.key := by
  rw [toList_plug] at hasc
  have hbefore := (ascending_append.1 hasc).1
  rcases x.left_cases with ⟨hnil, hnil'⟩ | ⟨y, d, e, rfl⟩
  · simp [before, hnil, hnil']
  · -- the last entry before the gap is above all else that is read there
    have he : p e.key := hl e (List.mem_append_right _ List.mem_cons_self)
    rw [before_skip, ← List.append_assoc] at hbefore ⊢
    intro a ha
    rcases List.mem_append.1 ha with ha | ha
    · exact hdown _ _ ((ascending_append.1 hbefore).2.2 a ha e List.mem_cons_self) he
    · rw [List.mem_singleton.1 ha]
      exact he

/-- What holds of the entries right of the gap, and of all keys above theirs, holds of all that is
read after the gap. -/
theorem forall_after [Ord κ] {x : Context κ ν} {c : Node κ ν} {p : κ → Prop}
    (hup : ∀ a b, compare a b = .lt → p a → p b) (hasc : Ascending (x.plug c).toList)
    (hr : ∀ b ∈ x.rightEntries, p b.key) : ∀ b ∈ x.after, p b.key := by
  rw [toList_plug] at hasc
  have hafter := (ascending_append.1 (ascending_append.1 hasc).2.1).2.1
  rcases x.right_cases with ⟨hnil, hnil'⟩ | ⟨y, e, d, rfl⟩
  · simp [after, hnil, hnil']
  · have he : p e.key := hr e List.mem_cons_self
    rw [after_hold] at hafter ⊢
    intro b hb
    rcases List.mem_cons.1 hb with rfl | hb
    · exact he
    · exact hup _ _ ((ascending_cons.1 hafter).1 b hb) he

/-- A key bracketed by the entries of an ascending node is bracketed by all that is read before and
after the gap. -/
theorem brackets [Ord κ] [Std.TransOrd κ] {x : Context κ ν} {c : Node κ ν} {k : κ}
    (hasc : Ascending (x.plug c).toList) (hb : Brackets x.leftEntries x.rightEntries k) :
    Brackets x.before x.after k where
  below := by
    refine forall_before (p := fun a => compare a k = .lt) (fun a b hab hbk => ?_) hasc hb.below
    exact Std.TransCmp.lt_trans hab hbk
  above := by
    refine forall_after (p := fun b => compare k b = .lt) (fun a b hab hka => ?_) hasc hb.above
    exact Std.TransCmp.lt_trans hka hab

/-- A key that an entry between two children holds is bracketed by all that is read on either side
of the entry. -/
theorem brackets_pair [Ord κ] [Std.TransOrd κ] {x : Context κ ν} {a b : Node κ ν} {e : Entry κ ν}
    {k : κ} (hasc : Ascending (x.pair a e b).toList) (he : compare k e.key = .eq) :
    Brackets (x.before ++ a.toList) (b.toList ++ x.after) k := by
  rw [toList_pair, ← List.append_assoc] at hasc
  exact brackets_of_eq hasc he

end Context

namespace Node

open Context

theorem entries_sublist (n : Node κ ν) : n.entries.Sublist n.toList := by
  rw [toList_eq]
  exact sublist_weave _ _

theorem ascending_entries [Ord κ] {n : Node κ ν} (hasc : Ascending n.toList) :
    Ascending n.entries :=
  hasc.sublist n.entries_sublist

/-- An inner node with its entries cut in two has a child in the gap. -/
theorem exists_plug {n : Node κ ν} {l r : List (Entry κ ν)}
    (hlen : n.children.length = n.entries.length + 1) (he : n.entries = l ++ r) :
    ∃ x c, n = plug x c ∧ x.leftEntries = l ∧ x.rightEntries = r := by
  obtain ⟨es, cs⟩ := n
  simp only at hlen he
  have hlt : l.length < cs.length := by
    rw [hlen, he, List.length_append]
    omega
  have hleft : (cs.take l.length).length = l.length := by
    rw [List.length_take]
    omega
  have hright : (cs.drop (l.length + 1)).length = r.length := by
    rw [List.length_drop, hlen, he, List.length_append]
    omega
  refine ⟨⟨l, cs.take l.length, r, cs.drop (l.length + 1), hleft, hright⟩, cs[l.length], ?_, rfl,
    rfl⟩
  simp [plug, he]

/-- An inner node has two children around each of its entries. -/
theorem exists_pair {n : Node κ ν} {l r : List (Entry κ ν)} {e : Entry κ ν}
    (hlen : n.children.length = n.entries.length + 1) (he : n.entries = l ++ e :: r) :
    ∃ x a b, n = pair x a e b ∧ x.leftEntries = l ∧ x.rightEntries = r := by
  obtain ⟨x, a, rfl, hl, hr⟩ := exists_plug hlen he
  rcases x.right_cases with ⟨hnil, -⟩ | ⟨y, f, b, rfl⟩
  · rw [hnil] at hr
    cases hr
  · obtain ⟨hf, hy⟩ := List.cons_eq_cons.1 hr
    exact ⟨y, a, b, hf ▸ hold_plug y a f b, hl, hy⟩

end Node

end BTree
