import BTree.Proofs.Extremes
import BTree.Proofs.Range
import BTree.Proofs.Subtree

/-!
# Lookups of a key and of its neighbours

A lookup of the nearest key goes down where the key itself would be found, and falls back on the entries
beside the path, the deepest first.  What is read beyond a gap begins with the entry of the node that
stands there, so the fallbacks of all levels are the entries next to the key in the reading.  The same
entries are those that the cursors of a range hand out first:

    n.nearest? s k = s.peek? (n.toList.filter (s.admits k))                (Node.nearest?_eq)
    t.nearest? s k = ((t.range (s.lower k) (s.upper k)).step s).1          (Sound.nearest?_eq_step)
-/

namespace BTree

variable {κ ν : Type}

/-! ## Towards an end -/

namespace End

/-- Of what stands on either side, the part away from the end. -/
def inner {α : Type} (s : End) (l r : List α) : List α :=
  match s with
  | front => r
  | back => l

/-- From the front the entries are looked for that are not below `k`. -/
def lower (s : End) (k : κ) : Bound κ :=
  match s with
  | front => .included k
  | back => .unbounded

/-- From the back the entries are looked for that are not above `k`. -/
def upper (s : End) (k : κ) : Bound κ :=
  match s with
  | front => .unbounded
  | back => .included k

variable [Ord κ]

/-- The entry is at `k`, or beyond it as seen from the end. -/
def admits (s : End) (k : κ) (e : Entry κ ν) : Bool :=
  (s.lower k).admitsAbove e.key && (s.upper k).admitsBelow e.key

/-- The order in which keys come from the end. -/
def order (s : End) (a b : κ) : Ordering :=
  match s with
  | front => compare a b
  | back => compare b a

/-- Of the entries with keys in `p`, `e` comes first from the end: it has the least key from the front,
and the greatest from the back. -/
structure Extreme (s : End) (p : κ → Prop) (es : List (Entry κ ν)) (e : Entry κ ν) : Prop where
  mem : e ∈ es
  holds : p e.key
  first : ∀ d ∈ es, p d.key → (s.order e.key d.key).isLE

end End

namespace Node

variable [Ord κ]

/-- The entry at `k`, or the nearest one beyond it as seen from the end. -/
def nearest? (s : End) (k : κ) (n : Node κ ν) : Option (Entry κ ν) :=
  match s with
  | .front => n.ceiling? k
  | .back => n.floor? k

end Node

namespace Tree

variable [Ord κ]

/-- The entry at `k`, or the nearest one beyond it as seen from the end. -/
def nearest? (s : End) (k : κ) (t : Tree κ ν) : Option (Entry κ ν) :=
  match s with
  | .front => t.ceiling? k
  | .back => t.floor? k

/-- What the lookups in `t` answer when they are asked for `k`, which may be absent. -/
structure Lookups (t : Tree κ ν) (k : κ) : Prop where
  entry : ∀ e, t.entry? k = some e ↔ e ∈ t.toList ∧ compare k e.key = .eq
  get : ∀ v, t.get? k = some v ↔ ∃ e ∈ t.toList, compare k e.key = .eq ∧ e.value = v
  contains : t.contains k = true ↔ ∃ e ∈ t.toList, compare k e.key = .eq
  /-- A store reaches the entry that holds the key and no other. -/
  store : ∀ v,
    (∃ l e r u, t.toList = l ++ e :: r ∧ compare k e.key = .eq ∧
      t.store? k v = some (e.value, u) ∧ u.toList = l ++ { e with value := v } :: r) ∨
    ((∀ e ∈ t.toList, compare k e.key ≠ .eq) ∧ t.store? k v = none)
  floor : ∀ e, t.floor? k = some e ↔
    End.back.Extreme (fun j => (compare j k).isLE) t.toList e
  floor_none : t.floor? k = none ↔ ∀ e ∈ t.toList, ¬ (compare e.key k).isLE
  ceiling : ∀ e, t.ceiling? k = some e ↔
    End.front.Extreme (fun j => (compare k j).isLE) t.toList e
  ceiling_none : t.ceiling? k = none ↔ ∀ e ∈ t.toList, ¬ (compare k e.key).isLE
  first : ∀ e, t.first? = some e ↔ End.front.Extreme (fun _ => True) t.toList e
  first_none : t.first? = none ↔ t.toList = []
  last : ∀ e, t.last? = some e ↔ End.back.Extreme (fun _ => True) t.toList e
  last_none : t.last? = none ↔ t.toList = []
  floor_range : t.floor? k = (t.range .unbounded (.included k)).nextBack?.1
  ceiling_range : t.ceiling? k = (t.range (.included k) .unbounded).next?.1

end Tree

/-! ## Lemmas -/

namespace Context

/-- What is read beyond the gap begins with the entry next to it. -/
theorem peek?_inner (s : End) (x : Context κ ν) :
    s.peek? (s.inner x.before x.after) = s.peek? (s.inner x.leftEntries x.rightEntries) := by
  cases s with
  | front =>
    show x.after.head? = x.rightEntries.head?
    rcases x.right_cases with ⟨hnil, -⟩ | ⟨y, e, b, rfl⟩
    · rw [after_eq_nil_iff.2 hnil, hnil]
    · rw [after_hold]
      rfl
  | back =>
    show x.before.getLast? = x.leftEntries.getLast?
    rcases x.left_cases with ⟨hnil, -⟩ | ⟨y, a, e, rfl⟩
    · rw [before_eq_nil_iff.2 hnil, hnil]
    · rw [before_skip, ← List.append_assoc, List.getLast?_concat]
      exact List.getLast?_concat.symm

end Context

variable [Ord κ] {k : κ} {s : End} {e : Entry κ ν} {l m r es : List (Entry κ ν)}

namespace End

theorem peek?_eq_none_iff {α : Type} {as : List α} : s.peek? as = none ↔ as = [] := by
  cases s with
  | front => exact List.head?_eq_none_iff
  | back => exact List.getLast?_eq_none_iff

theorem admits_eq : s.admits k e = (s.order k e.key).isLE := by
  cases s with
  | front => exact Bool.and_true _
  | back => exact Bool.true_and _

theorem mem_put {α : Type} {a b : α} {as : List α} : b ∈ s.put a as ↔ b = a ∨ b ∈ as := by
  rw [← (s.cons_perm_put a as).mem_iff, List.mem_cons]

/-- The entry at an end comes before all others. -/
theorem order_of_put (hasc : Ascending (s.put e es)) : ∀ d ∈ es, s.order e.key d.key = .lt := by
  intro d hd
  cases s with
  | front => exact (ascending_cons.1 hasc).1 d hd
  | back => exact (ascending_append.1 hasc).2.2 d hd e List.mem_cons_self

variable [Std.TransOrd κ]

theorem order_of_eq {a b : κ} (hab : compare a b = .eq) : s.order a b = .eq := by
  cases s with
  | front => exact hab
  | back =>
    show compare b a = .eq
    exact Std.OrientedCmp.eq_symm hab

theorem not_isLE_order_of_lt {a b : κ} (hab : s.order a b = .lt) : ¬ (s.order b a).isLE := by
  have hgt : s.order b a = .gt := by
    cases s with
    | front =>
      show compare b a = .gt
      exact Std.OrientedCmp.gt_of_lt hab
    | back =>
      show compare a b = .gt
      exact Std.OrientedCmp.gt_of_lt hab
  simp [hgt]

/-- Of ascending entries the one at an end is the one that comes first from there. -/
theorem peek?_eq_some_iff (hasc : Ascending es) :
    s.peek? es = some e ↔ s.Extreme (fun _ => True) es e := by
  by_cases hne : es = []
  · subst hne
    constructor
    · intro he
      cases mem_of_peek? he
    · rintro ⟨hmem, -, -⟩
      cases hmem
  obtain ⟨a, bs, rfl⟩ := s.exists_put hne
  rw [peek?_put, Option.some.injEq]
  constructor
  · rintro rfl
    refine ⟨mem_put.2 (.inl rfl), trivial, fun d hd _ => ?_⟩
    rcases mem_put.1 hd with rfl | hd
    · simp [order_of_eq Std.ReflCmp.compare_self]
    · exact Ordering.isLE_of_eq_lt (order_of_put hasc d hd)
  · rintro ⟨hmem, -, hfirst⟩
    rcases mem_put.1 hmem with rfl | hmem
    · rfl
    · have hle := hfirst a (mem_put.2 (.inl rfl)) trivial
      exact absurd hle (not_isLE_order_of_lt (order_of_put hasc e hmem))

/-- Of the entries admitted the one at the end is the one that comes first from there. -/
theorem peek?_filter_eq_some_iff (hasc : Ascending es) :
    s.peek? (es.filter (s.admits k)) = some e ↔
      s.Extreme (fun j => (s.order k j).isLE) es e := by
  have hadmits : ∀ d, d ∈ es.filter (s.admits k) ↔ d ∈ es ∧ (s.order k d.key).isLE := by
    intro d
    rw [List.mem_filter, admits_eq]
  rw [peek?_eq_some_iff (hasc.sublist List.filter_sublist)]
  constructor
  · rintro ⟨hmem, -, hfirst⟩
    obtain ⟨hmem, he⟩ := (hadmits e).1 hmem
    exact ⟨hmem, he, fun d hd hk => hfirst d ((hadmits d).2 ⟨hd, hk⟩) trivial⟩
  · rintro ⟨hmem, he, hfirst⟩
    refine ⟨(hadmits e).2 ⟨hmem, he⟩, trivial, fun d hd _ => ?_⟩
    obtain ⟨hd, hk⟩ := (hadmits d).1 hd
    exact hfirst d hd hk

omit [Std.TransOrd κ] in
theorem peek?_filter_eq_none_iff :
    s.peek? (es.filter (s.admits k)) = none ↔ ∀ e ∈ es, ¬ (s.order k e.key).isLE := by
  simp only [peek?_eq_none_iff, List.filter_eq_nil_iff, admits_eq]

theorem admits_of_eq (he : compare k e.key = .eq) : s.admits k e = true := by
  rw [admits_eq, order_of_eq he]
  rfl

/-- Around the place of a key the entries in the middle come first, and then those beyond. -/
theorem peek?_filter_admits (hb : Brackets l r k) :
    s.peek? ((l ++ (m ++ r)).filter (s.admits k)) =
      (s.peek? (m.filter (s.admits k))).or (s.peek? (s.inner l r)) := by
  cases s with
  | front =>
    have hl : ∀ a ∈ l, front.admits k a = false := by
      intro a ha
      simp [admits_eq, order, Std.OrientedCmp.gt_of_lt (hb.below a ha)]
    have hr : ∀ b ∈ r, front.admits k b = true := by
      intro b hmem
      simp [admits_eq, order, hb.above b hmem]
    rw [filter_append_of_fail_of_pass hl hr]
    exact List.head?_append
  | back =>
    have hl : ∀ a ∈ l, back.admits k a = true := by
      intro a ha
      simp [admits_eq, order, hb.below a ha]
    have hr : ∀ b ∈ r, back.admits k b = false := by
      intro b hmem
      simp [admits_eq, order, Std.OrientedCmp.gt_of_lt (hb.above b hmem)]
    rw [filter_append_of_pass_of_fail hl hr]
    exact List.getLast?_append

theorem peek?_filter_admits_at (hb : Brackets l r k) (he : compare k e.key = .eq) :
    s.peek? ((l ++ e :: r).filter (s.admits k)) = some e := by
  have hself : [e].filter (s.admits k) = [e] := by
    rw [List.filter_singleton, admits_of_eq he]
    rfl
  have hmid := peek?_filter_admits (s := s) (m := [e]) hb
  rw [List.singleton_append, hself] at hmid
  rw [hmid, ← s.put_nil e, peek?_put, Option.some_or]

end End

/-! ## The search for the nearest key -/

namespace Node

theorem nearest?_eq_search (s : End) (k : κ) (n : Node κ ν) :
    n.nearest? s k =
      match search Entry.key n.entries k with
      | .found i => some (n.entries.get i)
      | .gap i =>
        let beside := s.peek? (s.inner (n.entries.take i) (n.entries.drop i))
        if h : i < n.children.length then ((n.children.get ⟨i, h⟩).nearest? s k).or beside
        else beside := by
  cases s with
  | front =>
    show n.ceiling? k = _
    rw [ceiling?]
    rfl
  | back =>
    show n.floor? k = _
    rw [floor?]
    rfl

variable [Std.TransOrd κ] {ok : Nat → Prop}

/-- The nearest entry is the first of those that are admitted.  By induction on the levels: what the
search below finds comes before the entry beside the child, and that entry before all others. -/
theorem nearest?_eq (s : End) (k : κ) {h : Nat} {n : Node κ ν} (hn : n.Levelled ok h)
    (hasc : Ascending n.toList) : n.nearest? s k = s.peek? (n.toList.filter (s.admits k)) := by
  induction h generalizing n with
  | zero => cases hn
  | succ h ih =>
    have hreach := search_reached hn hasc k
    rw [nearest?_eq_search]
    generalize search Entry.key n.entries k = pos at hreach
    cases hreach with
    | @hit _ _ l r e i hes hi he =>
      obtain ⟨es, cs⟩ := n
      obtain rfl : es = l ++ e :: r := hes
      obtain ⟨p, q, hpq⟩ := hn.exists_toList_eq
      rw [hpq] at hasc ⊢
      rw [End.peek?_filter_admits_at (brackets_of_eq hasc he) he]
      simp [hi]
    | @miss l r i hi hb =>
      have hnone := End.peek?_filter_admits (s := s) (m := []) hb
      rw [List.nil_append, List.filter_nil, End.peek?_eq_none_iff.2 rfl, Option.none_or] at hnone
      rw [toList_childless, hnone]
      simp [hi]
    | @child g x c i hi hb hx hc =>
      have hside : s.inner ((x.plug c).entries.take x.index) ((x.plug c).entries.drop x.index) =
          s.inner x.leftEntries x.rightEntries := by
        simp [Context.plug, Context.index]
      simp only [dif_pos (x.lt_length_children_plug c hi), Context.get_children_plug hi]
      rw [hi, hside, ih hc.levelled (Context.ascending_child hasc), Context.toList_plug,
        End.peek?_filter_admits (Context.brackets hasc hb), Context.peek?_inner]

end Node

/-! ## Trees -/

namespace Tree

variable {t : Tree κ ν} [Std.TransOrd κ]

theorem Sound.nearest?_eq (h : t.Sound) (s : End) (k : κ) :
    t.nearest? s k = s.peek? (t.within (s.lower k) (s.upper k)) := by
  have hasc := h.ascending
  unfold within
  rw [toList] at hasc ⊢
  cases hroot : t.root with
  | none => cases s <;> simp [nearest?, ceiling?, floor?, hroot, End.peek?]
  | some root =>
    have hnode : t.nearest? s k = root.nearest? s k := by
      cases s <;> simp [nearest?, ceiling?, floor?, hroot, Node.nearest?]
    rw [hroot] at hasc
    rw [hnode, Node.nearest?_eq s k (h.levelled root hroot) hasc]
    rfl

theorem Sound.nearest?_eq_some_iff (h : t.Sound) (s : End) (k : κ) (e : Entry κ ν) :
    t.nearest? s k = some e ↔ s.Extreme (fun j => (s.order k j).isLE) t.toList e := by
  rw [h.nearest?_eq]
  exact End.peek?_filter_eq_some_iff h.ascending

theorem Sound.nearest?_eq_none_iff (h : t.Sound) (s : End) (k : κ) :
    t.nearest? s k = none ↔ ∀ e ∈ t.toList, ¬ (s.order k e.key).isLE := by
  rw [h.nearest?_eq]
  exact End.peek?_filter_eq_none_iff

/-- A search from the root and a cursor that seeks a bound come to the same entry. -/
theorem Sound.nearest?_eq_step (h : t.Sound) (s : End) (k : κ) :
    t.nearest? s k = ((t.range (s.lower k) (s.upper k)).step s).1 := by
  have hasc : Ascending (t.within (s.lower k) (s.upper k)) :=
    h.ascending.sublist List.filter_sublist
  rw [h.nearest?_eq]
  exact ((spans_range h (s.lower k) (s.upper k)).step hasc s).1.symm

theorem Sound.end?_eq_some_iff (h : t.Sound) (s : End) (e : Entry κ ν) :
    t.end? s = some e ↔ s.Extreme (fun _ => True) t.toList e := by
  rw [h.end?_eq]
  exact End.peek?_eq_some_iff h.ascending

omit [Std.TransOrd κ] in
theorem Sound.end?_eq_none_iff (h : t.Sound) (s : End) : t.end? s = none ↔ t.toList = [] := by
  rw [h.end?_eq, End.peek?_eq_none_iff]

/-- A store reaches the entry that holds the key, where it is read. -/
theorem Sound.store?_cases (h : t.Sound) (k : κ) (v : ν) :
    (∃ l e r u, t.toList = l ++ e :: r ∧ compare k e.key = .eq ∧
      t.store? k v = some (e.value, u) ∧ u.toList = l ++ { e with value := v } :: r) ∨
    ((∀ e ∈ t.toList, compare k e.key ≠ .eq) ∧ t.store? k v = none) := by
  have hasc := h.ascending
  rcases store?_spec h k v with ⟨e, u, hfind, -, hstore, hu⟩ | ⟨hfind, hstore⟩
  · obtain ⟨hmem, he⟩ := (Association.find?_eq_some_iff hasc).1 hfind
    obtain ⟨l, r, hlist⟩ := List.append_of_mem hmem
    rw [hlist] at hasc
    refine .inl ⟨l, e, r, u, hlist, he, hstore, ?_⟩
    rw [hu.toList_eq, hlist, Association.insert_at (brackets_of_eq hasc he) he]
  · exact .inr ⟨Association.find?_eq_none_iff.1 hfind, hstore⟩

theorem Sound.get?_eq_some_iff (h : t.Sound) (k : κ) (v : ν) :
    t.get? k = some v ↔ ∃ e ∈ t.toList, compare k e.key = .eq ∧ e.value = v := by
  rw [get?, h.entry?_eq]
  exact Association.map_value_find?_eq_some_iff h.ascending

theorem Sound.contains_iff (h : t.Sound) (k : κ) :
    t.contains k = true ↔ ∃ e ∈ t.toList, compare k e.key = .eq := by
  rw [contains, Option.isSome_iff_exists]
  simp only [h.get?_eq_some_iff]
  constructor
  · rintro ⟨v, e, hmem, he, -⟩
    exact ⟨e, hmem, he⟩
  · rintro ⟨e, hmem, he⟩
    exact ⟨e.value, e, hmem, he, rfl⟩

/-- The lookups of any key in a reachable tree, whether it is present or not, find the entry that holds
it, the nearest ones on either side, and those at the ends. -/
theorem Reachable.lookups (h : t.Reachable) (k : κ) : t.Lookups k where
  entry e := by
    rw [h.sound.entry?_eq]
    exact Association.find?_eq_some_iff h.sound.ascending
  get := h.sound.get?_eq_some_iff k
  contains := h.sound.contains_iff k
  store := h.sound.store?_cases k
  floor := h.sound.nearest?_eq_some_iff .back k
  floor_none := h.sound.nearest?_eq_none_iff .back k
  ceiling := h.sound.nearest?_eq_some_iff .front k
  ceiling_none := h.sound.nearest?_eq_none_iff .front k
  first := h.sound.end?_eq_some_iff .front
  first_none := h.sound.end?_eq_none_iff .front
  last := h.sound.end?_eq_some_iff .back
  last_none := h.sound.end?_eq_none_iff .back
  floor_range := h.sound.nearest?_eq_step .back k
  ceiling_range := h.sound.nearest?_eq_step .front k

/-- Among ten even keys on three levels, the neighbours of an odd one. -/
theorem lookups_of_evens :
    ∃ t : Tree Nat Nat, t.Reachable ∧ t.degree.least = 2 ∧
      t.toList.map Entry.toPair = (List.range' 1 10).map (fun i => (2 * i, i)) ∧
      t.floor? 9 = some ⟨8, 4⟩ ∧ t.ceiling? 9 = some ⟨10, 5⟩ ∧ t.floor? 1 = none ∧
      (t.range .unbounded (.included 9)).nextBack?.1 = some ⟨8, 4⟩ := by
  obtain ⟨t, h, hdegree, hlist⟩ := exists_reachable (κ := Nat) (ν := Nat) ⟨2, by decide⟩
    (by decide) ((List.range' 1 10).map fun i => (2 * i, i))
  have hnine := Reachable.lookups h 9
  have hfloor : t.floor? 9 = some ⟨8, 4⟩ := by
    refine (hnine.floor _).2 ⟨?_, by decide, ?_⟩
    · rw [hlist]
      decide
    · rw [hlist]
      decide
  refine ⟨t, h, congrArg Degree.least hdegree, by rw [hlist]; decide, hfloor, ?_, ?_, ?_⟩
  · refine (hnine.ceiling _).2 ⟨?_, by decide, ?_⟩
    · rw [hlist]
      decide
    · rw [hlist]
      decide
  · refine (Reachable.lookups h 1).floor_none.2 ?_
    rw [hlist]
    decide
  · rw [← hnine.floor_range]
    exact hfloor

end Tree

end BTree
