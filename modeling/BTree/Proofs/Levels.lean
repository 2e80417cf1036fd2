import BTree.Node.Rotate
import BTree.Node.Split
import BTree.Proofs.Context

/-!
# Levels and occupancy

A node has `h` levels when every path down to a leaf has, and every inner node on the way has one
child more than entries; the number of entries of each node below the top is within `ok`.  The top
itself is left out, since it may be the root or run short during a removal.  The bounds of a tree of
minimum degree `t` are `Occupied t`; `ok` may as well ask for nothing.  Where a step works on the
children of a node alone, `Over top ok h` asks `top` of them and `ok` only of what is below:

    (x.plug c).Over top ok h  ↔  x and c stand at h                                   (over_plug_iff)
    (x.plug c).Levelled ok h  ↔  h = g + 2, and c and the children of x fit g + 1     (levelled_plug_iff)
-/

namespace BTree

variable {κ ν : Type}

/-- The numbers of entries that a node below the root may hold. -/
def Occupied (t m : Nat) : Prop := t - 1 ≤ m ∧ m ≤ 2 * t - 1

instance (t m : Nat) : Decidable (Occupied t m) := inferInstanceAs (Decidable (_ ∧ _))

namespace Node

/-- All leaves lie `h` levels deep, inner nodes have one child more than entries, and the nodes below
the top hold numbers of entries within `ok`. -/
inductive Levelled (ok : Nat → Prop) : Nat → Node κ ν → Prop
  | leaf (es : List (Entry κ ν)) : Levelled ok 1 ⟨es, []⟩
  | inner {h : Nat} {es : List (Entry κ ν)} {cs : List (Node κ ν)} (hlen : cs.length = es.length + 1)
      (hok : ∀ c ∈ cs, ok c.entries.length) (hcs : ∀ c ∈ cs, Levelled ok (h + 1) c) :
      Levelled ok (h + 2) ⟨es, cs⟩

/-- The node has `h` levels, with a number of entries within `top` in itself and within `ok` in every
node below. -/
structure Stands (top ok : Nat → Prop) (h : Nat) (n : Node κ ν) : Prop where
  size : top n.entries.length
  levelled : n.Levelled ok h

/-- The node can stand `h` levels high below another. -/
abbrev Fits (ok : Nat → Prop) (h : Nat) (n : Node κ ν) : Prop := n.Stands ok ok h

/-- An inner node whose children stand `h` levels high. -/
structure Over (top ok : Nat → Prop) (h : Nat) (n : Node κ ν) : Prop where
  length_children : n.children.length = n.entries.length + 1
  stands : ∀ c ∈ n.children, c.Stands top ok h

/-- The child that goes with an entry of a node of `h` levels: none in a leaf. -/
inductive Adjoins (ok : Nat → Prop) : Nat → Option (Node κ ν) → Prop
  | none : Adjoins ok 1 none
  | some {h : Nat} {c : Node κ ν} (hc : c.Fits ok (h + 1)) : Adjoins ok (h + 2) (some c)

end Node

/-- The children around the gap stand `h` levels high. -/
structure Context.Stands (top ok : Nat → Prop) (h : Nat) (x : Context κ ν) : Prop where
  left : ∀ c ∈ x.leftChildren, c.Stands top ok h
  right : ∀ c ∈ x.rightChildren, c.Stands top ok h

/-- The children around the gap fit `h` levels. -/
abbrev Context.Fits (ok : Nat → Prop) (h : Nat) (x : Context κ ν) : Prop := x.Stands ok ok h

/-! ## Lemmas -/

namespace Node

variable {ok : Nat → Prop} {h : Nat}

/-- What holds of a node if it holds of its children holds of every node. -/
theorem children_induction {P : Node κ ν → Prop}
    (step : ∀ n : Node κ ν, (∀ c ∈ n.children, P c) → P n) (n : Node κ ν) : P n :=
  step n fun c _ => children_induction step c
termination_by n.depth
decreasing_by exact depth_lt_of_mem ‹_›

theorem levelled_one_iff {n : Node κ ν} : n.Levelled ok 1 ↔ n.children = [] := by
  obtain ⟨es, cs⟩ := n
  constructor
  · intro hn
    cases hn
    rfl
  · rintro (rfl : cs = [])
    exact .leaf es

theorem levelled_add_two_iff {n : Node κ ν} :
    n.Levelled ok (h + 2) ↔
      n.children.length = n.entries.length + 1 ∧ ∀ c ∈ n.children, c.Fits ok (h + 1) := by
  obtain ⟨es, cs⟩ := n
  constructor
  · intro hn
    cases hn with
    | inner hlen hok hcs => exact ⟨hlen, fun c hc => ⟨hok c hc, hcs c hc⟩⟩
  · rintro ⟨hlen, hcs⟩
    exact .inner hlen (fun c hc => (hcs c hc).size) (fun c hc => (hcs c hc).levelled)

theorem over_iff_levelled {n : Node κ ν} : n.Over ok ok (h + 1) ↔ n.Levelled ok (h + 2) := by
  rw [levelled_add_two_iff]
  exact ⟨fun ⟨hlen, hcs⟩ => ⟨hlen, hcs⟩, fun ⟨hlen, hcs⟩ => ⟨hlen, hcs⟩⟩

/-- A levelled node is a leaf of one level, or has its children one level below. -/
theorem Levelled.cases {n : Node κ ν} (hn : n.Levelled ok h) :
    (h = 1 ∧ n.children = []) ∨
      ∃ g, h = g + 2 ∧ n.children.length = n.entries.length + 1 ∧
        ∀ c ∈ n.children, c.Fits ok (g + 1) := by
  cases hn with
  | leaf es => exact .inl ⟨rfl, rfl⟩
  | inner hlen hok hcs => exact .inr ⟨_, rfl, hlen, fun c hc => ⟨hok c hc, hcs c hc⟩⟩

theorem Levelled.exists_height {n : Node κ ν} (hn : n.Levelled ok h) : ∃ g, h = g + 1 := by
  cases hn with
  | leaf es => exact ⟨0, rfl⟩
  | inner hlen hok hcs => exact ⟨_, rfl⟩

theorem Levelled.of_mem_children {n c : Node κ ν} (hn : n.Levelled ok h) (hc : c ∈ n.children) :
    ∃ g, c.Levelled ok g := by
  rcases hn.cases with ⟨-, hnil⟩ | ⟨g, -, -, hcs⟩
  · rw [hnil] at hc
    cases hc
  · exact ⟨g + 1, (hcs c hc).levelled⟩

theorem Levelled.height_eq {n : Node κ ν} (hn : n.Levelled ok h) : n.height = h := by
  induction hn with
  | leaf es => rw [height]
  | @inner h es cs hlen hok hcs ih =>
    cases cs with
    | nil => simp at hlen
    | cons c cs => rw [height, ih c List.mem_cons_self]

theorem count_eq_length_toList {n : Node κ ν} (hn : n.Levelled ok h) :
    n.count = n.toList.length := by
  have hweave : ∀ (es : List (Entry κ ν)) (cs : List (Node κ ν)), cs.length = es.length + 1 →
      (∀ c ∈ cs, c.count = c.toList.length) →
      es.length + (cs.map count).foldr (· + ·) 0 = (weave es (cs.map toList)).length := by
    intro es
    induction es with
    | nil =>
      intro cs hlen hcs
      match cs, hlen with
      | [c], _ => simp [hcs c List.mem_cons_self]
    | cons e es ih =>
      intro cs hlen hcs
      cases cs with
      | nil => simp at hlen
      | cons c cs =>
        have hc := hcs c List.mem_cons_self
        have hrest := ih cs (by simpa using hlen) fun d hd => hcs d (List.mem_cons_of_mem _ hd)
        simp only [List.map_cons, List.foldr_cons, cons_weave_cons, List.length_append,
          List.length_cons]
        omega
  induction hn with
  | leaf es => simp [count_eq, toList_eq]
  | @inner h es cs hlen hok hcs ih =>
    rw [count_eq, toList_eq]
    exact hweave es cs hlen ih

end Node

namespace Context

open Node

variable {top ok : Nat → Prop} {h : Nat}

theorem stands_skip_iff {x : Context κ ν} {a : Node κ ν} {e : Entry κ ν} :
    (x.skip a e).Stands top ok h ↔ x.Stands top ok h ∧ a.Stands top ok h := by
  constructor
  · rintro ⟨hl, hr⟩
    have ha := hl a (List.mem_append_right _ List.mem_cons_self)
    exact ⟨⟨fun c hc => hl c (List.mem_append_left _ hc), hr⟩, ha⟩
  · rintro ⟨⟨hl, hr⟩, ha⟩
    refine ⟨fun c hc => ?_, hr⟩
    rcases List.mem_append.1 hc with hc | hc
    · exact hl c hc
    · rw [List.mem_singleton.1 hc]
      exact ha

theorem stands_hold_iff {x : Context κ ν} {b : Node κ ν} {e : Entry κ ν} :
    (x.hold e b).Stands top ok h ↔ x.Stands top ok h ∧ b.Stands top ok h := by
  constructor
  · rintro ⟨hl, hr⟩
    have hb := hr b List.mem_cons_self
    exact ⟨⟨hl, fun c hc => hr c (List.mem_cons_of_mem _ hc)⟩, hb⟩
  · rintro ⟨⟨hl, hr⟩, hb⟩
    refine ⟨hl, fun c hc => ?_⟩
    rcases List.mem_cons.1 hc with rfl | hc
    · exact hb
    · exact hr c hc

theorem over_plug_iff {x : Context κ ν} {c : Node κ ν} :
    (x.plug c).Over top ok h ↔ x.Stands top ok h ∧ c.Stands top ok h := by
  constructor
  · rintro ⟨-, hcs⟩
    refine ⟨⟨fun d hd => hcs d ?_, fun d hd => hcs d ?_⟩, hcs c ?_⟩
    · exact List.mem_append_left _ hd
    · exact List.mem_append_right _ (List.mem_cons_of_mem _ hd)
    · exact List.mem_append_right _ List.mem_cons_self
  · rintro ⟨hx, hc⟩
    refine ⟨x.length_children_plug c, fun d hd => ?_⟩
    rcases List.mem_append.1 hd with hd | hd
    · exact hx.left d hd
    · rcases List.mem_cons.1 hd with rfl | hd
      · exact hc
      · exact hx.right d hd

theorem levelled_plug_iff {x : Context κ ν} {c : Node κ ν} :
    (x.plug c).Levelled ok h ↔ ∃ g, h = g + 2 ∧ x.Fits ok (g + 1) ∧ c.Fits ok (g + 1) := by
  constructor
  · intro hn
    rcases hn.cases with ⟨-, hnil⟩ | ⟨g, rfl, -⟩
    · simp [plug] at hnil
    · exact ⟨g, rfl, over_plug_iff.1 (over_iff_levelled.2 hn)⟩
  · rintro ⟨g, rfl, hfits⟩
    exact over_iff_levelled.1 (over_plug_iff.2 hfits)

theorem levelled_pair_iff {x : Context κ ν} {a b : Node κ ν} {e : Entry κ ν} :
    (x.pair a e b).Levelled ok h ↔
      ∃ g, h = g + 2 ∧ x.Fits ok (g + 1) ∧ a.Fits ok (g + 1) ∧ b.Fits ok (g + 1) := by
  simp only [← hold_plug, levelled_plug_iff, stands_hold_iff, and_comm, and_left_comm]

end Context

/-! ### Taking nodes apart and joining them -/

namespace Node

variable {ok : Nat → Prop} {h : Nat}

/-- Where its entries are cut in two, a node has a child, unless it is a leaf. -/
theorem Levelled.gap_cases {n : Node κ ν} {l r : List (Entry κ ν)} (hn : n.Levelled ok h)
    (hes : n.entries = l ++ r) :
    (h = 1 ∧ n = ⟨l ++ r, []⟩) ∨
      ∃ g x c, h = g + 2 ∧ n = Context.plug x c ∧ x.leftEntries = l ∧ x.rightEntries = r ∧
        x.Fits ok (g + 1) ∧ c.Fits ok (g + 1) := by
  rcases hn.cases with ⟨rfl, hnil⟩ | ⟨-, -, hlen, -⟩
  · obtain ⟨es, cs⟩ := n
    obtain rfl : es = l ++ r := hes
    obtain rfl : cs = [] := hnil
    exact .inl ⟨rfl, rfl⟩
  · obtain ⟨x, c, rfl, hl, hr⟩ := Node.exists_plug hlen hes
    obtain ⟨g, hg, hx, hc⟩ := Context.levelled_plug_iff.1 hn
    exact .inr ⟨g, x, c, hg, rfl, hl, hr, hx, hc⟩

/-- Around each of its entries a node has two children, unless it is a leaf. -/
theorem Levelled.entry_cases {n : Node κ ν} {l r : List (Entry κ ν)} {e : Entry κ ν}
    (hn : n.Levelled ok h) (hes : n.entries = l ++ e :: r) :
    (h = 1 ∧ n = ⟨l ++ e :: r, []⟩) ∨
      ∃ g x a b, h = g + 2 ∧ n = Context.pair x a e b ∧ x.leftEntries = l ∧ x.rightEntries = r ∧
        x.Fits ok (g + 1) ∧ a.Fits ok (g + 1) ∧ b.Fits ok (g + 1) := by
  rcases hn.cases with ⟨rfl, hnil⟩ | ⟨-, -, hlen, -⟩
  · obtain ⟨es, cs⟩ := n
    obtain rfl : es = l ++ e :: r := hes
    obtain rfl : cs = [] := hnil
    exact .inl ⟨rfl, rfl⟩
  · obtain ⟨x, a, b, rfl, hl, hr⟩ := Node.exists_pair hlen hes
    obtain ⟨g, hg, hx, ha, hb⟩ := Context.levelled_pair_iff.1 hn
    exact .inr ⟨g, x, a, b, hg, rfl, hl, hr, hx, ha, hb⟩

/-- A node with a child at `i` is that child in a gap. -/
theorem Over.exists_plug {top : Nat → Prop} {n c : Node κ ν} {i : Nat} (hn : n.Over top ok h)
    (hc : n.children[i]? = some c) :
    ∃ x, n = Context.plug x c ∧ x.index = i ∧ x.Stands top ok h ∧ c.Stands top ok h := by
  have hlen := hn.length_children
  obtain ⟨hi, -⟩ := List.getElem?_eq_some_iff.1 hc
  obtain ⟨x, d, rfl, hl, -⟩ := Node.exists_plug hlen (List.take_append_drop i n.entries).symm
  have hindex : x.index = i := by
    rw [Context.index, hl, List.length_take]
    omega
  obtain rfl : d = c := by
    have hget := x.getElem?_children_plug d
    rw [hindex, hc] at hget
    exact (Option.some.inj hget).symm
  exact ⟨x, rfl, hindex, Context.over_plug_iff.1 hn⟩

theorem Levelled.exists_plug {n c : Node κ ν} {i : Nat} (hn : n.Levelled ok h)
    (hc : n.children[i]? = some c) :
    ∃ g x, h = g + 2 ∧ n = Context.plug x c ∧ x.index = i ∧ x.Fits ok (g + 1) ∧
      c.Fits ok (g + 1) := by
  rcases hn.cases with ⟨-, hnil⟩ | ⟨g, rfl, -⟩
  · rw [hnil] at hc
    cases hc
  · obtain ⟨x, hplug, hi, hx, hfits⟩ := (over_iff_levelled.2 hn).exists_plug hc
    exact ⟨g, x, rfl, hplug, hi, hx, hfits⟩

/-- A node with children at `i` and next to it is those two in a gap, around an entry. -/
theorem Levelled.exists_pair {n a b : Node κ ν} {i : Nat} (hn : n.Levelled ok h)
    (ha : n.children[i]? = some a) (hb : n.children[i + 1]? = some b) :
    ∃ g x e, h = g + 2 ∧ n = Context.pair x a e b ∧ x.index = i ∧ x.Fits ok (g + 1) ∧
      a.Fits ok (g + 1) ∧ b.Fits ok (g + 1) := by
  obtain ⟨g, x, hg, rfl, rfl, hx, hfits⟩ := hn.exists_plug ha
  rw [x.getElem?_children_plug_right a] at hb
  rcases x.right_cases with ⟨-, hnil⟩ | ⟨y, e, d, rfl⟩
  · rw [hnil] at hb
    cases hb
  · obtain rfl : d = b := Option.some.inj hb
    obtain ⟨hy, hd⟩ := Context.stands_hold_iff.1 hx
    exact ⟨g, y, e, hg, rfl, rfl, hy, hfits, hd⟩

theorem length_entries_pushLeft (n : Node κ ν) (e : Entry κ ν) (g : Option (Node κ ν)) :
    (n.pushLeft e g).entries.length = n.entries.length + 1 := rfl

theorem length_entries_pushRight (n : Node κ ν) (e : Entry κ ν) (g : Option (Node κ ν)) :
    (n.pushRight e g).entries.length = n.entries.length + 1 := by
  simp [pushRight]

theorem length_entries_append (a b : Node κ ν) (e : Entry κ ν) :
    (a.append e b).entries.length = a.entries.length + b.entries.length + 1 := by
  simp only [append, List.length_append, List.length_cons]
  omega

theorem levelled_pushLeft {n : Node κ ν} {g : Option (Node κ ν)} (e : Entry κ ν)
    (hn : n.Levelled ok h) (hg : Adjoins ok h g) : (n.pushLeft e g).Levelled ok h := by
  cases hg with
  | none =>
    rw [levelled_one_iff] at hn ⊢
    exact hn
  | some hc =>
    rw [levelled_add_two_iff] at hn ⊢
    refine ⟨by simp [pushLeft, hn.1], fun d hd => ?_⟩
    rcases List.mem_cons.1 hd with rfl | hd
    · exact hc
    · exact hn.2 d hd

theorem levelled_pushRight {n : Node κ ν} {g : Option (Node κ ν)} (e : Entry κ ν)
    (hn : n.Levelled ok h) (hg : Adjoins ok h g) : (n.pushRight e g).Levelled ok h := by
  cases hg with
  | none =>
    rw [levelled_one_iff] at hn ⊢
    simp [pushRight, hn]
  | some hc =>
    rw [levelled_add_two_iff] at hn ⊢
    refine ⟨by simp [pushRight, hn.1], fun d hd => ?_⟩
    rcases List.mem_append.1 hd with hd | hd
    · exact hn.2 d hd
    · obtain rfl : _ = d := Option.some.inj (Option.mem_toList.1 hd)
      exact hc

/-- A node from which an entry is taken at the left keeps its levels. -/
theorem Levelled.of_pushLeft {n : Node κ ν} {g : Option (Node κ ν)} {e : Entry κ ν}
    (hn : (n.pushLeft e g).Levelled ok h) (hg : g = none → n.children = []) :
    n.Levelled ok h ∧ Adjoins ok h g := by
  rcases hn.cases with ⟨rfl, hnil⟩ | ⟨f, rfl, hlen, hcs⟩
  · obtain ⟨hg', hc⟩ := List.append_eq_nil_iff.1 hnil
    rw [Option.toList_eq_nil_iff] at hg'
    exact ⟨levelled_one_iff.2 hc, hg' ▸ .none⟩
  · cases g with
    | none => simp [pushLeft, hg rfl] at hlen
    | some c =>
      refine ⟨levelled_add_two_iff.2 ⟨by simpa [pushLeft] using hlen, fun d hd => ?_⟩, .some ?_⟩
      · exact hcs d (List.mem_append_right _ hd)
      · exact hcs c (List.mem_append_left _ (Option.mem_toList.2 rfl))

/-- A node from which an entry is taken at the right keeps its levels. -/
theorem Levelled.of_pushRight {n : Node κ ν} {g : Option (Node κ ν)} {e : Entry κ ν}
    (hn : (n.pushRight e g).Levelled ok h) (hg : g = none → n.children = []) :
    n.Levelled ok h ∧ Adjoins ok h g := by
  rcases hn.cases with ⟨rfl, hnil⟩ | ⟨f, rfl, hlen, hcs⟩
  · obtain ⟨hc, hg'⟩ := List.append_eq_nil_iff.1 hnil
    rw [Option.toList_eq_nil_iff] at hg'
    exact ⟨levelled_one_iff.2 hc, hg' ▸ .none⟩
  · cases g with
    | none => simp [pushRight, hg rfl] at hlen
    | some c =>
      refine ⟨levelled_add_two_iff.2 ⟨by simpa [pushRight] using hlen, fun d hd => ?_⟩, .some ?_⟩
      · exact hcs d (List.mem_append_left _ hd)
      · exact hcs c (List.mem_append_right _ (Option.mem_toList.2 rfl))

theorem levelled_binary {a b : Node κ ν} (e : Entry κ ν) (ha : a.Fits ok (h + 1))
    (hb : b.Fits ok (h + 1)) : (binary a e b).Levelled ok (h + 2) := by
  rw [levelled_add_two_iff]
  refine ⟨rfl, fun c hc => ?_⟩
  rcases List.mem_cons.1 hc with rfl | hc
  · exact ha
  · rw [List.mem_singleton.1 hc]
    exact hb

theorem toList_binary (a b : Node κ ν) (e : Entry κ ν) :
    (binary a e b).toList = a.toList ++ e :: b.toList := by
  rw [toList_eq]
  rfl

theorem levelled_append {a b : Node κ ν} (e : Entry κ ν) (ha : a.Levelled ok h)
    (hb : b.Levelled ok h) : (a.append e b).Levelled ok h := by
  rcases ha.cases with ⟨rfl, hnil⟩ | ⟨g, rfl, hlen, hcs⟩
  · rw [levelled_one_iff] at hb ⊢
    simp [append, hnil, hb]
  · rw [levelled_add_two_iff] at hb ⊢
    refine ⟨?_, fun d hd => ?_⟩
    · simp only [append, List.length_append, List.length_cons, hlen, hb.1]
      omega
    · rcases List.mem_append.1 hd with hd | hd
      · exact hcs d hd
      · exact hb.2 d hd

theorem toList_append {a b : Node κ ν} (e : Entry κ ν) (ha : a.Levelled ok h)
    (hb : b.Levelled ok h) : (a.append e b).toList = a.toList ++ e :: b.toList := by
  rw [toList_eq, toList_eq a, toList_eq b]
  rcases ha.cases with ⟨rfl, hnil⟩ | ⟨g, rfl, hlen, -⟩
  · rw [levelled_one_iff] at hb
    simp [append, hnil, hb]
  · simp only [append, List.map_append]
    exact weave_append_cons e (by rw [List.length_map, hlen])

/-- A node with an entry to spare can lose one. -/
theorem Stands.of_loss {t : Nat} {c m : Node κ ν} (hc : c.Stands (Occupied t) ok h)
    (hspare : t ≤ c.entries.length) (hm : m.Levelled ok h)
    (hlen : m.entries.length = c.entries.length ∨ m.entries.length + 1 = c.entries.length) :
    m.Stands (Occupied t) ok h := by
  have hmax : c.entries.length ≤ 2 * t - 1 := hc.size.2
  exact ⟨⟨by omega, by omega⟩, hm⟩

/-- A node with room for an entry can gain one. -/
theorem Stands.of_gain {t : Nat} {c m : Node κ ν} (hc : c.Stands (Occupied t) ok h)
    (hroom : c.entries.length < 2 * t - 1) (hm : m.Levelled ok h)
    (hmin : c.entries.length ≤ m.entries.length)
    (hmax : m.entries.length ≤ c.entries.length + 1) : m.Stands (Occupied t) ok h := by
  have hcmin : t - 1 ≤ c.entries.length := hc.size.1
  exact ⟨⟨by omega, by omega⟩, hm⟩

/-- Two short neighbours, joined, have an entry to spare. -/
theorem stands_append {t : Nat} {a b : Node κ ν} (e : Entry κ ν)
    (ha : a.Stands (Occupied t) ok h) (hb : b.Stands (Occupied t) ok h)
    (hat : a.entries.length < t) (hbt : b.entries.length < t) :
    (a.append e b).Stands (Occupied t) ok h ∧ t ≤ (a.append e b).entries.length := by
  have hlen := length_entries_append a b e
  have hamin : t - 1 ≤ a.entries.length := ha.size.1
  exact ⟨⟨⟨by omega, by omega⟩, levelled_append e ha.levelled hb.levelled⟩, by omega⟩

/-- Joining two children and the entry between them is not seen in the reading. -/
theorem toList_plug_append (x : Context κ ν) {a b : Node κ ν} (e : Entry κ ν)
    (ha : a.Levelled ok h) (hb : b.Levelled ok h) :
    (x.plug (a.append e b)).toList = (x.pair a e b).toList := by
  rw [Context.toList_plug, Context.toList_pair, toList_append e ha hb, List.append_assoc,
    List.cons_append]

theorem toList_pushLeft {n : Node κ ν} {g : Option (Node κ ν)} (e : Entry κ ν)
    (hn : n.Levelled ok h) (hg : Adjoins ok h g) :
    (n.pushLeft e g).toList = (g.map toList).getD [] ++ e :: n.toList := by
  rw [toList_eq, toList_eq n]
  cases hg with
  | none =>
    rw [levelled_one_iff] at hn
    simp [pushLeft, hn]
  | some hc => rfl

theorem toList_pushRight {n : Node κ ν} {g : Option (Node κ ν)} (e : Entry κ ν)
    (hn : n.Levelled ok h) (hg : Adjoins ok h g) :
    (n.pushRight e g).toList = n.toList ++ e :: (g.map toList).getD [] := by
  rw [toList_eq, toList_eq n]
  cases hg with
  | none =>
    rw [levelled_one_iff] at hn
    simp [pushRight, hn]
  | some hc =>
    rw [levelled_add_two_iff] at hn
    simp only [pushRight, List.map_append]
    exact weave_append_cons e (by rw [List.length_map, hn.1])

/-- An entry of a node can be exchanged where it is read, and nothing else changes. -/
theorem Levelled.exists_toList_eq {l r : List (Entry κ ν)} {e : Entry κ ν} {cs : List (Node κ ν)}
    (hn : Levelled ok h ⟨l ++ e :: r, cs⟩) :
    ∃ p q, ∀ f, toList ⟨l ++ f :: r, cs⟩ = p ++ f :: q := by
  rcases hn.cases with ⟨-, hnil⟩ | ⟨g, -, hlen, -⟩
  · obtain rfl : cs = [] := hnil
    exact ⟨l, r, fun f => toList_childless _⟩
  · obtain ⟨x, a, b, hpair, rfl, rfl⟩ := Node.exists_pair hlen rfl
    obtain ⟨-, rfl⟩ := Node.mk.injEq .. ▸ hpair
    exact ⟨x.before ++ a.toList, b.toList ++ x.after, fun f => by
      rw [List.append_assoc]
      exact x.toList_pair a b f⟩

theorem Levelled.exchange {l r : List (Entry κ ν)} {e : Entry κ ν} {cs : List (Node κ ν)}
    (hn : Levelled ok h ⟨l ++ e :: r, cs⟩) (f : Entry κ ν) : Levelled ok h ⟨l ++ f :: r, cs⟩ := by
  rcases hn.cases with ⟨rfl, hnil⟩ | ⟨g, rfl, hlen, hcs⟩
  · exact levelled_one_iff.2 hnil
  · exact levelled_add_two_iff.2 ⟨by simpa using hlen, hcs⟩

/-- What is left of an entry is a node of the same levels. -/
theorem Levelled.take {es : List (Entry κ ν)} {cs : List (Node κ ν)} {m : Nat}
    (hn : Levelled ok h ⟨es, cs⟩) (hm : m < es.length) :
    Levelled ok h ⟨es.take m, cs.take (m + 1)⟩ := by
  rcases hn.cases with ⟨rfl, hnil⟩ | ⟨g, rfl, hlen, hcs⟩
  · rw [levelled_one_iff]
    exact List.take_eq_nil_iff.2 (.inr hnil)
  · rw [levelled_add_two_iff]
    refine ⟨?_, fun c hc => hcs c (List.mem_of_mem_take hc)⟩
    have hlen : cs.length = es.length + 1 := hlen
    rw [List.length_take, List.length_take]
    omega

/-- What is right of an entry is a node of the same levels. -/
theorem Levelled.drop {es : List (Entry κ ν)} {cs : List (Node κ ν)} {m : Nat}
    (hn : Levelled ok h ⟨es, cs⟩) (hm : m < es.length) :
    Levelled ok h ⟨es.drop (m + 1), cs.drop (m + 1)⟩ := by
  rcases hn.cases with ⟨rfl, hnil⟩ | ⟨g, rfl, hlen, hcs⟩
  · rw [levelled_one_iff]
    exact List.drop_eq_nil_iff.2 (by rw [show cs = [] from hnil]; exact Nat.zero_le _)
  · rw [levelled_add_two_iff]
    refine ⟨?_, fun c hc => hcs c (List.mem_of_mem_drop hc)⟩
    have hlen : cs.length = es.length + 1 := hlen
    rw [List.length_drop, List.length_drop]
    omega

/-- A node with entries splits into halves that make it up again. -/
theorem exists_split {n : Node κ ν} (hn : n.Levelled ok h) (hne : n.entries ≠ []) :
    ∃ a e b, n.split = .ok (a, e, b) ∧ n = a.append e b ∧ a.Levelled ok h ∧ b.Levelled ok h ∧
      a.entries.length = (n.entries.length - 1) / 2 ∧ b.entries.length = n.entries.length / 2 := by
  obtain ⟨es, cs⟩ := n
  have hpos : 0 < es.length := List.length_pos_iff.2 hne
  generalize hm : (es.length - 1) / 2 = m
  have hlt : m < es.length := by omega
  have htake : (es.take m).length = m := by
    rw [List.length_take]
    omega
  have hdrop : (es.drop (m + 1)).length = es.length / 2 := by
    rw [List.length_drop]
    omega
  have hsplit : split ⟨es, cs⟩ = .ok (⟨es.take m, cs.take (m + 1)⟩, es[m],
      ⟨es.drop (m + 1), cs.drop (m + 1)⟩) := by
    rw [split_eq_ok_iff]
    refine ⟨m, hm.symm, List.getElem?_eq_getElem hlt, ?_, rfl, rfl⟩
    rcases hn.cases with ⟨-, hnil⟩ | ⟨g, -, hlen, -⟩
    · exact .inl (List.isEmpty_iff.2 hnil)
    · have hlen' : cs.length = es.length + 1 := hlen
      exact .inr (by show m < cs.length; omega)
  exact ⟨_, _, _, hsplit, by simp [append], hn.take hlt, hn.drop hlt, hm ▸ htake, hdrop⟩

end Node

end BTree
