import BTree.Proofs.History
import Mathlib

/-!
# Storing in place

A key that is present takes a new value over where it stands.  `Node.mapEntries f` is a node with `f`
applied to each of its entries: it has the same nodes as before, with as many entries and children.
Both ways to give a key a new value, an insertion and a store, leave just that of the tree, with `f`
changing the value of the one entry that holds the key, and emit nothing, whether there are full nodes
on the way or not:

    Stores k v n e m  →  m = n.mapEntries (Entry.overwrite k v)                        (Stores.eq_overwrite)
    e ∈ t.toList, compare k e.key = .eq
                      →  t.insert k v = done (some e.value, t.overwrite k v) []        (Sound.insert_present)
-/

namespace BTree

variable {κ ν : Type}

/-- The entry with `v` for its value if it holds `k`. -/
def Entry.overwrite [Ord κ] (k : κ) (v : ν) (e : Entry κ ν) : Entry κ ν :=
  if (compare k e.key).isEq then { e with value := v } else e

/-- The node with `f` applied to all entries, its own and those below. -/
def Node.mapEntries (f : Entry κ ν → Entry κ ν) : Node κ ν → Node κ ν
  | ⟨es, cs⟩ => ⟨es.map f, cs.map fun c => c.mapEntries f⟩

/-- The same context with `f` applied to all entries. -/
def Context.mapEntries (f : Entry κ ν → Entry κ ν) (x : Context κ ν) : Context κ ν where
  leftEntries := x.leftEntries.map f
  leftChildren := x.leftChildren.map (Node.mapEntries f)
  rightEntries := x.rightEntries.map f
  rightChildren := x.rightChildren.map (Node.mapEntries f)
  left_length := by rw [List.length_map, List.length_map, x.left_length]
  right_length := by rw [List.length_map, List.length_map, x.right_length]

/-- The tree in which `k` has the value `v`, if it is present. -/
def Tree.overwrite [Ord κ] (k : κ) (v : ν) (t : Tree κ ν) : Tree κ ν :=
  { t with root := t.root.map (Node.mapEntries (Entry.overwrite k v)) }

/-! ## Nodes of the same shape -/

theorem map_eq_self {α : Type} {f : α → α} {l : List α} (hf : ∀ a ∈ l, f a = a) : l.map f = l :=
  (List.map_congr_left hf).trans (List.map_id l)

namespace Node

variable (f : Entry κ ν → Entry κ ν)

theorem mapEntries_eq (n : Node κ ν) :
    n.mapEntries f = ⟨n.entries.map f, n.children.map (mapEntries f)⟩ := by
  obtain ⟨es, cs⟩ := n
  rw [mapEntries]

theorem height_mapEntries (n : Node κ ν) : (n.mapEntries f).height = n.height := by
  fun_induction height n with
  | case1 es => rw [mapEntries, List.map_nil, height]
  | case2 es c cs ih => rw [mapEntries, List.map_cons, height, ih]

theorem nodeCount_mapEntries (n : Node κ ν) : (n.mapEntries f).nodeCount = n.nodeCount := by
  induction n using children_induction with
  | step n ih =>
    rw [nodeCount_eq, nodeCount_eq n, mapEntries_eq, List.map_map]
    exact congrArg (fun l => 1 + l.foldr (· + ·) 0) (List.map_congr_left ih)

theorem mapEntries_plug (x : Context κ ν) (c : Node κ ν) :
    (x.plug c).mapEntries f = (x.mapEntries f).plug (c.mapEntries f) := by
  simp [Context.plug, Context.mapEntries, mapEntries_eq f ⟨_, _⟩]

theorem mapEntries_pair (x : Context κ ν) (a b : Node κ ν) (e : Entry κ ν) :
    (x.pair a e b).mapEntries f =
      (x.mapEntries f).pair (a.mapEntries f) (f e) (b.mapEntries f) := by
  simp [Context.pair, Context.mapEntries, mapEntries_eq f ⟨_, _⟩]

variable {f} {ok : Nat → Prop} {h : Nat}

theorem Levelled.mapEntries_eq_self {n : Node κ ν} (hn : n.Levelled ok h)
    (hf : ∀ e ∈ n.toList, f e = e) : n.mapEntries f = n := by
  induction hn with
  | leaf es =>
    rw [toList_childless] at hf
    rw [mapEntries, map_eq_self hf, List.map_nil]
  | @inner h es cs hlen hok hcs ih =>
    rw [toList_eq] at hf
    have hes : ∀ e ∈ es, f e = e := fun e he => hf e ((sublist_weave _ _).subset he)
    have hchildren : ∀ c ∈ cs, c.mapEntries f = c := by
      intro c hc
      have hread : c.toList ⊆ weave es (cs.map toList) :=
        subset_weave (by simp [hlen]) (List.mem_map_of_mem hc)
      exact ih c hc fun e he => hf e (hread he)
    rw [mapEntries, map_eq_self hes, map_eq_self hchildren]

end Node

namespace Context

variable {f : Entry κ ν → Entry κ ν} {ok : Nat → Prop} {h : Nat}

/-- A context is not changed by what changes nothing that is read before and after the gap. -/
theorem Fits.mapEntries_eq_self {x : Context κ ν} (hx : x.Fits ok h)
    (hbefore : ∀ e ∈ x.before, f e = e) (hafter : ∀ e ∈ x.after, f e = e) :
    x.mapEntries f = x := by
  have hles : ∀ e ∈ x.leftEntries, f e = e := fun e he => hbefore e ((sublist_weave _ _).subset he)
  have hres : ∀ e ∈ x.rightEntries, f e = e := fun e he => hafter e ((sublist_weave _ _).subset he)
  have hlcs : ∀ c ∈ x.leftChildren, c.mapEntries f = c := by
    intro c hc
    have hread : c.toList ⊆ x.before :=
      subset_weave (by simp [x.left_length]) (List.mem_map_of_mem hc)
    exact (hx.left c hc).levelled.mapEntries_eq_self fun e he => hbefore e (hread he)
  have hrcs : ∀ c ∈ x.rightChildren, c.mapEntries f = c := by
    intro c hc
    have hread : c.toList ⊆ x.after :=
      subset_weave (by simp [x.right_length]) (List.mem_cons_of_mem _ (List.mem_map_of_mem hc))
    exact (hx.right c hc).levelled.mapEntries_eq_self fun e he => hafter e (hread he)
  obtain ⟨les, lcs, res, rcs, hl, hr⟩ := x
  simp only [mapEntries, map_eq_self hles, map_eq_self hres, map_eq_self hlcs, map_eq_self hrcs]

end Context

/-! ## Stores -/

variable [Ord κ]

theorem Entry.overwrite_of_eq {k : κ} {e : Entry κ ν} (he : compare k e.key = .eq) (v : ν) :
    e.overwrite k v = { e with value := v } := by
  rw [overwrite, he]
  rfl

theorem Brackets.overwrite_right {l r : List (Entry κ ν)} {k : κ} (hb : Brackets l r k) (v : ν) :
    ∀ e ∈ r, e.overwrite k v = e :=
  fun e he => if_neg (Association.not_isEq_of_above (hb.above e he))

namespace Tree

theorem height_overwrite (t : Tree κ ν) (k : κ) (v : ν) : (t.overwrite k v).height = t.height := by
  obtain ⟨_ | root, d, n⟩ := t
  · rfl
  · exact root.height_mapEntries _

theorem nodeCount_overwrite (t : Tree κ ν) (k : κ) (v : ν) :
    (t.overwrite k v).nodeCount = t.nodeCount := by
  obtain ⟨_ | root, d, n⟩ := t
  · rfl
  · exact root.nodeCount_mapEntries _

end Tree

variable [Std.TransOrd κ]

theorem Brackets.overwrite_left {l r : List (Entry κ ν)} {k : κ} (hb : Brackets l r k) (v : ν) :
    ∀ e ∈ l, e.overwrite k v = e :=
  fun e he => if_neg (Association.not_isEq_of_below (hb.below e he))

/-- A store below a node changes the value of the entry that holds the key, and nothing else. -/
theorem Stores.eq_overwrite {ok : Nat → Prop} {h : Nat} {k : κ} {v : ν} {n m : Node κ ν}
    {e : Entry κ ν} (hs : Stores k v n e m) (hn : n.Levelled ok h) (hasc : Ascending n.toList) :
    m = n.mapEntries (Entry.overwrite k v) := by
  induction hs generalizing h with
  | @hit l r e cs he =>
    -- all other keys, of this node and below it, lie strictly before or after the one found
    rcases hn.entry_cases rfl with ⟨-, heq⟩ | ⟨g, x, a, b, -, heq, rfl, rfl, hx, ha, hb⟩
    · obtain ⟨-, rfl⟩ := Node.mk.injEq .. ▸ heq
      rw [Node.toList_childless] at hasc
      have hbrackets : Brackets l r k := brackets_of_eq hasc he
      rw [Node.mapEntries, List.map_append, List.map_cons, List.map_nil,
        map_eq_self (hbrackets.overwrite_left v), map_eq_self (hbrackets.overwrite_right v),
        Entry.overwrite_of_eq he]
    · rw [heq] at hasc ⊢
      obtain ⟨-, rfl⟩ := Node.mk.injEq .. ▸ heq
      have hbrackets := Context.brackets_pair hasc he
      obtain ⟨hbefore, ha'⟩ := List.forall_mem_append.1 (hbrackets.overwrite_left v)
      obtain ⟨hb', hafter⟩ := List.forall_mem_append.1 (hbrackets.overwrite_right v)
      rw [Node.mapEntries_pair, hx.mapEntries_eq_self hbefore hafter,
        ha.levelled.mapEntries_eq_self ha', hb.levelled.mapEntries_eq_self hb',
        Entry.overwrite_of_eq he]
      rfl
  | @descend x c d e hb hs ih =>
    obtain ⟨g, rfl, hx, hc⟩ := Context.levelled_plug_iff.1 hn
    have hbrackets : Brackets x.before x.after k := Context.brackets hasc hb
    rw [Node.mapEntries_plug,
      hx.mapEntries_eq_self (hbrackets.overwrite_left v) (hbrackets.overwrite_right v),
      ← ih hc.levelled (Context.ascending_child hasc)]

namespace Tree

variable {t : Tree κ ν} {k : κ}

/-- A key that has a value is overwritten where it stands. -/
theorem Puts.eq_overwrite {v w : ν} {o : Option ν} {s : Tree κ ν} {es : List Event}
    (hp : Puts k v t o s es) (h : t.Sound) (ho : o = some w) : s = t.overwrite k v := by
  cases hp with
  | store hs =>
    rw [hs.eq_overwrite (h.levelled _ rfl) h.ascending]
    rfl
  | create => cases ho
  | descend hk hopens hi => cases ho

theorem Sound.store?_present (h : t.Sound) {e : Entry κ ν} (hmem : e ∈ t.toList)
    (he : compare k e.key = .eq) (v : ν) : t.store? k v = some (e.value, t.overwrite k v) := by
  have hfind := (Association.find?_eq_some_iff h.ascending).2 ⟨hmem, he⟩
  rcases store?_spec h k v with ⟨d, s, hd, hp, hstore, -⟩ | ⟨hnone, -⟩
  · obtain rfl : e = d := Option.some.inj (hfind.symm.trans hd)
    rw [hstore, hp.eq_overwrite h rfl]
  · rw [hfind] at hnone
    cases hnone

theorem Sound.insert_present (h : t.Sound) {e : Entry κ ν} (hmem : e ∈ t.toList)
    (he : compare k e.key = .eq) (v : ν) :
    t.insert k v = .done (some e.value, t.overwrite k v) [] := by
  rw [insert, h.store?_present hmem he]
  rfl

theorem Sound.store?_absent (h : t.Sound) (hne : ∀ e ∈ t.toList, compare k e.key ≠ .eq) (v : ν) :
    t.store? k v = none := by
  rcases store?_spec h k v with ⟨e, s, hfind, -⟩ | ⟨-, hstore⟩
  · rw [Association.find?_eq_none_iff.2 hne] at hfind
    cases hfind
  · exact hstore

/-- In a reachable tree a present key takes a new value over in place, whether it is inserted again or
stored through a reference to its value: the answer is the value before, nothing is emitted, and the
tree has the same nodes with the same entries, in the same spelling, but for the value of the one entry
that holds the key.  A store of an absent key changes nothing. -/
theorem Reachable.overwrites (h : t.Reachable) (k : κ) (v : ν) :
    (∀ e ∈ t.toList, compare k e.key = .eq →
      t.insert k v = .done (some e.value, t.overwrite k v) [] ∧
      t.store? k v = some (e.value, t.overwrite k v) ∧
      t.update (.store k v) = .done (.value (some e.value), t.overwrite k v) [] ∧
      (∀ d ∈ t.toList, compare k d.key = .eq → d = e) ∧
      (t.overwrite k v).size = t.size ∧ (t.overwrite k v).height = t.height ∧
      (t.overwrite k v).nodeCount = t.nodeCount) ∧
    ((∀ e ∈ t.toList, compare k e.key ≠ .eq) →
      t.store? k v = none ∧ t.update (.store k v) = .done (.value none, t) []) := by
  constructor
  · intro e hmem he
    have hstore := h.sound.store?_present hmem he v
    have hfind := (Association.find?_eq_some_iff h.sound.ascending).2 ⟨hmem, he⟩
    refine ⟨h.sound.insert_present hmem he v, hstore, ?_, fun d hd hk => ?_, rfl,
      t.height_overwrite k v, t.nodeCount_overwrite k v⟩
    · rw [Tree.update, hstore]
      rfl
    · rw [(Association.find?_eq_some_iff h.sound.ascending).2 ⟨hd, hk⟩] at hfind
      exact Option.some.inj hfind
  · intro hne
    have hstore := h.sound.store?_absent hne v
    refine ⟨hstore, ?_⟩
    rw [Tree.update, hstore]
    rfl

/-- The root and its first child are full. -/
def brimful : Tree Caseless Nat where
  root := some ⟨[⟨⟨"f"⟩, 1⟩, ⟨⟨"j"⟩, 2⟩, ⟨⟨"n"⟩, 3⟩],
    [⟨[⟨⟨"b"⟩, 4⟩, ⟨⟨"C"⟩, 5⟩, ⟨⟨"d"⟩, 6⟩], []⟩, .leaf ⟨⟨"h"⟩, 7⟩, .leaf ⟨⟨"l"⟩, 8⟩,
      ⟨[⟨⟨"p"⟩, 9⟩, ⟨⟨"r"⟩, 10⟩], []⟩]⟩
  degree := .clamp 2
  size := 10

theorem brimful_reachable : brimful.Reachable := by
  refine .update (u := .extend [(⟨"b"⟩, 4), (⟨"f"⟩, 1), (⟨"h"⟩, 7), (⟨"j"⟩, 2), (⟨"C"⟩, 5),
    (⟨"d"⟩, 6), (⟨"l"⟩, 8), (⟨"n"⟩, 3), (⟨"p"⟩, 9), (⟨"r"⟩, 10)]) (a := .nothing)
    (.empty (.clamp 2)) ⟨[.splitRoot 3, .splitChild 1 1 1, .splitChild 2 1 1], ?_⟩
  cbv

/-- `c` is present as `C`, below two full nodes, and `x` is absent. -/
theorem overwrites_of_brimful :
    brimful.insert ⟨"c"⟩ 11 = .done (some 5, brimful.overwrite ⟨"c"⟩ 11) [] ∧
      (brimful.overwrite ⟨"c"⟩ 11).toList.map Entry.value = [4, 11, 6, 1, 7, 2, 8, 3, 9, 10] ∧
      brimful.update (.store ⟨"x"⟩ 11) = .done (.value none, brimful) [] := by
  have hmem : (⟨⟨"C"⟩, 5⟩ : Entry Caseless Nat) ∈ brimful.toList :=
    List.mem_of_getElem? (i := 1) (by cbv)
  have hc : compare (⟨"c"⟩ : Caseless) ⟨"C"⟩ = .eq := by cbv
  have hx : (brimful.toList.all fun e => compare (⟨"x"⟩ : Caseless) e.key != .eq) = true := by cbv
  refine ⟨((brimful_reachable.overwrites ⟨"c"⟩ 11).1 _ hmem hc).1, by cbv,
    ((brimful_reachable.overwrites ⟨"x"⟩ 11).2 fun e he => ?_).2⟩
  exact bne_iff_ne.1 (List.all_eq_true.1 hx e he)

end Tree

end BTree
