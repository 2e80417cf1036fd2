import BTree.Proofs.Removal

/-!
# Neighbours that a removal fetches

A removal goes down from node to node.  Where it finds the key in a leaf it takes the entry out; where
it finds the key between two children, one of which can spare an entry, it swaps the entry found for
the one that it pops there.  `Visits t k n m` lists the nodes on the way down, and `Swaps t k n e s c`
says that at `n` the entry `e` is swapped for what is popped at the end `s` of `c`.  For any node this is
what the removal does: it answers `e` just if the child hands an entry over, and if the child did not,
the answer would be that of an absent key.  Below a sound node it always does:

    Fetches t k n e s c  →  c.pop s t = done (o, d) es  →
      n.remove t k = done (o.map fun _ => e, m) fs              (Fetches.remove_eq_done)
    find? k n.toList = some e  →
      n.remove t k = done (some e, m) es, and e is met in a leaf or at a swap     (Node.remove_present)
    Fetches t k n e s c  →  c.pop s t = done (some p, d) es     (Fetches.pop_eq_done)
-/

namespace BTree

variable {κ ν : Type}

namespace Node

variable {n c d : Node κ ν}

theorem isLeaf_eq_false {i : Nat} (hc : n.children[i]? = some c) : n.isLeaf = false := by
  have hne : n.children ≠ [] := List.ne_nil_of_mem (List.mem_of_getElem? hc)
  simpa [isLeaf] using hne

/-- The entry gives way to what the child at `j` hands over, and stays if that is nothing. -/
theorem replaceEntry_eq_done {i : Fin n.entries.length} {j : Nat} {o : Option (Entry κ ν)}
    {es : List Event} {pop : Node κ ν → Edit (Option (Entry κ ν) × Node κ ν)}
    (hc : n.children[j]? = some c) (hpop : pop c = .done (o, d) es) :
    n.replaceEntry i j pop = .done (o.map fun _ => n.entries.get i,
      ⟨o.elim n.entries (n.entries.set i), n.children.set j d⟩) es := by
  simp only [replaceEntry, atChild_eq_done hc hpop, Edit.done_bind]
  cases o <;> simp [Edit.done_after]

end Node

variable [Ord κ]

/-- `Visits t k n m`: on its way down from `n`, the removal of `k` comes to the node `m`. -/
inductive Visits (t : Nat) (k : κ) : Node κ ν → Node κ ν → Prop
  | here (n : Node κ ν) : Visits t k n n
  /-- The removal goes on in the node into which two short children are merged. -/
  | merged {n m a b c d : Node κ ν} {i : Fin n.entries.length}
      (hs : search Entry.key n.entries k = .found i) (ha : n.children[i.val]? = some a)
      (hat : a.entries.length < t) (hb : n.children[i.val + 1]? = some b)
      (hbt : b.entries.length < t) (hm : (n.mergeChildren i).Yields m)
      (hc : m.children[i.val]? = some c) (hv : Visits t k c d) : Visits t k n d
  /-- The removal goes on in the child that is filled. -/
  | filled {n m c d : Node κ ν} {i : Fin (n.entries.length + 1)} {j : Nat}
      (hs : search Entry.key n.entries k = .gap i) (hleaf : n.isLeaf = false)
      (hm : (n.fillChild t i).Yields (j, m)) (hc : m.children[j]? = some c)
      (hv : Visits t k c d) : Visits t k n d

/-- The node is a leaf, and `e` is its entry under `k`. -/
structure Hits (k : κ) (n : Node κ ν) (e : Entry κ ν) : Prop where
  isLeaf : n.isLeaf = true
  found : ∃ i, search Entry.key n.entries k = .found i ∧ n.entries.get i = e

/-- `Swaps t k n e s c`: the removal of `k` finds the entry `e` in `n`, and swaps it for the one that it
pops at the end `s` of the child `c`. -/
inductive Swaps (t : Nat) (k : κ) (n : Node κ ν) : Entry κ ν → End → Node κ ν → Prop
  | predecessor {c : Node κ ν} {e : Entry κ ν} {i : Fin n.entries.length}
      (hs : search Entry.key n.entries k = .found i) (he : n.entries.get i = e)
      (hc : n.children[i.val]? = some c) (hlen : t ≤ c.entries.length) : Swaps t k n e .back c
  | successor {a c : Node κ ν} {e : Entry κ ν} {i : Fin n.entries.length}
      (hs : search Entry.key n.entries k = .found i) (he : n.entries.get i = e)
      (ha : n.children[i.val]? = some a) (hshort : a.entries.length < t)
      (hc : n.children[i.val + 1]? = some c) (hlen : t ≤ c.entries.length) : Swaps t k n e .front c

/-- The removal of `k` below `n` fetches a neighbour for the entry `e`, at the end `s` of the node
`c`. -/
def Fetches (t : Nat) (k : κ) (n : Node κ ν) (e : Entry κ ν) (s : End) (c : Node κ ν) : Prop :=
  ∃ m, Visits t k n m ∧ Swaps t k m e s c

/-! ## What the removal does on its way -/

section
variable {t : Nat} {k : κ} {n m c d r : Node κ ν} {e : Entry κ ν} {s : End} {o : Option (Entry κ ν)}
  {es : List Event}

/-- At a swap the removal answers the entry found if the child hands another one over, which takes its
place; if not, it answers nothing. -/
theorem Swaps.remove_eq_done (hs : Swaps t k n e s c) (hpop : c.pop s t = .done (o, d) es) :
    ∃ i j, n.entries[i]? = some e ∧ n.remove t k = .done (o.map fun _ => e,
      ⟨o.elim n.entries (n.entries.set i), n.children.set j d⟩) es := by
  cases hs with
  | @predecessor _ _ i hs he hc hlen =>
    subst he
    refine ⟨i, i, List.getElem?_eq_getElem i.isLt, ?_⟩
    rw [Node.remove_eq, hs]
    simp only [Node.isLeaf_eq_false hc, Bool.false_eq_true, if_false, access_eq_ok_iff.2 hc,
      Edit.liftM_ok, Edit.done_bind, Edit.after_nil, if_pos hlen]
    exact Node.replaceEntry_eq_done hc hpop
  | @successor a _ _ i hs he ha hshort hc hlen =>
    subst he
    refine ⟨i, i + 1, List.getElem?_eq_getElem i.isLt, ?_⟩
    rw [Node.remove_eq, hs]
    simp only [Node.isLeaf_eq_false ha, Bool.false_eq_true, if_false, access_eq_ok_iff.2 ha,
      access_eq_ok_iff.2 hc, Edit.liftM_ok, Edit.done_bind, Edit.after_nil,
      if_neg (Nat.not_le.2 hshort), if_pos hlen]
    exact Node.replaceEntry_eq_done hc hpop

/-- What the removal answers at a node on the way is what it answers. -/
theorem Visits.remove_eq_done (hv : Visits t k n m) (hr : m.remove t k = .done (o, r) es) :
    ∃ q fs, n.remove t k = .done (o, q) fs := by
  induction hv with
  | here n => exact ⟨r, es, hr⟩
  | @merged n m a b c d i hs ha hat hb hbt hm hc hv ih =>
    obtain ⟨q, fs, heq⟩ := ih hr
    obtain ⟨gs, hm⟩ := hm
    refine ⟨{ m with children := m.children.set i q }, gs ++ fs, ?_⟩
    rw [Node.remove_eq, hs]
    simp only [Node.isLeaf_eq_false ha, Bool.false_eq_true, if_false, access_eq_ok_iff.2 ha,
      access_eq_ok_iff.2 hb, Edit.liftM_ok, Edit.done_bind, if_neg (Nat.not_le.2 hat),
      if_neg (Nat.not_le.2 hbt), hm, Node.atChild_eq_done hc heq, Edit.done_after, List.nil_append]
  | @filled n m c d i j hs hleaf hm hc hv ih =>
    obtain ⟨q, fs, heq⟩ := ih hr
    obtain ⟨gs, hm⟩ := hm
    refine ⟨{ m with children := m.children.set j q }, gs ++ fs, ?_⟩
    rw [Node.remove_eq, hs]
    simp only [hleaf, Bool.false_eq_true, if_false, hm, Edit.done_bind,
      Node.atChild_eq_done hc heq, Edit.done_after]

/-- The removal answers the entry for which it fetches a neighbour, if it gets one. -/
theorem Fetches.remove_eq_done (hf : Fetches t k n e s c) (hpop : c.pop s t = .done (o, d) es) :
    ∃ m fs, n.remove t k = .done (o.map fun _ => e, m) fs := by
  obtain ⟨m, hv, hs⟩ := hf
  obtain ⟨i, j, -, hr⟩ := hs.remove_eq_done hpop
  exact hv.remove_eq_done hr

end

/-! ## Below sound nodes -/

variable {t h : Nat} {k : κ} {n m c : Node κ ν} {e : Entry κ ν} {s : End}

/-- A child that is asked for a neighbour has one to hand over. -/
theorem Swaps.pop_eq_done (hs : Swaps t k n e s c) (ht : 2 ≤ t) (hn : n.Levelled (Occupied t) h) :
    ∃ p d es, c.pop s t = .done (some p, d) es := by
  cases hs with
  | predecessor hs he hc hlen =>
    obtain ⟨g, hcl⟩ := hn.of_mem_children (List.mem_of_getElem? hc)
    obtain ⟨p, d, es, -, heq⟩ := Node.pop_eq_done ht .back hcl (by omega)
    exact ⟨p, d, es, heq⟩
  | successor hs he ha hshort hc hlen =>
    obtain ⟨g, hcl⟩ := hn.of_mem_children (List.mem_of_getElem? hc)
    obtain ⟨p, d, es, -, heq⟩ := Node.pop_eq_done ht .front hcl (by omega)
    exact ⟨p, d, es, heq⟩

variable [Std.TransOrd κ]

/-- Where the removal comes to, leaves are level and keys ascend as they do above. -/
theorem Visits.levelled (hv : Visits t k n m) (ht : 2 ≤ t) (hn : n.Levelled (Occupied t) h)
    (hasc : Ascending n.toList) (hne : 0 < n.entries.length) :
    ∃ g, m.Levelled (Occupied t) g ∧ Ascending m.toList ∧ 0 < m.entries.length := by
  induction hv generalizing h with
  | here n => exact ⟨h, hn, hasc, hne⟩
  | @merged n m a b c d i hs ha hat hb hbt hm hc hv ih =>
    obtain ⟨g, x, e, rfl, rfl, hi, -, haf, hbf⟩ := hn.exists_pair ha hb
    obtain ⟨es, hm⟩ := hm
    rw [← hi, Node.mergeChildren_pair] at hm
    obtain ⟨rfl, -⟩ := Edit.done.inj hm
    rw [← hi] at hc
    obtain rfl : a.append e b = c := Option.some.inj ((x.getElem?_children_plug _).symm.trans hc)
    obtain ⟨hab, hspare⟩ := Node.stands_append e haf hbf hat hbt
    rw [← Node.toList_plug_append x e haf.levelled hbf.levelled] at hasc
    exact ih hab.levelled (Context.ascending_child hasc) (by omega)
  | @filled n m c d i j hs hleaf hm hc hv ih =>
    have hreach := Node.search_reached hn hasc k
    rw [hs] at hreach
    cases hreach with
    | miss hi hb => cases hleaf
    | @child g x c' _ hi hb hx hcf =>
      obtain ⟨y, d', es, hfill, heq, hd, hspare⟩ := Node.fillChild_eq_done (by omega) hx hcf hne
      obtain ⟨fs, hm⟩ := hm
      rw [hi, heq] at hm
      obtain ⟨hpair, -⟩ := Edit.done.inj hm
      obtain ⟨rfl, rfl⟩ := Prod.mk.inj hpair
      obtain rfl : d' = c := Option.some.inj ((y.getElem?_children_plug _).symm.trans hc)
      rw [hfill.toList_eq hx hcf.levelled] at hasc
      exact ih hd.levelled (Context.ascending_child hasc) (by omega)

/-- Below a sound node every neighbour that is asked for is there. -/
theorem Fetches.pop_eq_done (hf : Fetches t k n e s c) (ht : 2 ≤ t)
    (hn : n.Levelled (Occupied t) h) (hasc : Ascending n.toList) (hne : 0 < n.entries.length) :
    ∃ p d es, c.pop s t = .done (some p, d) es := by
  obtain ⟨m, hv, hs⟩ := hf
  obtain ⟨g, hm, -, -⟩ := hv.levelled ht hn hasc hne
  exact hs.pop_eq_done ht hm

theorem Context.search_pair {x : Context κ ν} {a b : Node κ ν} {f : Entry κ ν}
    (hasc : Ascending (x.pair a f b).toList) (hf : compare k f.key = .eq) :
    ∃ i, search Entry.key (x.pair a f b).entries k = .found i ∧ i.val = x.index ∧
      (x.pair a f b).entries.get i = f := by
  obtain ⟨i, hs, hi⟩ := search_found (Node.ascending_entries hasc) hf
  have hi : i.val = x.index := hi
  exact ⟨i, hs, hi, by simp [pair, index, hi]⟩

/-- The entry that a removal answers was met in a leaf or at a swap. -/
theorem Removes.exists_visits {o : Option (Entry κ ν)} {es : List Event} (hr : Removes t k n o m es)
    (hn : n.Levelled (Occupied t) h) (hasc : Ascending n.toList) (ho : o = some e) :
    ∃ r, Visits t k n r ∧ (Hits k r e ∨ ∃ s c, Swaps t k r e s c) := by
  induction hr generalizing h with
  | @hit l r f hf =>
    obtain rfl : f = e := Option.some.inj ho
    obtain ⟨i, hs, hi⟩ := search_found (Node.ascending_entries hasc) hf
    exact ⟨_, .here _, .inl ⟨rfl, i, hs, by simp [hi]⟩⟩
  | miss hb => cases ho
  | @predecessor x a b m f p es hf ha hp =>
    obtain rfl : f = e := Option.some.inj ho
    obtain ⟨i, hs, hi, hget⟩ := Context.search_pair hasc hf
    refine ⟨_, .here _, .inr ⟨.back, a, ?_⟩⟩
    exact .predecessor hs hget (hi ▸ x.getElem?_children_pair_left a b f) ha
  | @successor x a b m f p es hf ha hb hp =>
    obtain rfl : f = e := Option.some.inj ho
    obtain ⟨i, hs, hi, hget⟩ := Context.search_pair hasc hf
    refine ⟨_, .here _, .inr ⟨.front, b, ?_⟩⟩
    exact .successor hs hget (hi ▸ x.getElem?_children_pair_left a b f) ha
      (hi ▸ x.getElem?_children_pair_right a b f) hb
  | @merge x a b m f o es hf ha hb hr ih =>
    obtain ⟨i, hs, hi, -⟩ := Context.search_pair hasc hf
    obtain ⟨g, rfl, -, haf, hbf⟩ := Context.levelled_pair_iff.1 hn
    obtain ⟨hab, -⟩ := Node.stands_append f haf hbf ha hb
    rw [← Node.toList_plug_append x f haf.levelled hbf.levelled] at hasc
    obtain ⟨r, hv, hend⟩ := ih hab.levelled (Context.ascending_child hasc) ho
    refine ⟨r, .merged hs (hi ▸ x.getElem?_children_pair_left a b f) ha
      (hi ▸ x.getElem?_children_pair_right a b f) hb ?_ (hi ▸ x.getElem?_children_plug _) hv, hend⟩
    exact hi ▸ ⟨_, Node.mergeChildren_pair x a b f⟩
  | @descend x y c d m o es fs hb hf hr ih =>
    obtain ⟨i, hs, hi⟩ := search_gap (Node.ascending_entries hasc) hb
    have hi : i.val = x.index := hi
    obtain ⟨g, rfl, hx, hc⟩ := Context.levelled_plug_iff.1 hn
    obtain ⟨-, hd, -⟩ := hf.stands hx hc
    rw [hf.toList_eq hx hc.levelled] at hasc
    obtain ⟨r, hv, hend⟩ := ih hd.levelled (Context.ascending_child hasc) ho
    refine ⟨r, .filled hs (Context.isLeaf_plug x c) ?_ (y.getElem?_children_plug d) hv, hend⟩
    exact hi ▸ ⟨es, Node.fillChild_of_fills hf⟩

/-- Below a sound node the removal of a key that is present answers its entry, which it takes out of a
leaf or swaps for a neighbour. -/
theorem Node.remove_present (ht : 2 ≤ t) (hn : n.Levelled (Occupied t) h)
    (hasc : Ascending n.toList) (hne : 0 < n.entries.length)
    (he : Association.find? k n.toList = some e) :
    (∃ m es, n.remove t k = .done (some e, m) es) ∧
      ((∃ r, Visits t k n r ∧ Hits k r e) ∨ ∃ s c, Fetches t k n e s c) := by
  obtain ⟨o, m, es, hr, heq⟩ := remove_eq_done ht k hn hasc hne
  have ho : o = some e := (hr.answer_eq hn hasc).1.trans he
  obtain ⟨r, hv, hhits | ⟨s, c, hswaps⟩⟩ := hr.exists_visits hn hasc ho
  · exact ⟨⟨m, es, ho ▸ heq⟩, .inl ⟨r, hv, hhits⟩⟩
  · exact ⟨⟨m, es, ho ▸ heq⟩, .inr ⟨s, c, r, hv, hswaps⟩⟩

/-- The predecessor of a separator is fetched from the child before it. -/
example : Fetches 2 3 (⟨[⟨3, 0⟩], [⟨[⟨1, 0⟩, ⟨2, 0⟩], []⟩, ⟨[⟨4, 0⟩], []⟩]⟩ : Node Nat Nat) ⟨3, 0⟩
    .back ⟨[⟨1, 0⟩, ⟨2, 0⟩], []⟩ :=
  ⟨_, .here _, .predecessor (i := ⟨0, by decide⟩) (by decide) rfl rfl (by decide)⟩

end BTree
