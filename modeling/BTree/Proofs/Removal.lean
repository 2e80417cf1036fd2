import BTree.Node.Removal
import BTree.Proofs.Association
import BTree.Proofs.Ends
import BTree.Proofs.Restructuring
import BTree.Proofs.Search

/-!
# What a removal does

`Pops s t n e m es` derives taking the entry `e` out at the end `s` of the node `n`, which leaves
`m` and emits `es`; `Removes t k n o m es` derives taking out the entry that holds `k`, with the
answer `o`.  There is no rule for a neighbour that could not be fetched: on a sound node the fetch
never fails.

    n.pop s t    = done (some e, m) es, where Pops s t n e m es     (pop_eq_done)
    Pops s t n e m es  →  n.pop s t = done (some e, m) es           (pop_of_pops)
    n.remove t k = done (o, m) es, where Removes t k n o m es       (remove_eq_done)
    n.toList = s.put e m.toList                                     (Pops.toList_eq)
    m.toList = Association.erase k n.toList                         (Removes.answer_eq)
-/

namespace BTree

variable {κ ν : Type}

/-! ## At the ends -/

/-- Takes out the entry at an end. -/
def Node.pop (s : End) (t : Nat) (n : Node κ ν) : Edit (Option (Entry κ ν) × Node κ ν) :=
  match s with
  | .front => n.popFirst t
  | .back => n.popLast t

/-- The entries beyond the gap, towards an end. -/
def Context.beyond (s : End) (x : Context κ ν) : List (Entry κ ν) :=
  match s with
  | .front => x.leftEntries
  | .back => x.rightEntries

theorem Context.outer_eq_nil_iff {s : End} {x : Context κ ν} :
    s.outer x.before x.after = [] ↔ x.beyond s = [] := by
  cases s with
  | front => exact before_eq_nil_iff
  | back => exact after_eq_nil_iff

/-- Filling leaves nothing outside an outermost gap. -/
theorem Fills.outer_eq_nil {s : End} {t h : Nat} {ok : Nat → Prop} {x y : Context κ ν}
    {c d : Node κ ν} {es : List Event} (hf : Fills t x c y d es) (hx : x.Fits ok h)
    (hc : c.Levelled ok h) (hs : x.beyond s = []) : s.outer y.before y.after = [] := by
  obtain ⟨l, r, hbefore, hafter, -⟩ := hf.exists_taken hx hc
  have houter := Context.outer_eq_nil_iff.2 hs
  rw [hbefore, hafter] at houter
  cases s with
  | front => exact (List.append_eq_nil_iff.1 houter).1
  | back => exact (List.append_eq_nil_iff.1 houter).2

/-- `Pops s t n e m es`: taking out the entry at the end `s` of `n` answers `e`, leaves `m` and
emits `es`. -/
inductive Pops (s : End) (t : Nat) : Node κ ν → Entry κ ν → Node κ ν → List Event → Prop
  | leaf {e : Entry κ ν} {r : List (Entry κ ν)} : Pops s t ⟨s.put e r, []⟩ e ⟨r, []⟩ []
  | inner {x y : Context κ ν} {c d m : Node κ ν} {e : Entry κ ν} {es fs : List Event}
      (hx : x.beyond s = []) (hf : Fills t x c y d es) (hp : Pops s t d e m fs) :
      Pops s t (x.plug c) e (y.plug m) (es ++ fs)

namespace Node

theorem pop_leaf (s : End) (t : Nat) (e : Entry κ ν) (r : List (Entry κ ν)) :
    (⟨s.put e r, []⟩ : Node κ ν).pop s t = .done (some e, ⟨r, []⟩) [] := by
  cases s with
  | front =>
    rw [pop, popFirst_eq]
    rfl
  | back =>
    rw [pop, popLast_eq]
    simp [isLeaf, End.put]

theorem pop_plug {s : End} (t : Nat) {x : Context κ ν} (c : Node κ ν) (hx : x.beyond s = []) :
    (x.plug c).pop s t = (do
      let (j, m) ← (x.plug c).fillChild t x.index
      m.atChild j fun d _ => d.pop s t) := by
  cases s with
  | front =>
    have hindex : x.index = 0 := List.length_eq_zero_iff.2 hx
    simp only [pop]
    rw [popFirst_eq, Context.isLeaf_plug, hindex]
    rfl
  | back =>
    have hright : x.rightEntries = [] := hx
    have hindex : (x.plug c).children.length - 1 = x.index := by
      rw [Context.length_children_plug, Context.length_entries_plug, Context.size, hright]
      rfl
    simp only [pop]
    rw [popLast_eq, Context.isLeaf_plug, hindex]
    rfl

/-- At either end a node has a child, unless it is a leaf. -/
theorem Levelled.end_cases {ok : Nat → Prop} {h : Nat} (s : End) {n : Node κ ν}
    (hn : n.Levelled ok h) :
    (h = 1 ∧ ∃ es, n = ⟨es, []⟩) ∨
      ∃ g x c, h = g + 2 ∧ n = Context.plug x c ∧ x.beyond s = [] ∧ x.Fits ok (g + 1) ∧
        c.Fits ok (g + 1) := by
  cases s with
  | front =>
    rcases hn.gap_cases (List.nil_append _).symm with
      ⟨rfl, heq⟩ | ⟨g, x, c, hg, heq, hl, -, hx, hc⟩
    · exact .inl ⟨rfl, _, heq⟩
    · exact .inr ⟨g, x, c, hg, heq, hl, hx, hc⟩
  | back =>
    rcases hn.gap_cases (List.append_nil _).symm with
      ⟨rfl, heq⟩ | ⟨g, x, c, hg, heq, -, hr, hx, hc⟩
    · exact .inl ⟨rfl, _, heq⟩
    · exact .inr ⟨g, x, c, hg, heq, hr, hx, hc⟩

/-- What is derived is what the removal at the end does. -/
theorem pop_of_pops {s : End} {t : Nat} {n m : Node κ ν} {e : Entry κ ν} {es : List Event}
    (hp : Pops s t n e m es) : n.pop s t = .done (some e, m) es := by
  induction hp with
  | @leaf e r => exact pop_leaf s t e r
  | @inner x y c d m e es fs hx hf hp ih =>
    rw [pop_plug t c hx, fillChild_of_fills hf, Edit.done_bind]
    simp only [Context.atChild_plug ih, Edit.done_after]

theorem exists_pops {t h : Nat} (ht : 2 ≤ t) (s : End) {n : Node κ ν}
    (hn : n.Levelled (Occupied t) h) (hne : 0 < n.entries.length) :
    ∃ e m es, Pops s t n e m es := by
  induction h generalizing n with
  | zero => cases hn
  | succ h ih =>
    rcases hn.end_cases s with ⟨-, es, rfl⟩ | ⟨g, x, c, hg, rfl, hx, hxf, hc⟩
    · obtain ⟨e, r, rfl⟩ := s.exists_put (List.length_pos_iff.1 hne)
      exact ⟨e, _, [], .leaf⟩
    · obtain rfl : h = g + 1 := by omega
      obtain ⟨y, d, es, hf, -, hd, hspare⟩ := fillChild_eq_done (by omega) hxf hc hne
      obtain ⟨e, m, fs, hp⟩ := ih hd.levelled (by omega)
      exact ⟨e, _, _, .inner hx hf hp⟩

/-- From a sound node that has entries one can be taken at either end. -/
theorem pop_eq_done {t h : Nat} (ht : 2 ≤ t) (s : End) {n : Node κ ν}
    (hn : n.Levelled (Occupied t) h) (hne : 0 < n.entries.length) :
    ∃ e m es, Pops s t n e m es ∧ n.pop s t = .done (some e, m) es := by
  obtain ⟨e, m, es, hp⟩ := exists_pops ht s hn hne
  exact ⟨e, m, es, hp, pop_of_pops hp⟩

end Node

namespace Pops

variable {s : End} {t h : Nat} {n m : Node κ ν} {e : Entry κ ν} {es : List Event}

/-- The node loses at most one entry, and the nodes below it keep enough. -/
theorem levelled (hp : Pops s t n e m es) (hn : n.Levelled (Occupied t) h) :
    m.Levelled (Occupied t) h ∧
      (m.entries.length = n.entries.length ∨ m.entries.length + 1 = n.entries.length) := by
  induction hp generalizing h with
  | @leaf e r =>
    refine ⟨?_, .inr (s.length_put e r).symm⟩
    rcases hn.cases with ⟨rfl, -⟩ | ⟨g, rfl, hlen, -⟩
    · exact Node.levelled_one_iff.2 rfl
    · simp at hlen
  | @inner x y c d m e es fs hx hf hp ih =>
    obtain ⟨g, rfl, hxf, hc⟩ := Context.levelled_plug_iff.1 hn
    obtain ⟨hy, hd, hspare⟩ := hf.stands hxf hc
    obtain ⟨hm, hlen⟩ := ih hd.levelled
    refine ⟨Context.levelled_plug_iff.2 ⟨g, rfl, hy, hd.of_loss hspare hm hlen⟩, ?_⟩
    rw [Context.length_entries_plug, Context.length_entries_plug]
    exact hf.size_eq

/-- The entry taken is the one read at that end. -/
theorem toList_eq (hp : Pops s t n e m es) (hn : n.Levelled (Occupied t) h) :
    n.toList = s.put e m.toList := by
  induction hp generalizing h with
  | leaf => rw [Node.toList_childless, Node.toList_childless]
  | @inner x y c d m e es fs hx hf hp ih =>
    obtain ⟨g, rfl, hxf, hc⟩ := Context.levelled_plug_iff.1 hn
    obtain ⟨hy, hd, -⟩ := hf.stands hxf hc
    rw [hf.toList_eq hxf hc.levelled, Context.toList_plug, Context.toList_plug, ih hd.levelled]
    exact End.append_put (hf.outer_eq_nil hxf hc.levelled hx) e m.toList

end Pops

/-! ## By key -/

namespace Node

/-- Once a neighbour is fetched, it takes the place of the entry found. -/
theorem replaceEntry_pair {x : Context κ ν} {a b c d : Node κ ν} {e p : Entry κ ν} {j : Nat}
    {pop : Node κ ν → Edit (Option (Entry κ ν) × Node κ ν)} {es : List Event}
    (i : Fin (x.pair a e b).entries.length) (hi : i.val = x.index)
    (hp : ((x.pair a e b).atChild j fun c _ => pop c) = .done (some p, x.pair c e d) es) :
    (x.pair a e b).replaceEntry i j pop = .done (some e, x.pair c p d) es := by
  have hget : (x.pair a e b).entries.get i = e := by
    rw [List.get_eq_getElem]
    simp [Context.pair, Context.index, hi]
  have hset : (x.pair c e d).entries.set i p = (x.pair c p d).entries := by
    simp [Context.pair, Context.index, hi]
  simp only [replaceEntry, hp, Edit.done_bind, hget, hset, Edit.pure_eq_done, Edit.done_after,
    List.append_nil]
  rfl

end Node

variable [Ord κ]

/-- `Removes t k n o m es`: taking out the entry of `n` that holds `k` answers `o`, leaves `m` and
emits `es`. -/
inductive Removes (t : Nat) (k : κ) :
    Node κ ν → Option (Entry κ ν) → Node κ ν → List Event → Prop
  /-- An entry of the leaf holds the key. -/
  | hit {l r : List (Entry κ ν)} {e : Entry κ ν} (he : compare k e.key = .eq) :
      Removes t k ⟨l ++ e :: r, []⟩ (some e) ⟨l ++ r, []⟩ []
  /-- The leaf for the key does not hold it. -/
  | miss {l r : List (Entry κ ν)} (hb : Brackets l r k) :
      Removes t k ⟨l ++ r, []⟩ none ⟨l ++ r, []⟩ []
  /-- The last entry before the one found takes its place. -/
  | predecessor {x : Context κ ν} {a b m : Node κ ν} {e p : Entry κ ν} {es : List Event}
      (he : compare k e.key = .eq) (ha : t ≤ a.entries.length) (hp : Pops .back t a p m es) :
      Removes t k (x.pair a e b) (some e) (x.pair m p b) es
  /-- The first entry after the one found takes its place. -/
  | successor {x : Context κ ν} {a b m : Node κ ν} {e p : Entry κ ν} {es : List Event}
      (he : compare k e.key = .eq) (ha : a.entries.length < t) (hb : t ≤ b.entries.length)
      (hp : Pops .front t b p m es) : Removes t k (x.pair a e b) (some e) (x.pair a p m) es
  /-- The entry found goes down as the children around it are joined. -/
  | merge {x : Context κ ν} {a b m : Node κ ν} {e : Entry κ ν} {o : Option (Entry κ ν)}
      {es : List Event} (he : compare k e.key = .eq) (ha : a.entries.length < t)
      (hb : b.entries.length < t) (hr : Removes t k (a.append e b) o m es) :
      Removes t k (x.pair a e b) o (x.plug m)
        (.mergeChildren x.index a.entries.length b.entries.length :: es)
  /-- The child in the gap is filled and entered. -/
  | descend {x y : Context κ ν} {c d m : Node κ ν} {o : Option (Entry κ ν)} {es fs : List Event}
      (hb : Brackets x.leftEntries x.rightEntries k) (hf : Fills t x c y d es)
      (hr : Removes t k d o m fs) : Removes t k (x.plug c) o (y.plug m) (es ++ fs)

namespace Node

/-- A removal below a sound node that has entries does not fault, and is one of those derived. -/
theorem remove_eq_done [Std.TransOrd κ] {t h : Nat} (ht : 2 ≤ t) (k : κ) {n : Node κ ν}
    (hn : n.Levelled (Occupied t) h) (hasc : Ascending n.toList) (hne : 0 < n.entries.length) :
    ∃ o m es, Removes t k n o m es ∧ n.remove t k = .done (o, m) es := by
  induction h generalizing n with
  | zero => cases hn
  | succ h ih =>
    have hreach := search_reached hn hasc k
    rw [remove_eq]
    generalize search Entry.key n.entries k = pos at hreach
    cases hreach with
    | @hit _ _ l r e i hes hi he =>
      rcases hn.entry_cases hes with ⟨-, rfl⟩ | ⟨g, x, a, b, hg, rfl, rfl, rfl, hx, ha, hb⟩
      · refine ⟨_, _, _, .hit he, ?_⟩
        simp [isLeaf, hi, List.eraseIdx_append_of_length_le]
      · obtain rfl : h = g + 1 := by omega
        have hi : i.val = x.index := hi
        have hleft : access (x.pair a e b).children i = .ok a :=
          hi ▸ x.access_children_pair_left a b e
        have hright : access (x.pair a e b).children (i + 1) = .ok b :=
          hi ▸ x.access_children_pair_right a b e
        simp only [Context.isLeaf_pair, Bool.false_eq_true, if_false, hleft, Edit.liftM_ok,
          Edit.done_bind, Edit.after_nil]
        by_cases hat : t ≤ a.entries.length
        · obtain ⟨p, m, es, hp, heq⟩ := pop_eq_done ht .back ha.levelled (by omega)
          refine ⟨_, _, _, .predecessor he hat hp, ?_⟩
          rw [if_pos hat]
          exact replaceEntry_pair i hi (hi ▸ Context.atChild_pair_left heq)
        · simp only [if_neg hat, hright, Edit.liftM_ok, Edit.done_bind, Edit.after_nil]
          by_cases hbt : t ≤ b.entries.length
          · obtain ⟨p, m, es, hp, heq⟩ := pop_eq_done ht .front hb.levelled (by omega)
            refine ⟨_, _, _, .successor he (Nat.not_le.1 hat) hbt hp, ?_⟩
            rw [if_pos hbt]
            exact replaceEntry_pair i hi (hi ▸ Context.atChild_pair_right heq)
          · -- merging keeps the reading, so the key is looked for again in an ascending node
            rw [Nat.not_le] at hat hbt
            obtain ⟨hab, hspare⟩ := stands_append e ha hb hat hbt
            rw [← toList_plug_append x e ha.levelled hb.levelled] at hasc
            obtain ⟨o, m, es, hr, heq⟩ := ih hab.levelled (Context.ascending_child hasc) (by omega)
            refine ⟨o, _, _, .merge he hat hbt hr, ?_⟩
            rw [if_neg (Nat.not_le.2 hbt), hi, mergeChildren_pair, Edit.done_bind,
              Context.atChild_plug heq]
            rfl
    | miss hi hb => exact ⟨_, _, _, .miss hb, rfl⟩
    | @child g x c i hi hb hx hc =>
      obtain ⟨y, d, es, hf, hfill, hd, hspare⟩ := fillChild_eq_done (by omega) hx hc hne
      rw [hf.toList_eq hx hc.levelled] at hasc
      obtain ⟨o, m, fs, hr, heq⟩ := ih hd.levelled (Context.ascending_child hasc) (by omega)
      refine ⟨o, _, _, .descend hb hf hr, ?_⟩
      simp only [Context.isLeaf_plug, Bool.false_eq_true, if_false, hi, hfill, Edit.done_bind,
        Context.atChild_plug heq, Edit.done_after]

end Node

namespace Removes

variable {t h : Nat} {k : κ} {n m : Node κ ν} {o : Option (Entry κ ν)} {es : List Event}

/-- The node loses at most one entry, and the nodes below it keep enough. -/
theorem levelled (hr : Removes t k n o m es) (hn : n.Levelled (Occupied t) h) :
    m.Levelled (Occupied t) h ∧
      (m.entries.length = n.entries.length ∨ m.entries.length + 1 = n.entries.length) := by
  induction hr generalizing h with
  | hit he =>
    refine ⟨?_, .inr (by simp only [List.length_append, List.length_cons]; omega)⟩
    rcases hn.cases with ⟨rfl, -⟩ | ⟨g, rfl, hlen, -⟩
    · exact Node.levelled_one_iff.2 rfl
    · simp at hlen
  | miss hb => exact ⟨hn, .inl rfl⟩
  | @predecessor x a b m e p es he ha hp =>
    obtain ⟨g, rfl, hx, haf, hbf⟩ := Context.levelled_pair_iff.1 hn
    obtain ⟨hm, hlen⟩ := hp.levelled haf.levelled
    refine ⟨Context.levelled_pair_iff.2 ⟨g, rfl, hx, haf.of_loss ha hm hlen, hbf⟩, .inl ?_⟩
    rw [Context.length_entries_pair, Context.length_entries_pair]
  | @successor x a b m e p es he ha hb hp =>
    obtain ⟨g, rfl, hx, haf, hbf⟩ := Context.levelled_pair_iff.1 hn
    obtain ⟨hm, hlen⟩ := hp.levelled hbf.levelled
    refine ⟨Context.levelled_pair_iff.2 ⟨g, rfl, hx, haf, hbf.of_loss hb hm hlen⟩, .inl ?_⟩
    rw [Context.length_entries_pair, Context.length_entries_pair]
  | @merge x a b m e o es he ha hb hr ih =>
    obtain ⟨g, rfl, hx, haf, hbf⟩ := Context.levelled_pair_iff.1 hn
    obtain ⟨habf, hspare⟩ := Node.stands_append e haf hbf ha hb
    obtain ⟨hm, hlen⟩ := ih habf.levelled
    refine ⟨Context.levelled_plug_iff.2 ⟨g, rfl, hx, habf.of_loss hspare hm hlen⟩, .inr ?_⟩
    rw [Context.length_entries_plug, Context.length_entries_pair]
  | @descend x y c d m o es fs hb hf hr ih =>
    obtain ⟨g, rfl, hx, hc⟩ := Context.levelled_plug_iff.1 hn
    obtain ⟨hy, hd, hspare⟩ := hf.stands hx hc
    obtain ⟨hm, hlen⟩ := ih hd.levelled
    refine ⟨Context.levelled_plug_iff.2 ⟨g, rfl, hy, hd.of_loss hspare hm hlen⟩, ?_⟩
    rw [Context.length_entries_plug, Context.length_entries_plug]
    exact hf.size_eq

/-- The answer is the entry that held the key, and the entries are those of the list model. -/
theorem answer_eq [Std.TransOrd κ] (hr : Removes t k n o m es) (hn : n.Levelled (Occupied t) h)
    (hasc : Ascending n.toList) :
    o = Association.find? k n.toList ∧ m.toList = Association.erase k n.toList := by
  induction hr generalizing h with
  | hit he =>
    rw [Node.toList_childless] at hasc
    rw [Node.toList_childless, Node.toList_childless]
    have hb := brackets_of_eq hasc he
    rw [Association.find?_at hb he, Association.erase_at hb he]
    exact ⟨rfl, rfl⟩
  | miss hb =>
    rw [Node.toList_childless, Association.find?_eq_none_of_brackets hb,
      Association.erase_eq_self_of_brackets hb]
    exact ⟨rfl, rfl⟩
  | @predecessor x a b m e p es he ha hp =>
    obtain ⟨g, rfl, hx, haf, hbf⟩ := Context.levelled_pair_iff.1 hn
    rw [Association.find?_pair hasc he, Association.erase_pair hasc he, Context.toList_pair,
      hp.toList_eq haf.levelled]
    exact ⟨rfl, by simp [End.put]⟩
  | @successor x a b m e p es he ha hbt hp =>
    obtain ⟨g, rfl, hx, haf, hbf⟩ := Context.levelled_pair_iff.1 hn
    rw [Association.find?_pair hasc he, Association.erase_pair hasc he, Context.toList_pair,
      hp.toList_eq hbf.levelled]
    exact ⟨rfl, by simp [End.put]⟩
  | @merge x a b m e o es he ha hbt hr ih =>
    obtain ⟨g, rfl, hx, haf, hbf⟩ := Context.levelled_pair_iff.1 hn
    obtain ⟨habf, -⟩ := Node.stands_append e haf hbf ha hbt
    have hb : Brackets x.before x.after k := by
      refine (Context.brackets_pair hasc he).mono ?_ ?_
      · exact List.subset_append_left _ _
      · exact List.subset_append_right _ _
    rw [← Node.toList_plug_append x e haf.levelled hbf.levelled] at hasc ⊢
    obtain ⟨ho, hm⟩ := ih habf.levelled (Context.ascending_child hasc)
    rw [Association.find?_plug hb]
    exact ⟨ho, Association.erase_plug hb hm⟩
  | @descend x y c d m o es fs hb hf hr ih =>
    obtain ⟨g, rfl, hx, hc⟩ := Context.levelled_plug_iff.1 hn
    obtain ⟨hy, hd, -⟩ := hf.stands hx hc
    obtain ⟨l, r, hl, hr, hdl⟩ := hf.exists_taken hx hc.levelled
    -- filling only moves entries into the child, so the key stays bracketed by those left outside
    have hb' : Brackets y.before y.after k := by
      refine (Context.brackets hasc hb).mono ?_ ?_
      · rw [hl]
        exact List.subset_append_left _ _
      · rw [hr]
        exact List.subset_append_right _ _
    rw [hf.toList_eq hx hc.levelled] at hasc ⊢
    obtain ⟨ho, hm⟩ := ih hd.levelled (Context.ascending_child hasc)
    rw [Association.find?_plug hb']
    exact ⟨ho, Association.erase_plug hb' hm⟩

end Removes

end BTree
