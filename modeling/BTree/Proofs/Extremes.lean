import BTree.Proofs.History
import Mathlib

/-!
# The entries at the ends

The entry at an end of a tree can be looked up, taken out, or removed by its key.  A lookup and a pop
follow the outermost children; a removal by key searches every node it comes to, but each time it
ends up in the outermost gap, also when a rotation or a merge has just changed the child there.  So
both ways to take the entry out make the same changes, in the same order:

    s.peek? n.toList = some e, compare k e.key = .eq  →  n.remove t k = n.pop s t       (remove_eq_pop)
    t.end? s = s.peek? t.toList                                                         (Sound.end?_eq)
    t.end? s = some e, compare k e.key = .eq  →  t.removeEntry k = t.pop s   (Sound.removeEntry_eq_pop)
-/

namespace BTree

variable {κ ν : Type}

namespace End

/-- A bracketed key can be that of the entry at an end only if nothing stands beyond the brackets. -/
theorem outer_eq_nil_of_peek? [Ord κ] [Std.TransOrd κ] {s : End} {l m r : List (Entry κ ν)} {k : κ}
    {e : Entry κ ν} (hb : Brackets l r k) (he : s.peek? (l ++ (m ++ r)) = some e)
    (hk : compare k e.key = .eq) : s.outer l r = [] := by
  cases s with
  | front =>
    cases l with
    | nil => rfl
    | cons a l =>
      obtain rfl : a = e := Option.some.inj he
      have hlt := hb.below a List.mem_cons_self
      rw [Std.OrientedCmp.eq_symm hk] at hlt
      cases hlt
  | back =>
    by_cases hr : r = []
    · exact hr
    · have hlast : r.getLast? = some e := by
        rw [← List.append_assoc] at he
        rwa [← List.getLast?_append_of_ne_nil (l ++ m) hr]
      have hlt := hb.above e (List.mem_of_getLast? hlast)
      rw [hk] at hlt
      cases hlt

end End

/-! ## Lookups -/

namespace Node

/-- The entry at an end. -/
def end? (s : End) (n : Node κ ν) : Option (Entry κ ν) :=
  match s with
  | .front => n.first?
  | .back => n.last?

theorem end?_childless (s : End) (es : List (Entry κ ν)) :
    (⟨es, []⟩ : Node κ ν).end? s = s.peek? es := by
  cases s with
  | front => rfl
  | back =>
    show last? _ = _
    rw [last?]
    rfl

theorem last?_concat (es : List (Entry κ ν)) (cs : List (Node κ ν)) (c : Node κ ν) :
    (⟨es, cs ++ [c]⟩ : Node κ ν).last? = c.last? := by
  rw [last?]
  split
  · next hnone => simp at hnone
  · next d hd =>
    rw [List.getLast?_concat] at hd
    rw [Option.some.inj hd]

theorem end?_plug {s : End} {x : Context κ ν} (c : Node κ ν) (hx : x.beyond s = []) :
    (x.plug c).end? s = c.end? s := by
  obtain ⟨les, lcs, res, rcs, hl, hr⟩ := x
  cases s with
  | front =>
    obtain rfl : les = [] := hx
    obtain rfl : lcs = [] := List.eq_nil_of_length_eq_zero hl
    rfl
  | back =>
    obtain rfl : res = [] := hx
    obtain rfl : rcs = [] := List.eq_nil_of_length_eq_zero hr
    exact last?_concat _ lcs c

variable {t h : Nat} {n : Node κ ν}

theorem toList_ne_nil (hne : 0 < n.entries.length) : n.toList ≠ [] := by
  have hle := n.entries_sublist.length_le
  exact List.ne_nil_of_length_pos (by omega)

theorem end?_eq (ht : 2 ≤ t) (s : End) (hn : n.Levelled (Occupied t) h) :
    n.end? s = s.peek? n.toList := by
  induction h generalizing n with
  | zero => cases hn
  | succ h ih =>
    rcases hn.end_cases s with ⟨-, es, rfl⟩ | ⟨g, x, c, hg, rfl, hx, -, hc⟩
    · rw [end?_childless, toList_childless]
    · obtain rfl : h = g + 1 := by omega
      have hmin : t - 1 ≤ c.entries.length := hc.size.1
      have houter := Context.outer_eq_nil_iff.2 hx
      rw [end?_plug c hx, ih hc.levelled, Context.toList_plug,
        End.peek?_append houter (toList_ne_nil (by omega))]

/-! ## Removals -/

variable [Ord κ] [Std.TransOrd κ] {s : End} {e : Entry κ ν} {k : κ}

/-- An entry between two children is not at an end. -/
theorem ne_peek?_pair (ht : 2 ≤ t) {x : Context κ ν} {a b : Node κ ν} {p : Entry κ ν}
    (hn : (x.pair a p b).Levelled (Occupied t) h) (hasc : Ascending (x.pair a p b).toList)
    (hp : compare k p.key = .eq) (hk : compare k e.key = .eq) :
    s.peek? (x.pair a p b).toList ≠ some e := by
  intro he
  obtain ⟨g, -, -, ⟨⟨hamin, -⟩, -⟩, ⟨⟨hbmin, -⟩, -⟩⟩ := Context.levelled_pair_iff.1 hn
  have hb := Context.brackets_pair hasc hp
  have hsplit : (x.pair a p b).toList =
      (x.before ++ a.toList) ++ ([p] ++ (b.toList ++ x.after)) := by
    rw [Context.toList_pair, List.append_assoc]
    rfl
  rw [hsplit] at he
  have houter := End.outer_eq_nil_of_peek? hb he hk
  cases s with
  | front =>
    obtain ⟨-, ha⟩ := List.append_eq_nil_iff.1 houter
    exact toList_ne_nil (by omega) ha
  | back =>
    obtain ⟨hb, -⟩ := List.append_eq_nil_iff.1 houter
    exact toList_ne_nil (by omega) hb

/-- Below a sound node, to remove the key of the entry at an end is to take the entry out there: the
answer, the node left and the events are the same. -/
theorem remove_eq_pop (ht : 2 ≤ t) (hn : n.Levelled (Occupied t) h) (hasc : Ascending n.toList)
    (hne : 0 < n.entries.length) (he : s.peek? n.toList = some e) (hk : compare k e.key = .eq) :
    n.remove t k = n.pop s t := by
  induction h generalizing n with
  | zero => cases hn
  | succ h ih =>
    have hreach := search_reached hn hasc k
    rw [remove_eq]
    generalize search Entry.key n.entries k = pos at hreach
    cases hreach with
    | @hit _ _ l r p i hes hi hp =>
      rcases hn.entry_cases hes with ⟨-, rfl⟩ | ⟨-, x, a, b, -, rfl, -, -, -, ha, hb⟩
      · rw [toList_childless] at hasc he
        have houter : s.outer l r = [] :=
          End.outer_eq_nil_of_peek? (m := [p]) (brackets_of_eq hasc hp) he hk
        have hput : l ++ p :: r = s.put p (l ++ r) := by
          have := End.append_put houter p []
          rwa [End.put_nil] at this
        have hpop : (⟨l ++ p :: r, []⟩ : Node κ ν).pop s t = .done (some p, ⟨l ++ r, []⟩) [] := by
          rw [hput]
          exact pop_leaf s t p (l ++ r)
        rw [hpop]
        simp [isLeaf, hi, List.eraseIdx_append_of_length_le]
      · exact absurd he (ne_peek?_pair ht hn hasc hp hk)
    | @miss l r i hi hb =>
      rw [toList_childless] at hasc he
      have hnone := Association.find?_eq_none_of_brackets hb
      rw [(Association.find?_eq_some_iff hasc).2 ⟨End.mem_of_peek? he, hk⟩] at hnone
      cases hnone
    | @child g x c i hi hb hx hc =>
      have hb := Context.brackets hasc hb
      rw [Context.toList_plug] at he
      have hbeyond : x.beyond s = [] :=
        Context.outer_eq_nil_iff.1 (End.outer_eq_nil_of_peek? hb he hk)
      obtain ⟨y, d, es, hf, hfill, hd, hspare⟩ := fillChild_eq_done (by omega) hx hc hne
      -- the child is still the outermost, so that the end is now read below what it has become
      have hy : s.outer y.before y.after = [] := hf.outer_eq_nil hx hc.levelled hbeyond
      rw [← Context.toList_plug, hf.toList_eq hx hc.levelled, Context.toList_plug,
        End.peek?_append hy (toList_ne_nil (by omega))] at he
      rw [hf.toList_eq hx hc.levelled] at hasc
      obtain ⟨p, m, fs, -, hpop⟩ := pop_eq_done ht s hd.levelled (show 0 < d.entries.length by omega)
      have hremove : d.remove t k = .done (some p, m) fs :=
        (ih hd.levelled (Context.ascending_child hasc) (by omega) he).trans hpop
      rw [pop_plug t c hbeyond]
      simp only [Context.isLeaf_plug, Bool.false_eq_true, if_false, hi, hfill, Edit.done_bind,
        Context.atChild_plug hremove, Context.atChild_plug hpop]

end Node

/-! ## Trees -/

namespace Tree

/-- The entry at an end. -/
def end? (s : End) (t : Tree κ ν) : Option (Entry κ ν) := t.root.bind (Node.end? s)

variable [Ord κ] {s : End} {t : Tree κ ν} {e : Entry κ ν} {k : κ}

/-- A lookup at an end finds the entry that is read there. -/
theorem Sound.end?_eq (h : t.Sound) (s : End) : t.end? s = s.peek? t.toList := by
  unfold end? toList
  cases hroot : t.root with
  | none => cases s <;> rfl
  | some root => exact Node.end?_eq t.degree.two_le s (h.levelled root hroot)

variable [Std.TransOrd κ]

/-- To remove a key equal to that of the entry at an end is to take that entry out. -/
theorem Sound.removeEntry_eq_pop (h : t.Sound) (he : t.end? s = some e)
    (hk : compare k e.key = .eq) : t.removeEntry k = t.pop s := by
  have hpeek := h.end?_eq s
  have hasc := h.ascending
  rw [he] at hpeek
  rw [pop_eq_removing]
  unfold removeEntry removing
  cases hroot : t.root with
  | none => rfl
  | some root =>
    rw [toList, hroot] at hpeek hasc
    have hne := (h.root_size root hroot).1
    have hremove : root.remove t.degree.least k = root.pop s t.degree.least :=
      Node.remove_eq_pop t.degree.two_le (h.levelled root hroot) hasc hne hpeek.symm hk
    simp only [hremove]

/-- At either end of a sound tree that has entries one can be looked up, and to take it out there or
to remove it by its key gives the same answer, the same tree and the same events. -/
theorem Sound.pop_is_removal (h : t.Sound) (hne : t.isEmpty = false) (s : End) :
    ∃ e r es, t.end? s = some e ∧ t.pop s = .done (some e, r) es ∧
      t.removeEntry e.key = .done (some e, r) es := by
  have hlist : t.toList ≠ [] := h.isEmpty_eq_false_iff.1 hne
  obtain ⟨e, es, hput⟩ := s.exists_put hlist
  have he : t.end? s = some e := by rw [h.end?_eq, hput, End.peek?_put]
  obtain ⟨r, es, -, hpop, -⟩ := pop_spec h s
  rw [← h.end?_eq, he] at hpop
  refine ⟨e, r, es, he, hpop, ?_⟩
  exact (h.removeEntry_eq_pop he Std.ReflCmp.compare_self).trans hpop

/-- In a reachable tree with entries, taking the first entry out is the removal of the first key, and
taking the last one out that of the last: the answers are the same, the trees left have the same
nodes, and the same events are emitted. -/
theorem Reachable.pop_eq_removal (h : t.Reachable) (hne : t.isEmpty = false) :
    (∃ e r es, t.first? = some e ∧ t.popFirst = .done (some e, r) es ∧
      t.removeEntry e.key = .done (some e, r) es) ∧
    ∃ e r es, t.last? = some e ∧ t.popLast = .done (some e, r) es ∧
      t.removeEntry e.key = .done (some e, r) es :=
  ⟨h.sound.pop_is_removal hne .front, h.sound.pop_is_removal hne .back⟩

/-- Ten pairs, put in in ascending order, stand on three levels; only the last nodes have entries to
spare. -/
def ladder : Tree Nat Nat where
  root := some (.binary (.binary (.leaf ⟨1, 10⟩) ⟨2, 20⟩ (.leaf ⟨3, 30⟩)) ⟨4, 40⟩
    ⟨[⟨6, 60⟩, ⟨8, 80⟩],
      [.leaf ⟨5, 50⟩, .leaf ⟨7, 70⟩, ⟨[⟨9, 90⟩, ⟨10, 100⟩], []⟩]⟩)
  degree := ⟨2, by decide⟩
  size := 10

theorem ladder_reachable : ladder.Reachable := by
  refine .update (u := .extend ((List.range' 1 10).map fun k => (k, 10 * k))) (a := .nothing)
    (.empty ⟨2, by decide⟩) ⟨[.splitRoot 3, .splitChild 1 1 1, .splitChild 2 1 1, .splitRoot 8,
      .splitChild 1 1 1], ?_⟩
  cbv

/-- On the way to the first entry one child borrows and the next is joined; either way does both. -/
theorem pop_eq_removal_of_ladder :
    ladder.Reachable ∧ ladder.isEmpty = false ∧
      (∃ r, ladder.popFirst = .done (some ⟨1, 10⟩, r) [.rotateLeft 0, .mergeChildren 0 1 1] ∧
        ladder.removeEntry 1 = .done (some ⟨1, 10⟩, r) [.rotateLeft 0, .mergeChildren 0 1 1]) ∧
      ∃ r es, ladder.popLast = .done (some ⟨10, 100⟩, r) es ∧
        ladder.removeEntry 10 = .done (some ⟨10, 100⟩, r) es := by
  obtain ⟨⟨d, r, es, hd, hpop, hremove⟩, e, q, fs, he, hpop', hremove'⟩ :=
    Reachable.pop_eq_removal ladder_reachable rfl
  obtain rfl : ⟨1, 10⟩ = d := Option.some.inj ((show some _ = ladder.first? by cbv).trans hd)
  obtain rfl : ⟨10, 100⟩ = e := Option.some.inj ((show some _ = ladder.last? by cbv).trans he)
  have htrail : ladder.popFirst.trail = [.rotateLeft 0, .mergeChildren 0 1 1] := by cbv
  rw [hpop] at htrail
  obtain rfl : es = [.rotateLeft 0, .mergeChildren 0 1 1] := htrail
  exact ⟨ladder_reachable, rfl, ⟨r, hpop, hremove⟩, q, fs, hpop', hremove'⟩

end Tree

end BTree
