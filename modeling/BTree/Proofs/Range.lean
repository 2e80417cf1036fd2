import BTree.Proofs.History
import BTree.Tree.Window

/-!
# Ranges

A range hands out, from either end, the entries whose keys are within its bounds.  Each cursor seeks
its bound by itself; `Spans w es` says that the window `w` still has to hand out `es`, and every step
takes one entry from an end of `es`:

    Ascent.pending (Ascent.seek b n fs) = the entries of n within b, then those of fs     (pending_seek)
    Spans w es  →  w.step s = (s.peek? es, w'), Spans w' (s.rest es)                      (Spans.step)
    (t.range lower upper).run ss = End.takeAll (t.within lower upper) ss                  (run_range)
-/

namespace BTree

variable {κ ν : Type}

/-! ## Bounds -/

namespace Bound

variable [Ord κ]

/-- The key is within the lower bound. -/
def admitsAbove (b : Bound κ) (k : κ) : Bool :=
  match b with
  | unbounded => true
  | included a => (compare a k).isLE
  | excluded a => (compare a k).isLT

/-- The key is within the upper bound. -/
def admitsBelow (b : Bound κ) (k : κ) : Bool :=
  match b with
  | unbounded => true
  | included a => (compare k a).isLE
  | excluded a => (compare k a).isLT

variable [Std.TransOrd κ] {b : Bound κ} {j k : κ}

/-- A key no less than one within a lower bound is within it too. -/
theorem admitsAbove_of_isLE (hjk : (compare j k).isLE) (hj : b.admitsAbove j) :
    b.admitsAbove k := by
  cases b with
  | unbounded => rfl
  | included a => exact Std.TransCmp.isLE_trans hj hjk
  | excluded a =>
    have hj : compare a j = .lt := Ordering.isLT_iff_eq_lt.1 hj
    exact Ordering.isLT_iff_eq_lt.2 (Std.TransCmp.lt_of_lt_of_isLE hj hjk)

/-- A key no greater than one within an upper bound is within it too. -/
theorem admitsBelow_of_isLE (hjk : (compare j k).isLE) (hk : b.admitsBelow k) :
    b.admitsBelow j := by
  cases b with
  | unbounded => rfl
  | included a => exact Std.TransCmp.isLE_trans hjk hk
  | excluded a =>
    have hk : compare k a = .lt := Ordering.isLT_iff_eq_lt.1 hk
    exact Ordering.isLT_iff_eq_lt.2 (Std.TransCmp.lt_of_isLE_of_lt hjk hk)

theorem not_admitsAbove_of_lt (hjk : compare j k = .lt) (hk : b.admitsAbove k = false) :
    b.admitsAbove j = false := by
  rw [Bool.eq_false_iff]
  intro hj
  rw [admitsAbove_of_isLE (Ordering.isLE_of_eq_lt hjk) hj] at hk
  cases hk

theorem not_admitsBelow_of_lt (hjk : compare j k = .lt) (hj : b.admitsBelow j = false) :
    b.admitsBelow k = false := by
  rw [Bool.eq_false_iff]
  intro hk
  rw [admitsBelow_of_isLE (Ordering.isLE_of_eq_lt hjk) hk] at hj
  cases hj

/-- Before and after a key lie the two gaps at which a bound of that key can stand. -/
theorem gaps_spec {n : Node κ ν} (hasc : Ascending n.entries) (k : κ) :
    ∃ l m r, n.entries = l ++ (m ++ r) ∧ ((included k).lowerGap n).val = l.length ∧
      ((included k).upperGap n).val = (l ++ m).length ∧ Brackets l r k ∧
      ∀ e ∈ m, compare k e.key = .eq := by
  have hloc := search_located hasc k
  simp only [lowerGap, upperGap]
  generalize search Entry.key n.entries k = pos at hloc
  cases hloc with
  | @found l r e i hes hi he =>
    have hb : Brackets l r k := brackets_of_eq (hes ▸ hasc) he
    exact ⟨l, [e], r, hes, hi, by simp [hi], hb, by simpa using he⟩
  | @gap l r i hes hi hb => exact ⟨l, [], r, hes, hi, by simp [hi], hb, by simp⟩

/-- The gap for a lower bound cuts off the entries that are not within it. -/
theorem lowerGap_spec {n : Node κ ν} (hasc : Ascending n.entries) (b : Bound κ) :
    ∃ l r, n.entries = l ++ r ∧ (b.lowerGap n).val = l.length ∧
      (∀ a ∈ l, b.admitsAbove a.key = false) ∧ ∀ e ∈ r, b.admitsAbove e.key = true := by
  cases b with
  | unbounded => exact ⟨[], n.entries, rfl, rfl, by simp, fun _ _ => rfl⟩
  | included k =>
    obtain ⟨l, m, r, hes, hgap, -, hb, hm⟩ := gaps_spec hasc k
    refine ⟨l, m ++ r, hes, hgap, fun a ha => ?_, fun e he => ?_⟩
    · simp [admitsAbove, Std.OrientedCmp.gt_of_lt (hb.below a ha)]
    · rcases List.mem_append.1 he with he | he
      · simp [admitsAbove, hm e he]
      · simp [admitsAbove, hb.above e he]
  | excluded k =>
    obtain ⟨l, m, r, hes, -, hgap, hb, hm⟩ := gaps_spec hasc k
    refine ⟨l ++ m, r, by rw [hes, List.append_assoc], hgap, fun a ha => ?_, fun e he => ?_⟩
    · rcases List.mem_append.1 ha with ha | ha
      · simp [admitsAbove, Std.OrientedCmp.gt_of_lt (hb.below a ha)]
      · simp [admitsAbove, hm a ha]
    · simp [admitsAbove, hb.above e he]

/-- The gap for an upper bound cuts off the entries that are not within it. -/
theorem upperGap_spec {n : Node κ ν} (hasc : Ascending n.entries) (b : Bound κ) :
    ∃ l r, n.entries = l ++ r ∧ (b.upperGap n).val = l.length ∧
      (∀ a ∈ l, b.admitsBelow a.key = true) ∧ ∀ e ∈ r, b.admitsBelow e.key = false := by
  cases b with
  | unbounded => exact ⟨n.entries, [], by simp, rfl, fun _ _ => rfl, by simp⟩
  | included k =>
    obtain ⟨l, m, r, hes, -, hgap, hb, hm⟩ := gaps_spec hasc k
    refine ⟨l ++ m, r, by rw [hes, List.append_assoc], hgap, fun a ha => ?_, fun e he => ?_⟩
    · rcases List.mem_append.1 ha with ha | ha
      · simp [admitsBelow, hb.below a ha]
      · simp [admitsBelow, Std.OrientedCmp.eq_symm (hm a ha)]
    · simp [admitsBelow, Std.OrientedCmp.gt_of_lt (hb.above e he)]
  | excluded k =>
    obtain ⟨l, m, r, hes, hgap, -, hb, hm⟩ := gaps_spec hasc k
    refine ⟨l, m ++ r, hes, hgap, fun a ha => ?_, fun e he => ?_⟩
    · simp [admitsBelow, hb.below a ha]
    · rcases List.mem_append.1 he with he | he
      · simp [admitsBelow, Std.OrientedCmp.eq_symm (hm e he)]
      · simp [admitsBelow, Std.OrientedCmp.gt_of_lt (hb.above e he)]

end Bound

/-! ## Seeking a bound -/

namespace Frame

theorem after_plug {x : Context κ ν} {c : Node κ ν} {i : Fin ((x.plug c).entries.length + 1)}
    (hi : i.val = x.index) : (⟨x.plug c, i⟩ : Frame κ ν).after = x.after := by
  have hentries : (x.plug c).entries.drop x.index = x.rightEntries := by
    simp [Context.plug, Context.index]
  have hchildren : (x.plug c).children.drop (x.index + 1) = x.rightChildren := by
    simp [Context.plug, Context.index, ← x.left_length]
  simp only [after, hi, hentries, hchildren, Context.after]

theorem before_plug {x : Context κ ν} {c : Node κ ν} {i : Fin ((x.plug c).entries.length + 1)}
    (hi : i.val = x.index) : (⟨x.plug c, i⟩ : Frame κ ν).before = x.before := by
  have hentries : (x.plug c).entries.take x.index = x.leftEntries := by
    simp [Context.plug, Context.index]
  have hchildren : (x.plug c).children.take x.index = x.leftChildren := by
    simp [Context.plug, Context.index, ← x.left_length]
  simp only [before, hi, hentries, hchildren, Context.before]

end Frame

/-- A stretch in the middle decides what passes, if all before it fails and all after it passes. -/
theorem filter_append_of_fail_of_pass {α : Type} {p : α → Bool} {l m r : List α}
    (hl : ∀ a ∈ l, p a = false) (hr : ∀ a ∈ r, p a = true) :
    (l ++ (m ++ r)).filter p = m.filter p ++ r := by
  have hl' : l.filter p = [] := List.filter_eq_nil_iff.2 fun a ha => by simp [hl a ha]
  have hr' : r.filter p = r := List.filter_eq_self.2 hr
  rw [List.filter_append, List.filter_append, hl', hr', List.nil_append]

theorem filter_append_of_pass_of_fail {α : Type} {p : α → Bool} {l m r : List α}
    (hl : ∀ a ∈ l, p a = true) (hr : ∀ a ∈ r, p a = false) :
    (l ++ (m ++ r)).filter p = l ++ m.filter p := by
  have hl' : l.filter p = l := List.filter_eq_self.2 hl
  have hr' : r.filter p = [] := List.filter_eq_nil_iff.2 fun a ha => by simp [hr a ha]
  rw [List.filter_append, List.filter_append, hl', hr', List.append_nil]

variable [Ord κ] [Std.TransOrd κ] {ok : Nat → Prop}

namespace Ascent

/-- Seeking a lower bound leaves the entries within it to come. -/
theorem pending_seek (b : Bound κ) {h : Nat} {n : Node κ ν} (hn : n.Levelled ok h)
    (hasc : Ascending n.toList) (fs : List (Frame κ ν)) :
    pending (seek b n fs) = n.toList.filter (fun e => b.admitsAbove e.key) ++ pending fs := by
  induction h generalizing n fs with
  | zero => cases hn
  | succ h ih =>
    obtain ⟨l, r, hes, hgap, hl, hr⟩ := Bound.lowerGap_spec (Node.ascending_entries hasc) b
    rw [seek]
    rcases hn.gap_cases hes with ⟨-, rfl⟩ | ⟨g, x, c, hg, rfl, rfl, rfl, -, hc⟩
    · have hlist : Node.toList ⟨l ++ r, []⟩ = l ++ ([] ++ r) := Node.toList_childless _
      have hafter : (⟨⟨l ++ r, []⟩, b.lowerGap ⟨l ++ r, []⟩⟩ : Frame κ ν).after = r := by
        simp [Frame.after, hgap]
      rw [hlist, filter_append_of_fail_of_pass hl hr, dif_neg (by simp), pending_cons,
        hafter]
      rfl
    · obtain rfl : h = g + 1 := by omega
      -- what is read before the gap fails the bound, what is read after it passes
      have hbefore := Context.forall_before (p := fun k => b.admitsAbove k = false)
        (fun j k hjk hk => Bound.not_admitsAbove_of_lt hjk hk) hasc hl
      have hafter := Context.forall_after (p := fun k => b.admitsAbove k = true)
        (fun j k hjk hj => Bound.admitsAbove_of_isLE (Ordering.isLE_of_eq_lt hjk) hj) hasc hr
      rw [dif_pos (x.lt_length_children_plug c hgap), Context.get_children_plug hgap,
        ih hc.levelled (Context.ascending_child hasc), pending_cons, Frame.after_plug hgap,
        Context.toList_plug, filter_append_of_fail_of_pass hbefore hafter, List.append_assoc]

end Ascent

namespace Descent

/-- Seeking an upper bound leaves the entries within it to come, the greatest first. -/
theorem pending_seek (b : Bound κ) {h : Nat} {n : Node κ ν} (hn : n.Levelled ok h)
    (hasc : Ascending n.toList) (fs : List (Frame κ ν)) :
    pending (seek b n fs) =
      (n.toList.filter fun e => b.admitsBelow e.key).reverse ++ pending fs := by
  induction h generalizing n fs with
  | zero => cases hn
  | succ h ih =>
    obtain ⟨l, r, hes, hgap, hl, hr⟩ := Bound.upperGap_spec (Node.ascending_entries hasc) b
    rw [seek]
    rcases hn.gap_cases hes with ⟨-, rfl⟩ | ⟨g, x, c, hg, rfl, rfl, rfl, -, hc⟩
    · have hlist : Node.toList ⟨l ++ r, []⟩ = l ++ ([] ++ r) := Node.toList_childless _
      have hbefore : (⟨⟨l ++ r, []⟩, b.upperGap ⟨l ++ r, []⟩⟩ : Frame κ ν).before = l := by
        simp [Frame.before, hgap]
      rw [hlist, filter_append_of_pass_of_fail hl hr, dif_neg (by simp), pending_cons,
        hbefore, List.filter_nil, List.append_nil]
    · obtain rfl : h = g + 1 := by omega
      -- what is read before the gap passes the bound, what is read after it fails
      have hbefore := Context.forall_before (p := fun k => b.admitsBelow k = true)
        (fun j k hjk hk => Bound.admitsBelow_of_isLE (Ordering.isLE_of_eq_lt hjk) hk) hasc hl
      have hafter := Context.forall_after (p := fun k => b.admitsBelow k = false)
        (fun j k hjk hj => Bound.not_admitsBelow_of_lt hjk hj) hasc hr
      rw [dif_pos (x.lt_length_children_plug c hgap), Context.get_children_plug hgap,
        ih hc.levelled (Context.ascending_child hasc), pending_cons, Frame.before_plug hgap,
        Context.toList_plug, filter_append_of_pass_of_fail hbefore hafter, List.reverse_append,
        List.append_assoc]

end Descent

/-! ## Windows -/

/-- On ascending entries an upper bound admits a stretch at the front. -/
theorem exists_admitsBelow_append {es : List (Entry κ ν)} (hasc : Ascending es) (b : Bound κ) :
    ∃ r, es = es.filter (fun e => b.admitsBelow e.key) ++ r := by
  induction es with
  | nil => exact ⟨[], rfl⟩
  | cons e es ih =>
    obtain ⟨he, hes⟩ := ascending_cons.1 hasc
    cases hb : b.admitsBelow e.key with
    | true =>
      obtain ⟨r, hr⟩ := ih hes
      refine ⟨r, ?_⟩
      simp only [List.filter_cons, hb, if_true, List.cons_append]
      rw [← hr]
    | false =>
      have hnil : (e :: es).filter (fun e => b.admitsBelow e.key) = [] := by
        refine List.filter_eq_nil_iff.2 fun a ha => ?_
        rcases List.mem_cons.1 ha with rfl | ha
        · simp [hb]
        · simp [Bound.not_admitsBelow_of_lt (he a ha) hb]
      exact ⟨e :: es, by rw [hnil, List.nil_append]⟩

/-- On ascending entries a lower bound admits a stretch at the back. -/
theorem exists_append_admitsAbove {es : List (Entry κ ν)} (hasc : Ascending es) (b : Bound κ) :
    ∃ q, es = q ++ es.filter (fun e => b.admitsAbove e.key) := by
  induction es with
  | nil => exact ⟨[], rfl⟩
  | cons e es ih =>
    obtain ⟨he, hes⟩ := ascending_cons.1 hasc
    cases hb : b.admitsAbove e.key with
    | true =>
      have hself : (e :: es).filter (fun e => b.admitsAbove e.key) = e :: es := by
        refine List.filter_eq_self.2 fun a ha => ?_
        rcases List.mem_cons.1 ha with rfl | ha
        · exact hb
        · exact Bound.admitsAbove_of_isLE (Ordering.isLE_of_eq_lt (he a ha)) hb
      exact ⟨[], by rw [hself, List.nil_append]⟩
    | false =>
      obtain ⟨q, hq⟩ := ih hes
      refine ⟨e :: q, ?_⟩
      simp only [List.filter_cons, hb, Bool.false_eq_true, if_false, List.cons_append]
      rw [← hq]

namespace Window

/-- Takes the entry at an end. -/
def step (w : Window κ ν) (s : End) : Option (Entry κ ν) × Window κ ν :=
  match s with
  | .front => w.next?
  | .back => w.nextBack?

/-- Takes entries at the ends given, one after another. -/
def run (w : Window κ ν) : List End → List (Option (Entry κ ν))
  | [] => []
  | s :: ss => (w.step s).1 :: (w.step s).2.run ss

/-- The window still has to hand out `es`.  Unless it is done, each cursor has `es` before it, maybe
with more beyond, and the keys kept are those of the outermost entries. -/
inductive Spans : Window κ ν → List (Entry κ ν) → Prop
  | exhausted {w : Window κ ν} (hw : w.done = true) : Spans w []
  | more {w : Window κ ν} {es q r : List (Entry κ ν)} (hw : w.done = false) (hne : es ≠ [])
      (hfront : Ascent.pending w.front = es ++ r)
      (hback : Descent.pending w.back = es.reverse ++ q)
      (hhead : w.head = es.head?.map Entry.key) (htail : w.tail = es.getLast?.map Entry.key) :
      Spans w es

theorem meets_last {e : Entry κ ν} {es : List (Entry κ ν)} (hasc : Ascending (e :: es)) :
    meets e ((e :: es).getLast?.map Entry.key) = es.isEmpty := by
  rcases List.eq_nil_or_concat es with rfl | ⟨l, g, rfl⟩
  · simp [meets, Std.ReflCmp.compare_self]
  · have hlt : compare e.key g.key = .lt := (ascending_cons.1 hasc).1 g (by simp)
    rw [List.concat_eq_append, ← List.cons_append, List.getLast?_concat]
    simp [meets, hlt]

theorem meets_head {e : Entry κ ν} {es : List (Entry κ ν)} (hasc : Ascending (es ++ [e])) :
    meets e ((es ++ [e]).head?.map Entry.key) = es.isEmpty := by
  cases es with
  | nil => simp [meets, Std.ReflCmp.compare_self]
  | cons f es =>
    have hlt : compare f.key e.key = .lt := (ascending_cons.1 hasc).1 e (by simp)
    simp [meets, Std.OrientedCmp.gt_of_lt hlt]

namespace Spans

variable {w : Window κ ν} {es : List (Entry κ ν)}

theorem next? (hs : Spans w es) (hasc : Ascending es) :
    w.next?.1 = es.head? ∧ Spans w.next?.2 es.tail := by
  cases hs with
  | exhausted hw => simpa [Window.next?, hw] using Spans.exhausted hw
  | @more _ q r hw hne hfront hback hhead htail =>
    obtain ⟨e, es, rfl⟩ := List.exists_cons_of_ne_nil hne
    cases hn : Ascent.next? w.front with
    | none =>
      rw [Ascent.next?_eq_none_iff.1 hn] at hfront
      cases hfront
    | some p =>
      obtain ⟨a, gs⟩ := p
      rw [Ascent.pending_next? hn, List.cons_append] at hfront
      obtain ⟨rfl, hgs⟩ := List.cons_eq_cons.1 hfront
      simp only [Window.next?, hw, hn, htail, meets_last hasc, Bool.false_eq_true, if_false]
      cases es with
      | nil => exact ⟨rfl, .exhausted rfl⟩
      | cons f es =>
        refine ⟨rfl, .more rfl (List.cons_ne_nil f es) hgs (q := a :: q) ?_ ?_ ?_⟩
        · simpa using hback
        · simp [Ascent.peek?_eq_head?, hgs]
        · rfl

theorem nextBack? (hs : Spans w es) (hasc : Ascending es) :
    w.nextBack?.1 = es.getLast? ∧ Spans w.nextBack?.2 es.dropLast := by
  cases hs with
  | exhausted hw => simpa [Window.nextBack?, hw] using Spans.exhausted hw
  | @more _ q r hw hne hfront hback hhead htail =>
    rcases List.eq_nil_or_concat es with rfl | ⟨es, e, rfl⟩
    · exact absurd rfl hne
    rw [List.concat_eq_append] at hasc hfront hback hhead htail ⊢
    cases hn : Descent.next? w.back with
    | none =>
      rw [Descent.next?_eq_none_iff.1 hn, List.reverse_concat] at hback
      cases hback
    | some p =>
      obtain ⟨a, gs⟩ := p
      rw [Descent.pending_next? hn, List.reverse_concat, List.cons_append] at hback
      obtain ⟨rfl, hgs⟩ := List.cons_eq_cons.1 hback
      simp only [Window.nextBack?, hw, hn, hhead, meets_head hasc, Bool.false_eq_true, if_false]
      rw [List.dropLast_concat, List.getLast?_concat]
      cases es with
      | nil => exact ⟨rfl, .exhausted rfl⟩
      | cons f es =>
        refine ⟨rfl, .more rfl (List.cons_ne_nil f es) (r := a :: r) ?_ hgs ?_ ?_⟩
        · simpa using hfront
        · rfl
        · simp [Descent.peek?_eq_head?, hgs, List.getLast?_cons]

theorem step (hs : Spans w es) (hasc : Ascending es) (s : End) :
    (w.step s).1 = s.peek? es ∧ Spans (w.step s).2 (s.rest es) := by
  cases s with
  | front => exact hs.next? hasc
  | back => exact hs.nextBack? hasc

theorem run (hs : Spans w es) (hasc : Ascending es) (ss : List End) :
    w.run ss = End.takeAll es ss := by
  induction ss generalizing w es with
  | nil => rfl
  | cons s ss ih =>
    obtain ⟨hanswer, hrest⟩ := hs.step hasc s
    rw [Window.run, End.takeAll, hanswer, ih hrest (hasc.sublist (s.rest_sublist es))]

end Spans

theorem isLE_of_head_of_getLast {es : List (Entry κ ν)} (hasc : Ascending es) {e g : Entry κ ν}
    (he : es.head? = some e) (hg : es.getLast? = some g) : (compare e.key g.key).isLE := by
  cases es with
  | nil => cases he
  | cons a es =>
    obtain rfl : a = e := Option.some.inj he
    rcases List.mem_cons.1 (List.mem_of_getLast? hg) with rfl | hmem
    · simp [Std.ReflCmp.compare_self]
    · have hlt : compare a.key g.key = .lt := (ascending_cons.1 hasc).1 g hmem
      simp [hlt]

omit [Std.TransOrd κ] in
/-- A window is open just if the first key that one cursor comes to is at most the first that the
other does. -/
theorem done_between_eq_false_iff {front back : List (Frame κ ν)} :
    (between front back).done = false ↔
      ∃ e g, (Ascent.pending front).head? = some e ∧ (Descent.pending back).head? = some g ∧
        (compare e.key g.key).isLE := by
  simp only [between, Ascent.peek?_eq_head?, Descent.peek?_eq_head?]
  cases (Ascent.pending front).head? with
  | none => simp
  | some e =>
    cases (Descent.pending back).head? with
    | none => simp
    | some g => simp

/-- Two cursors whose stretches share the entries `es` open a window on them; if they share none,
the first key on one side lies above the last on the other, and the window is done at once. -/
theorem spans_between {front back : List (Frame κ ν)} {es f b q r : List (Entry κ ν)}
    (hfront : Ascent.pending front = f) (hback : Descent.pending back = b.reverse)
    (hf : f = es ++ r) (hb : b = q ++ es) (hasc : Ascending es)
    (hshare : ∀ e g, f.head? = some e → b.getLast? = some g → (compare e.key g.key).isLE →
      es ≠ []) :
    Spans (between front back) es := by
  by_cases hes : es = []
  · -- were the window open, the two stretches would share an entry
    subst hes
    refine .exhausted (eq_true_of_ne_false fun hopen => ?_)
    obtain ⟨e, g, he, hg, hle⟩ := done_between_eq_false_iff.1 hopen
    rw [hfront] at he
    rw [hback, List.head?_reverse] at hg
    exact hshare e g he hg hle rfl
  · have hfirst : (Ascent.pending front).head? = some (es.head hes) := by
      rw [hfront, hf, List.head?_append, List.head?_eq_some_head hes, Option.some_or]
    have hlast : (Descent.pending back).head? = some (es.getLast hes) := by
      rw [hback, hb, List.head?_reverse, List.getLast?_append, List.getLast?_eq_some_getLast hes,
        Option.some_or]
    refine .more (q := q.reverse) ?_ hes (hf ▸ hfront) ?_ ?_ ?_
    · refine done_between_eq_false_iff.2 ⟨_, _, hfirst, hlast, ?_⟩
      exact isLE_of_head_of_getLast hasc (List.head?_eq_some_head hes)
        (List.getLast?_eq_some_getLast hes)
    · show Descent.pending back = es.reverse ++ q.reverse
      rw [hback, hb, List.reverse_append]
    · simp only [between, Ascent.peek?_eq_head?, hfirst, List.head?_eq_some_head hes]
    · simp only [between, Descent.peek?_eq_head?, hlast, List.getLast?_eq_some_getLast hes]

end Window

namespace Tree

variable {t : Tree κ ν}

/-- The entries within both bounds. -/
def within (t : Tree κ ν) (lower upper : Bound κ) : List (Entry κ ν) :=
  t.toList.filter fun e => lower.admitsAbove e.key && upper.admitsBelow e.key

theorem spans_range (h : t.Sound) (lower upper : Bound κ) :
    Window.Spans (t.range lower upper) (t.within lower upper) := by
  have hasc := h.ascending
  unfold within range
  rw [toList] at hasc ⊢
  cases hroot : t.root with
  | none => exact .exhausted rfl
  | some root =>
    rw [hroot] at hasc
    have hasc : Ascending root.toList := hasc
    have hlev := h.levelled root hroot
    have hfront := Ascent.pending_seek lower hlev hasc []
    have hback := Descent.pending_seek upper hlev hasc []
    rw [Ascent.pending_nil, List.append_nil] at hfront
    rw [Descent.pending_nil, List.append_nil] at hback
    obtain ⟨r, hr⟩ := exists_admitsBelow_append (hasc.sublist List.filter_sublist) upper
    obtain ⟨q, hq⟩ := exists_append_admitsAbove (hasc.sublist List.filter_sublist) lower
    rw [List.filter_filter] at hr hq
    simp only [Bool.and_comm (upper.admitsBelow _)] at hr
    refine Window.spans_between hfront hback hr hq (hasc.sublist List.filter_sublist) ?_
    intro e g he hg hle hnil
    obtain ⟨hemem, habove⟩ := List.mem_filter.1 (List.mem_of_mem_head? he)
    obtain ⟨-, hbelow⟩ := List.mem_filter.1 (List.mem_of_getLast? hg)
    have hboth : (lower.admitsAbove e.key && upper.admitsBelow e.key) = true := by
      rw [habove, Bound.admitsBelow_of_isLE hle hbelow]
      rfl
    exact List.filter_eq_nil_iff.1 hnil e hemem hboth

/-- A range of a reachable tree hands out, from whichever ends, the entries within both bounds, each
of them once; after that it hands out nothing. -/
theorem Reachable.run_range (h : t.Reachable) (lower upper : Bound κ) (ss : List End) :
    Ascending (t.within lower upper) ∧
    (t.range lower upper).run ss = End.takeAll (t.within lower upper) ss ∧
    ((t.within lower upper).length ≤ ss.length →
      (((t.range lower upper).run ss).filterMap id).Perm (t.within lower upper) ∧
      ∀ ss', (t.range lower upper).run (ss ++ ss') =
        (t.range lower upper).run ss ++ List.replicate ss'.length none) ∧
    ∀ a b, (t.rangeInclusive a b).run ss =
      End.takeAll (t.toList.filter fun e => (compare a e.key).isLE && (compare e.key b).isLE) ss := by
  have hasc (lower upper : Bound κ) : Ascending (t.within lower upper) :=
    h.sound.ascending.sublist List.filter_sublist
  have hrun (lower upper : Bound κ) (ss : List End) :
      (t.range lower upper).run ss = End.takeAll (t.within lower upper) ss :=
    (spans_range h.sound lower upper).run (hasc lower upper) ss
  refine ⟨hasc lower upper, hrun lower upper ss, fun hlen => ⟨?_, fun ss' => ?_⟩, fun a b => ?_⟩
  · rw [hrun]
    exact End.filterMap_takeAll_perm hlen
  · rw [hrun, hrun]
    exact End.takeAll_append hlen ss'
  · exact hrun (.included a) (.included b) ss

/-- In descending order the lower bound is the greater number. -/
theorem run_range_descending :
    ∃ t : Tree (Descending Nat) Nat, t.Reachable ∧
      (t.range (.excluded ⟨9⟩) (.included ⟨4⟩)).run [.front, .back, .back, .front, .front, .back] =
        [some ⟨⟨8⟩, 0⟩, some ⟨⟨4⟩, 6⟩, some ⟨⟨6⟩, 13⟩, some ⟨⟨7⟩, 5⟩, none, none] := by
  obtain ⟨t, es, heq, ht⟩ := ofList_spec (κ := Descending Nat) (ν := Nat)
    [(⟨8⟩, 0), (⟨3⟩, 1), (⟨12⟩, 2), (⟨1⟩, 3), (⟨9⟩, 4), (⟨7⟩, 5), (⟨4⟩, 6), (⟨11⟩, 7), (⟨2⟩, 8),
      (⟨13⟩, 9), (⟨14⟩, 10), (⟨10⟩, 11), (⟨0⟩, 12), (⟨6⟩, 13)]
  have h : t.Reachable := .ofList ⟨es, heq⟩
  refine ⟨t, h, (Reachable.run_range h _ _ _).2.1.trans ?_⟩
  rw [within, ht.toList_eq]
  decide

end Tree

end BTree
