import BTree.Proofs.History
import BTree.Tree.Walk

/-!
# Walks as double-ended queues

A walk is asked, in any order, for the entry at either end, for the number of entries that remain and
for bounds of that number.  It answers as the list of the entries does, when items are taken from its
two ends.  `w.Holds es` says that the walk `w` still has to hand out `es`; every query keeps it:

    w.Holds es  →  w.ask q answers as Deque.ask es q, and holds what that leaves     (Holds.ask)
    answers Walk.ask t.walk qs = answers Deque.ask t.toList qs                       (Reachable.walk_answers)
-/

namespace BTree

variable {α β κ ν σ τ : Type}

/-! ## Queries -/

/-- What is asked of an iterator with two ends. -/
inductive Query where
  | take (s : End)
  | length
  | hint
deriving DecidableEq, Repr

/-- What it answers. -/
inductive Reply (α : Type) where
  | item (a : Option α)
  | length (n : Nat)
  | hint (bounds : Nat × Option Nat)
deriving DecidableEq, Repr

/-- The item that the reply hands out. -/
def Reply.item? : Reply α → Option α
  | item a => a
  | length _ => none
  | hint _ => none

/-- The reply when nothing is left. -/
def Query.spent : Query → Reply α
  | take _ => .item none
  | length => .length 0
  | hint => .hint (0, some 0)

namespace Query

/-- The number of queries that ask for an item. -/
def takes (qs : List Query) : Nat := qs.countP fun q => q matches take _

/-- Puts the queries in turn, each to the state that the one before has left. -/
def answers (ask : σ → Query → Reply α × σ) (s : σ) : List Query → List (Reply α)
  | [] => []
  | q :: qs => (ask s q).1 :: answers ask (ask s q).2 qs

/-- The state that the queries leave. -/
def left (ask : σ → Query → Reply α × σ) (s : σ) (qs : List Query) : σ :=
  qs.foldl (fun s q => (ask s q).2) s

theorem answers_append (ask : σ → Query → Reply α × σ) (s : σ) (qs qs' : List Query) :
    answers ask s (qs ++ qs') = answers ask s qs ++ answers ask (left ask s qs) qs' := by
  induction qs generalizing s with
  | nil => rfl
  | cons q qs ih =>
    rw [List.cons_append, answers, answers, ih, List.cons_append]
    rfl

/-- Two iterators that stay in step answer alike. -/
theorem answers_eq {ask : σ → Query → Reply α × σ} {ask' : τ → Query → Reply α × τ}
    {R : σ → τ → Prop}
    (hstep : ∀ s u q, R s u → (ask s q).1 = (ask' u q).1 ∧ R (ask s q).2 (ask' u q).2) {s : σ}
    {u : τ} (h : R s u) (qs : List Query) : answers ask s qs = answers ask' u qs := by
  induction qs generalizing s u with
  | nil => rfl
  | cons q qs ih =>
    obtain ⟨hreply, hnext⟩ := hstep s u q h
    rw [answers, answers, hreply, ih hnext]

end Query

/-! ## A list as a queue -/

namespace Deque

open Query

/-- The reply of a list, and what is left of it. -/
def ask (as : List α) : Query → Reply α × List α
  | .take s => (.item (s.peek? as), s.rest as)
  | .length => (.length as.length, as)
  | .hint => (.hint (as.length, some as.length), as)

theorem ask_nil (q : Query) : ask ([] : List α) q = (q.spent, []) := by
  cases q with
  | take s => cases s <;> rfl
  | length => rfl
  | hint => rfl

theorem answers_nil (qs : List Query) : answers ask ([] : List α) qs = qs.map Query.spent := by
  induction qs with
  | nil => rfl
  | cons q qs ih => rw [answers, ask_nil, ih, List.map_cons]

/-- A query hands out an item that is then no longer left, or nothing. -/
theorem ask_perm (as : List α) (q : Query) :
    ((ask as q).1.item?.toList ++ (ask as q).2).Perm as := by
  cases q with
  | take s =>
    by_cases hne : as = []
    · rw [hne, ask_nil]
      exact List.Perm.refl []
    · obtain ⟨a, bs, rfl⟩ := s.exists_put hne
      simp only [ask, End.peek?_put, End.rest_put, Reply.item?, Option.toList_some]
      exact s.cons_perm_put a bs
  | length => exact List.Perm.refl as
  | hint => exact List.Perm.refl as

theorem length_ask (as : List α) (q : Query) :
    (ask as q).2.length = as.length - Query.takes [q] := by
  cases q with
  | take s => cases s <;> simp [ask, End.rest, Query.takes]
  | length => rfl
  | hint => rfl

/-- What is handed out and what is left make up the list. -/
theorem answers_perm (as : List α) (qs : List Query) :
    ((answers ask as qs).filterMap Reply.item? ++ left ask as qs).Perm as := by
  induction qs generalizing as with
  | nil => exact List.Perm.refl as
  | cons q qs ih =>
    have hhere := ask_perm as q
    have hrest := (ih (ask as q).2).append_left (ask as q).1.item?.toList
    have hitems : (answers ask as (q :: qs)).filterMap Reply.item? =
        (ask as q).1.item?.toList ++ (answers ask (ask as q).2 qs).filterMap Reply.item? := by
      rw [answers, List.filterMap_cons]
      cases (ask as q).1.item? <;> rfl
    rw [hitems, List.append_assoc]
    exact hrest.trans hhere

theorem length_left (as : List α) (qs : List Query) :
    (left ask as qs).length = as.length - Query.takes qs := by
  induction qs generalizing as with
  | nil => rfl
  | cons q qs ih =>
    have htakes : Query.takes ([q] ++ qs) = Query.takes [q] + Query.takes qs :=
      List.countP_append
    rw [List.singleton_append] at htakes
    show (left ask (ask as q).2 qs).length = _
    rw [ih, length_ask, htakes, Nat.sub_add_eq]

end Deque

/-! ## Walks -/

namespace Walk

/-- The reply of a walk, and the walk after it. -/
def ask (w : Walk κ ν) : Query → Reply (Entry κ ν) × Walk κ ν
  | .take .front => (.item w.next?.1, w.next?.2)
  | .take .back => (.item w.nextBack?.1, w.nextBack?.2)
  | .length => (.length w.length, w)
  | .hint => (.hint w.sizeHint, w)

/-- The walk still has to hand out `es`: it counts them, and each cursor has them before it, maybe
with more beyond. -/
structure Holds (w : Walk κ ν) (es : List (Entry κ ν)) : Prop where
  count : w.remaining = es.length
  front : ∃ r, Ascent.pending w.front = es ++ r
  back : ∃ q, Descent.pending w.back = es.reverse ++ q

namespace Holds

variable {w : Walk κ ν} {es : List (Entry κ ν)}

theorem next? (hw : w.Holds es) : w.next?.1 = es.head? ∧ w.next?.2.Holds es.tail := by
  obtain ⟨hcount, ⟨r, hr⟩, ⟨q, hq⟩⟩ := hw
  cases es with
  | nil =>
    have hsame : w.next? = (none, w) := by rw [Walk.next?, hcount]; rfl
    rw [hsame]
    exact ⟨rfl, hcount, ⟨r, hr⟩, ⟨q, hq⟩⟩
  | cons e es =>
    rw [List.length_cons] at hcount
    cases hn : Ascent.next? w.front with
    | none =>
      rw [Ascent.next?_eq_none_iff.1 hn] at hr
      cases hr
    | some p =>
      obtain ⟨a, gs⟩ := p
      rw [Ascent.pending_next? hn, List.cons_append] at hr
      obtain ⟨rfl, hgs⟩ := List.cons_eq_cons.1 hr
      have hstep : w.next? = (some a, { w with front := gs, remaining := es.length }) := by
        rw [Walk.next?, hcount]
        simp only [hn]
      rw [hstep]
      -- the entry taken in front stays beyond those that the back cursor has before it
      exact ⟨rfl, rfl, ⟨r, hgs⟩, ⟨a :: q, by rw [hq]; simp⟩⟩

theorem nextBack? (hw : w.Holds es) :
    w.nextBack?.1 = es.getLast? ∧ w.nextBack?.2.Holds es.dropLast := by
  obtain ⟨hcount, ⟨r, hr⟩, ⟨q, hq⟩⟩ := hw
  rcases List.eq_nil_or_concat es with rfl | ⟨es, e, rfl⟩
  · have hsame : w.nextBack? = (none, w) := by rw [Walk.nextBack?, hcount]; rfl
    rw [hsame]
    exact ⟨rfl, hcount, ⟨r, hr⟩, ⟨q, hq⟩⟩
  · rw [List.concat_eq_append] at *
    rw [List.length_append, List.length_singleton] at hcount
    rw [List.reverse_concat, List.cons_append] at hq
    cases hn : Descent.next? w.back with
    | none =>
      rw [Descent.next?_eq_none_iff.1 hn] at hq
      cases hq
    | some p =>
      obtain ⟨a, gs⟩ := p
      rw [Descent.pending_next? hn] at hq
      obtain ⟨rfl, hgs⟩ := List.cons_eq_cons.1 hq
      have hstep : w.nextBack? = (some a, { w with back := gs, remaining := es.length }) := by
        rw [Walk.nextBack?, hcount]
        simp only [hn]
      rw [hstep, List.getLast?_concat, List.dropLast_concat]
      exact ⟨rfl, rfl, ⟨a :: r, by rw [hr]; simp⟩, ⟨q, hgs⟩⟩

/-- Whatever is asked, the walk answers as the list does. -/
theorem ask (hw : w.Holds es) (q : Query) :
    (w.ask q).1 = (Deque.ask es q).1 ∧ (w.ask q).2.Holds (Deque.ask es q).2 := by
  cases q with
  | take s =>
    cases s with
    | front => exact ⟨congrArg Reply.item hw.next?.1, hw.next?.2⟩
    | back => exact ⟨congrArg Reply.item hw.nextBack?.1, hw.nextBack?.2⟩
  | length => exact ⟨congrArg Reply.length hw.count, hw⟩
  | hint => exact ⟨congrArg (fun n => Reply.hint (n, some n)) hw.count, hw⟩

end Holds

end Walk

/-! ## Columns -/

namespace Column

/-- The reply of a column, and the column after it. -/
def ask (c : Column κ ν α) : Query → Reply α × Column κ ν α
  | .take .front => (.item c.next?.1, c.next?.2)
  | .take .back => (.item c.nextBack?.1, c.nextBack?.2)
  | .length => (.length c.length, c)
  | .hint => (.hint c.sizeHint, c)

/-- The column still has to hand out `as`, the parts of the entries that its walk holds. -/
def Holds (c : Column κ ν α) (as : List α) : Prop := ∃ es, c.walk.Holds es ∧ as = es.map c.part

theorem Holds.ask {c : Column κ ν α} {as : List α} (hc : c.Holds as) (q : Query) :
    (c.ask q).1 = (Deque.ask as q).1 ∧ (c.ask q).2.Holds (Deque.ask as q).2 := by
  obtain ⟨es, hw, rfl⟩ := hc
  cases q with
  | take s =>
    cases s with
    | front =>
      obtain ⟨hhead, htail⟩ := hw.next?
      refine ⟨?_, _, htail, ?_⟩
      · show Reply.item (c.walk.next?.1.map c.part) = _
        rw [hhead, ← List.head?_map]
        rfl
      · exact List.map_tail.symm
    | back =>
      obtain ⟨hlast, hinit⟩ := hw.nextBack?
      refine ⟨?_, _, hinit, ?_⟩
      · show Reply.item (c.walk.nextBack?.1.map c.part) = _
        rw [hlast, ← List.getLast?_map]
        rfl
      · exact List.map_dropLast.symm
  | length =>
    have hlen : c.length = (es.map c.part).length := hw.count.trans (List.length_map _).symm
    exact ⟨congrArg Reply.length hlen, es, hw, rfl⟩
  | hint =>
    have hlen : c.walk.remaining = (es.map c.part).length := hw.count.trans (List.length_map _).symm
    exact ⟨congrArg (fun n => Reply.hint (n, some n)) hlen, es, hw, rfl⟩

end Column

/-! ## Walks over a tree -/

namespace Tree

variable [Ord κ] {t : Tree κ ν}

theorem holds_walk (h : t.Sound) : t.walk.Holds t.toList := by
  have hsize := h.size_eq_length
  obtain ⟨root, d, size⟩ := t
  cases root with
  | none => exact ⟨hsize, ⟨[], rfl⟩, ⟨[], rfl⟩⟩
  | some root =>
    exact ⟨hsize, ⟨[], Ascent.pending_enter root []⟩, ⟨[], Descent.pending_enter root []⟩⟩

/-- Asked for entries at either end and for the number that remains, in any order, a walk over a
reachable tree answers as the list of its entries does, and the walks over its keys and values as
those of the keys and values; each entry is handed out once, and when none is left there never is
one again. -/
theorem Reachable.walk_answers [Std.TransOrd κ] (h : t.Reachable) (qs : List Query) :
    Ascending t.toList ∧
    Query.answers Walk.ask t.walk qs = Query.answers Deque.ask t.toList qs ∧
    Query.answers Column.ask t.keys qs = Query.answers Deque.ask (t.toList.map Entry.key) qs ∧
    Query.answers Column.ask t.values qs = Query.answers Deque.ask (t.toList.map Entry.value) qs ∧
    ∃ rest,
      ((Query.answers Walk.ask t.walk qs).filterMap Reply.item? ++ rest).Perm t.toList ∧
      rest.length = t.size - Query.takes qs ∧
      (∀ qs', Query.answers Walk.ask t.walk (qs ++ qs') =
        Query.answers Walk.ask t.walk qs ++ Query.answers Deque.ask rest qs') ∧
      (t.size ≤ Query.takes qs → ∀ qs', Query.answers Walk.ask t.walk (qs ++ qs') =
        Query.answers Walk.ask t.walk qs ++ qs'.map Query.spent) := by
  have hwalk (qs : List Query) :
      Query.answers Walk.ask t.walk qs = Query.answers Deque.ask t.toList qs :=
    Query.answers_eq (R := Walk.Holds) (fun _ _ q hw => hw.ask q) (holds_walk h.sound) qs
  have hcolumn {α : Type} (f : Entry κ ν → α) :
      Query.answers Column.ask ⟨f, t.walk⟩ qs = Query.answers Deque.ask (t.toList.map f) qs :=
    Query.answers_eq (R := Column.Holds) (fun _ _ q hc => hc.ask q)
      ⟨t.toList, holds_walk h.sound, rfl⟩ qs
  have hlen : (Query.left Deque.ask t.toList qs).length = t.size - Query.takes qs := by
    rw [Deque.length_left, h.sound.size_eq_length]
  refine ⟨h.sound.ascending, hwalk qs, hcolumn Entry.key, hcolumn Entry.value,
    Query.left Deque.ask t.toList qs, ?_, hlen, ?_, ?_⟩
  · rw [hwalk]
    exact Deque.answers_perm t.toList qs
  · intro qs'
    rw [hwalk, hwalk, Query.answers_append]
  · intro hle qs'
    have hnil : Query.left Deque.ask t.toList qs = [] :=
      List.eq_nil_of_length_eq_zero (by rw [hlen]; omega)
    rw [hwalk, hwalk, Query.answers_append, hnil, Deque.answers_nil]

/-- The two ends meet between separators and leaves, and stay where they met. -/
theorem walk_answers_from_both_ends :
    ∃ t : Tree Nat Nat, t.Reachable ∧
      Query.answers Walk.ask t.walk [.length, .take .front, .take .back, .hint, .take .front,
        .take .back, .length, .take .front, .take .back, .hint] =
          [.length 4, .item (some ⟨1, 3⟩), .item (some ⟨8, 2⟩), .hint (2, some 2),
            .item (some ⟨5, 0⟩), .item (some ⟨7, 4⟩), .length 0, .item none, .item none,
            .hint (0, some 0)] ∧
      Query.answers Column.ask t.keys [.take .back, .length, .take .front] =
        [.item (some 8), .length 3, .item (some 1)] ∧
      Query.answers Column.ask t.values [.take .back, .hint, .take .front] =
        [.item (some 2), .hint (3, some 3), .item (some 3)] := by
  obtain ⟨s, es, heq, hsound, hdegree, hlist⟩ := update_spec (.empty ⟨2, by decide⟩) (by decide)
    (.extend [(5, 0), (3, 1), (8, 2), (1, 3), (7, 4)])
  obtain ⟨t, fs, heq', -, -, hlist'⟩ :=
    update_spec hsound (hdegree ▸ by decide) (.removeEntry 3)
  have hr : t.Reachable := .update (.update (.empty _) ⟨es, heq⟩) ⟨fs, heq'⟩
  rw [hlist] at hlist'
  refine ⟨t, hr, (Reachable.walk_answers hr _).2.1.trans ?_,
    (Reachable.walk_answers hr _).2.2.1.trans ?_, (Reachable.walk_answers hr _).2.2.2.1.trans ?_⟩
  · rw [hlist']
    decide
  · rw [hlist']
    decide
  · rw [hlist']
    decide

end Tree

end BTree
