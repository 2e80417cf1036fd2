import BTree.Proofs.Extremes
import BTree.Proofs.Safety
import BTree.Proofs.Walk

/-!
# Drains as queues

A drain is asked, in any order, for the next entry, for the number of entries that remain and for
bounds of that number.  It takes its tree apart by a traversal of its own, but never faults, and
answers what a walk over the tree answers to the same queries.  `d.Holds es` says that the drain `d`
still has to hand out `es` and counts them; every request keeps it:

    d.Holds es  →  d.ask q = ok (the reply of the list es, a drain that holds what that leaves)  (Holds.ask)
    d.Holds es  →  d.toList = ok es                                                         (Holds.toList_eq)
    Request.answers Drain.ask t.drain qs = ok (the answers of t.walk)           (Reachable.drain_answers)
-/

namespace BTree

variable {α κ ν σ τ : Type}

/-! ## Requests -/

/-- What is asked of an iterator with one end. -/
inductive Request where
  | take
  | length
  | hint
deriving DecidableEq, Repr

namespace Request

/-- The same asked of an iterator with two ends, at its front. -/
def query : Request → Query
  | take => .take .front
  | length => .length
  | hint => .hint

theorem takes_map_query (qs : List Request) : Query.takes (qs.map query) = qs.count take := by
  unfold Query.takes
  rw [List.countP_map, List.count]
  congr 1
  funext q
  cases q <;> rfl

/-- Puts the requests in turn, each to the state that the one before has left; a fault ends the
answers. -/
def answers (ask : σ → Request → Except Fault (Reply α × σ)) (s : σ) :
    List Request → Except Fault (List (Reply α))
  | [] => return []
  | q :: qs => do
    let (reply, s) ← ask s q
    return reply :: (← answers ask s qs)

/-- An iterator that stays in step with one of two ends never faults, and answers alike. -/
theorem answers_eq {ask : σ → Request → Except Fault (Reply α × σ)}
    {ask' : τ → Query → Reply α × τ} {R : σ → τ → Prop}
    (hstep : ∀ s u q, R s u →
      ∃ r, ask s q = .ok ((ask' u (query q)).1, r) ∧ R r (ask' u (query q)).2)
    {s : σ} {u : τ} (h : R s u) (qs : List Request) :
    answers ask s qs = .ok (Query.answers ask' u (qs.map query)) := by
  induction qs generalizing s u with
  | nil => rfl
  | cons q qs ih =>
    obtain ⟨r, hask, hr⟩ := hstep s u q h
    unfold answers
    rw [hask]
    show (do return _ :: (← answers ask r qs)) = _
    rw [ih hr]
    rfl

end Request

/-! ## Drains -/

namespace Drain

/-- The reply of a drain, and the drain after it. -/
def ask (d : Drain κ ν) : Request → Except Fault (Reply (Entry κ ν) × Drain κ ν)
  | .take => do
    let (e, c) ← d.next?
    return (.item e, c)
  | .length => return (.length d.length, d)
  | .hint => return (.hint d.sizeHint, d)

/-- The drain still has to hand out `es`, and counts them. -/
structure Holds (d : Drain κ ν) (es : List (Entry κ ν)) : Prop where
  pending : d.pending = es
  count : d.remaining = es.length

namespace Holds

variable {d : Drain κ ν} {es : List (Entry κ ν)}

theorem next? (hd : d.Holds es) : ∃ c, d.next? = .ok (es.head?, c) ∧ c.Holds es.tail := by
  obtain ⟨rfl, hcount⟩ := hd
  obtain ⟨c, hnext, hpending, hremaining⟩ := next?_eq_ok hcount
  refine ⟨c, hnext, hpending, ?_⟩
  rw [hremaining, hpending]

/-- Whatever is asked, the drain answers as the list does. -/
theorem ask (hd : d.Holds es) (q : Request) :
    ∃ c, d.ask q = .ok ((Deque.ask es q.query).1, c) ∧ c.Holds (Deque.ask es q.query).2 := by
  have hcount := hd.count
  cases q with
  | take =>
    obtain ⟨c, hnext, hc⟩ := hd.next?
    refine ⟨c, ?_, hc⟩
    show (do let (e, c) ← d.next?; return (Reply.item e, c)) = _
    rw [hnext]
    rfl
  | length =>
    refine ⟨d, ?_, hd⟩
    show Except.ok (Reply.length d.remaining, d) = .ok (Reply.length es.length, d)
    rw [hcount]
  | hint =>
    refine ⟨d, ?_, hd⟩
    show Except.ok (Reply.hint (d.remaining, some d.remaining), d) = _
    rw [hcount]
    rfl

theorem toList_eq (hd : d.Holds es) : d.toList = .ok es := by
  induction es generalizing d with
  | nil =>
    obtain ⟨c, hnext, -⟩ := hd.next?
    rw [toList]
    split
    · next hfault => simp [hnext] at hfault
    · rfl
    · next hsome => simp [hnext] at hsome
  | cons e es ih =>
    obtain ⟨c, hnext, hc⟩ := hd.next?
    rw [toList]
    split
    · next hfault => simp [hnext] at hfault
    · next hnone => simp [hnext] at hnone
    · next a b hsome =>
      rw [hnext] at hsome
      obtain ⟨rfl, rfl⟩ : e = a ∧ c = b := by simpa using hsome
      rw [ih hc]
      rfl

end Holds

end Drain

/-! ## Columns -/

namespace Drain.Column

/-- The reply of a column, and the column after it. -/
def ask (c : Column κ ν α) : Request → Except Fault (Reply α × Column κ ν α)
  | .take => do
    let (a, c) ← c.next?
    return (.item a, c)
  | .length => return (.length c.length, c)
  | .hint => return (.hint c.sizeHint, c)

/-- The column still has to hand out `as`, the parts of the entries that its drain holds. -/
def Holds (c : Column κ ν α) (as : List α) : Prop := ∃ es, c.drain.Holds es ∧ as = es.map c.part

namespace Holds

variable {c : Column κ ν α} {as : List α}

theorem ask (hc : c.Holds as) (q : Request) :
    ∃ b, c.ask q = .ok ((Deque.ask as q.query).1, b) ∧ b.Holds (Deque.ask as q.query).2 := by
  obtain ⟨es, hd, rfl⟩ := hc
  have hcount : c.drain.remaining = (es.map c.part).length := by
    rw [hd.count, List.length_map]
  cases q with
  | take =>
    obtain ⟨d, hnext, hd'⟩ := hd.next?
    have hcolumn : c.next? = .ok (es.head?.map c.part, { c with drain := d }) := by
      unfold next?
      rw [hnext]
      rfl
    refine ⟨{ c with drain := d }, ?_, es.tail, hd', List.map_tail.symm⟩
    show (do let (a, b) ← c.next?; return (Reply.item a, b)) = _
    rw [hcolumn, ← List.head?_map]
    rfl
  | length =>
    refine ⟨c, ?_, es, hd, rfl⟩
    show Except.ok (Reply.length c.drain.remaining, c) = _
    rw [hcount]
    rfl
  | hint =>
    refine ⟨c, ?_, es, hd, rfl⟩
    show Except.ok (Reply.hint (c.drain.remaining, some c.drain.remaining), c) = _
    rw [hcount]
    rfl

theorem toList_eq (hc : c.Holds as) : c.toList = .ok as := by
  obtain ⟨es, hd, rfl⟩ := hc
  unfold toList
  rw [hd.toList_eq]
  rfl

end Holds

end Drain.Column

/-! ## Drains of a tree -/

namespace Tree

variable [Ord κ] {t : Tree κ ν}

theorem holds_drain (h : t.Sound) : t.drain.Holds t.toList :=
  ⟨pending_drain t, by rw [remaining_drain, h.size_eq_length]⟩

/-- Whatever is asked of a drain of a reachable tree, it never faults, and its answers are those of a
walk over the tree to the same queries: the entries in ascending order, each of them once, and before
and after each the exact number still to come; when none is left there never is one again.  The drains
for the keys and the values hand out those of the same entries. -/
theorem Reachable.drain_answers [Std.TransOrd κ] (h : t.Reachable) (qs : List Request) :
    Ascending t.walk.toList ∧ t.drain.toList = .ok t.walk.toList ∧
    t.drainKeys.toList = .ok (t.walk.toList.map Entry.key) ∧
    t.drainValues.toList = .ok (t.walk.toList.map Entry.value) ∧
    Request.answers Drain.ask t.drain qs =
      .ok (Query.answers Walk.ask t.walk (qs.map Request.query)) ∧
    Request.answers Drain.ask t.drain qs =
      .ok (Query.answers Deque.ask t.walk.toList (qs.map Request.query)) ∧
    Request.answers Drain.Column.ask t.drainKeys qs =
      .ok (Query.answers Deque.ask (t.walk.toList.map Entry.key) (qs.map Request.query)) ∧
    Request.answers Drain.Column.ask t.drainValues qs =
      .ok (Query.answers Deque.ask (t.walk.toList.map Entry.value) (qs.map Request.query)) ∧
    (t.size ≤ qs.count .take → ∀ qs', Request.answers Drain.ask t.drain (qs ++ qs') =
      .ok (Query.answers Deque.ask t.walk.toList (qs.map Request.query) ++
        qs'.map fun q => q.query.spent)) := by
  have hwalk : t.walk.toList = t.toList := h.sound.entries_eq
  have hdrain := holds_drain h.sound
  have hqueue (qs : List Request) : Request.answers Drain.ask t.drain qs =
      .ok (Query.answers Deque.ask t.toList (qs.map Request.query)) :=
    Request.answers_eq (R := Drain.Holds) (fun _ _ q hd => hd.ask q) hdrain qs
  have hcolumn {α : Type} (f : Entry κ ν → α) :
      (⟨f, t.drain⟩ : Drain.Column κ ν α).Holds (t.toList.map f) := ⟨t.toList, hdrain, rfl⟩
  have hparts {α : Type} (f : Entry κ ν → α) : Request.answers Drain.Column.ask ⟨f, t.drain⟩ qs =
      .ok (Query.answers Deque.ask (t.toList.map f) (qs.map Request.query)) :=
    Request.answers_eq (R := Drain.Column.Holds) (fun _ _ q hc => hc.ask q) (hcolumn f) qs
  rw [hwalk]
  refine ⟨h.sound.ascending, hdrain.toList_eq, (hcolumn Entry.key).toList_eq,
    (hcolumn Entry.value).toList_eq, ?_, hqueue qs, hparts Entry.key, hparts Entry.value, ?_⟩
  · rw [hqueue, (h.walk_answers (qs.map Request.query)).2.1]
  · intro hspent qs'
    have hnil : Query.left Deque.ask t.toList (qs.map Request.query) = [] := by
      apply List.eq_nil_of_length_eq_zero
      rw [Deque.length_left, Request.takes_map_query, ← h.sound.size_eq_length]
      omega
    rw [hqueue, List.map_append, Query.answers_append, hnil, Deque.answers_nil, List.map_map]
    rfl

/-- The ten pairs of a tree of three levels come out from leaves and separators in turn, and after them
none. -/
theorem drain_answers_of_ladder :
    ladder.Reachable ∧
      ladder.drain.toList = .ok ((List.range' 1 10).map fun k => ⟨k, 10 * k⟩) ∧
      ladder.drainKeys.toList = .ok (List.range' 1 10) ∧
      Request.answers Drain.ask ladder.drain [.length, .take, .take, .hint] =
        .ok [.length 10, .item (some ⟨1, 10⟩), .item (some ⟨2, 20⟩), .hint (8, some 8)] ∧
      Request.answers Drain.ask ladder.drain (List.replicate 10 .take ++ [.take, .hint, .take]) =
        .ok ((List.range' 1 10).map (fun k => .item (some ⟨k, 10 * k⟩)) ++
          [.item none, .hint (0, some 0), .item none]) := by
  have hlist : ladder.walk.toList = (List.range' 1 10).map fun k => ⟨k, 10 * k⟩ := by cbv
  obtain ⟨-, hdrain, hkeys, -, -, hqueue, -⟩ :=
    ladder_reachable.drain_answers [.length, .take, .take, .hint]
  obtain ⟨-, -, -, -, -, -, -, -, hspent⟩ := ladder_reachable.drain_answers (List.replicate 10 .take)
  rw [hlist] at hdrain hkeys hqueue hspent
  exact ⟨ladder_reachable, hdrain, hkeys, hqueue, hspent (by decide) [.take, .hint, .take]⟩

end Tree

end BTree
