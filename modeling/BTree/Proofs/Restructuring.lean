import BTree.Node.Fill
import BTree.Proofs.Levels

/-!
# Restructuring around a gap

What splitting, merging, rotating and filling do to a node with a gap, as equations.  `Fills` lists
the five things that filling a child can do, with the conditions under which it does each and the
events it emits; the child takes over a stretch of what is read on either side and nothing is lost:

    (x.plug c).fillChild t x.index = done (y.index, y.plug d) es, where Fills t x c y d es     (fillChild_plug)
    Fills t x c y d es  →  (x.plug c).fillChild t x.index = done (y.index, y.plug d) es        (fillChild_of_fills)
    Fills t x c y d es  →  x.before = y.before ++ l, x.after = r ++ y.after,
                           d.toList = l ++ c.toList ++ r                                       (Fills.exists_taken)
-/

namespace BTree

variable {κ ν : Type}

/-- The left sibling of the gap, if there is one, has no entry to spare. -/
def Context.LeftShort (t : Nat) (x : Context κ ν) : Prop :=
  ∀ a ∈ x.leftChildren.getLast?, a.entries.length < t

/-- `Fills t x c y d es`: filling the child `c` in the gap of `x` leaves the child `d` in the gap of
`y`, and emits `es`. -/
inductive Fills (t : Nat) :
    Context κ ν → Node κ ν → Context κ ν → Node κ ν → List Event → Prop
  /-- The child has an entry to spare already. -/
  | keep {x : Context κ ν} {c : Node κ ν} (hc : t ≤ c.entries.length) : Fills t x c x c []
  /-- The left sibling hands over its last entry `p`, through the entry `e` between. -/
  | borrowLeft {x : Context κ ν} {a c : Node κ ν} {e p : Entry κ ν} {g : Option (Node κ ν)}
      (hc : c.entries.length < t) (ha : t ≤ a.entries.length + 1) (hg : g = none → a.children = []) :
      Fills t (x.skip (a.pushRight p g) e) c (x.skip a p) (c.pushLeft e g)
        [.rotateRight (x.index + 1)]
  /-- The right sibling hands over its first entry `p`, through the entry `e` between. -/
  | borrowRight {x : Context κ ν} {b c : Node κ ν} {e p : Entry κ ν} {g : Option (Node κ ν)}
      (hc : c.entries.length < t) (hl : x.LeftShort t) (hb : t ≤ b.entries.length + 1)
      (hg : g = none → b.children = []) :
      Fills t (x.hold e (b.pushLeft p g)) c (x.hold p b) (c.pushRight e g) [.rotateLeft x.index]
  /-- The child is joined with its right sibling. -/
  | mergeRight {x : Context κ ν} {b c : Node κ ν} {e : Entry κ ν} (hc : c.entries.length < t)
      (hl : x.LeftShort t) (hb : b.entries.length < t) :
      Fills t (x.hold e b) c x (c.append e b)
        [.mergeChildren x.index c.entries.length b.entries.length]
  /-- The last child is joined with its left sibling. -/
  | mergeLeft {x : Context κ ν} {a c : Node κ ν} {e : Entry κ ν} (hc : c.entries.length < t)
      (ha : a.entries.length < t) (hr : x.rightChildren = []) :
      Fills t (x.skip a e) c x (a.append e c)
        [.mergeChildren x.index a.entries.length c.entries.length]

/-! ## Equations -/

namespace Context

theorem leftShort_of_nil {t : Nat} {x : Context κ ν} (hl : x.leftChildren = []) :
    x.LeftShort t := by
  simp [LeftShort, hl]

theorem leftShort_skip_iff {t : Nat} {x : Context κ ν} {a : Node κ ν} {e : Entry κ ν} :
    (x.skip a e).LeftShort t ↔ a.entries.length < t := by
  simp [LeftShort, skip]

end Context

theorem insertIdx_length_append {α : Type} (l r : List α) (a : α) :
    (l ++ r).insertIdx l.length a = l ++ a :: r := by
  induction l with
  | nil => rfl
  | cons b l ih => simp [ih]

namespace Node

theorem splitChild_plug (x : Context κ ν) {c a b : Node κ ν} {e : Entry κ ν}
    (hs : c.split = .ok (a, e, b)) :
    (x.plug c).splitChild x.index =
      .done (x.pair a e b) [.splitChild x.index a.entries.length b.entries.length] := by
  have hle : x.index ≤ (x.plug c).entries.length := by
    rw [Context.length_entries_plug]
    exact x.index_le_size
  have hes : (x.plug c).entries.insertIdx x.index e = (x.pair a e b).entries := by
    exact insertIdx_length_append _ _ _
  have hcs : ((x.plug c).children.set x.index a).insertIdx (x.index + 1) b =
      (x.pair a e b).children := by
    have hlen : x.index + 1 = (x.leftChildren ++ [a]).length := by
      simp [Context.index, x.left_length]
    rw [Context.set_children_plug, hlen]
    simp only [Context.plug, Context.pair]
    rw [List.append_cons, insertIdx_length_append, ← List.append_cons]
  simp only [splitChild, x.access_children_plug, hs, Edit.liftM_ok, Edit.done_bind, Edit.after_nil,
    Edit.emit, if_pos hle, hes, hcs]
  rfl

theorem mergeChildren_pair (x : Context κ ν) (a b : Node κ ν) (e : Entry κ ν) :
    (x.pair a e b).mergeChildren x.index =
      .done (x.plug (a.append e b))
        [.mergeChildren x.index a.entries.length b.entries.length] := by
  have hes : (x.pair a e b).entries.eraseIdx x.index = (x.plug (a.append e b)).entries := by
    simp [Context.plug, Context.pair, Context.index, List.eraseIdx_append_of_length_le]
  have hcs : ((x.pair a e b).children.eraseIdx (x.index + 1)).set x.index (a.append e b) =
      (x.plug (a.append e b)).children := by
    simp [Context.plug, Context.pair, Context.index, ← x.left_length,
      List.eraseIdx_append_of_length_le]
  simp only [mergeChildren, x.access_entries_pair, x.access_children_pair_left,
    x.access_children_pair_right, Edit.liftM_ok, Edit.done_bind, Edit.after_nil, Edit.emit, hes,
    hcs]
  rfl

theorem isFull_eq_ok {t : Nat} (ht : 1 ≤ t) (hw : InWord t) (n : Node κ ν) :
    n.isFull t = .ok (decide (2 * t - 1 ≤ n.entries.length)) := by
  rw [isFull, mostEntries_eq_ok ht hw]
  rfl

/-- Without a word for the double of the degree, no node can be asked whether it is full. -/
theorem isFull_eq_error {t : Nat} (hw : ¬ InWord t) (n : Node κ ν) :
    n.isFull t = .error .overflow := by
  rw [isFull, mostEntries_eq_error hw]
  rfl

/-- A full node splits into halves that hold the fewest entries allowed. -/
theorem exists_split_full {t h : Nat} (ht : 1 ≤ t) {c : Node κ ν} (hc : c.Fits (Occupied t) h)
    (hfull : 2 * t - 1 ≤ c.entries.length) :
    ∃ a e b, c.split = .ok (a, e, b) ∧ c = a.append e b ∧ a.Fits (Occupied t) h ∧
      b.Fits (Occupied t) h ∧ a.entries.length = t - 1 ∧ b.entries.length = t - 1 := by
  have hlen : c.entries.length = 2 * t - 1 := Nat.le_antisymm hc.size.2 hfull
  have hne : c.entries ≠ [] := by
    intro hnil
    rw [hnil, List.length_nil] at hfull
    omega
  obtain ⟨a, e, b, hs, happ, ha, hb, halen, hblen⟩ := exists_split hc.levelled hne
  have halen : a.entries.length = t - 1 := by omega
  have hblen : b.entries.length = t - 1 := by omega
  refine ⟨a, e, b, hs, happ, ⟨?_, ha⟩, ⟨?_, hb⟩, halen, hblen⟩
  · rw [halen]
    exact ⟨by omega, by omega⟩
  · rw [hblen]
    exact ⟨by omega, by omega⟩

theorem split_full {t h : Nat} (ht : 1 ≤ t) {c a b : Node κ ν} {e : Entry κ ν}
    (hc : c.Fits (Occupied t) h) (hfull : 2 * t - 1 ≤ c.entries.length)
    (hs : c.split = .ok (a, e, b)) :
    c = a.append e b ∧ a.Fits (Occupied t) h ∧ b.Fits (Occupied t) h ∧
      a.entries.length = t - 1 ∧ b.entries.length = t - 1 := by
  obtain ⟨a', e', b', hs', hhalves⟩ := exists_split_full ht hc hfull
  rw [hs] at hs'
  cases hs'
  exact hhalves

/-! ### Spare entries -/

theorem exists_pushLeft {n : Node κ ν} (hne : n.entries ≠ []) :
    ∃ m p g, n = pushLeft m p g ∧ (g = none → m.children = []) := by
  obtain ⟨_ | ⟨p, es⟩, cs⟩ := n
  · exact absurd rfl hne
  · cases cs with
    | nil => exact ⟨⟨es, []⟩, p, none, rfl, fun _ => rfl⟩
    | cons c cs => exact ⟨⟨es, cs⟩, p, some c, rfl, fun hg => absurd hg (Option.some_ne_none c)⟩

theorem exists_pushRight {n : Node κ ν} (hne : n.entries ≠ []) :
    ∃ m p g, n = pushRight m p g ∧ (g = none → m.children = []) := by
  obtain ⟨es, cs⟩ := n
  rcases List.eq_nil_or_concat es with rfl | ⟨es, p, rfl⟩
  · exact absurd rfl hne
  · rcases List.eq_nil_or_concat cs with rfl | ⟨cs, c, rfl⟩
    · exact ⟨⟨es, []⟩, p, none, by simp [pushRight], fun _ => rfl⟩
    · exact ⟨⟨es, cs⟩, p, some c, by simp [pushRight], fun hg => absurd hg (Option.some_ne_none c)⟩

theorem popLeft_pushLeft {t : Nat} {n : Node κ ν} {p : Entry κ ν} {g : Option (Node κ ν)}
    (hlen : t ≤ n.entries.length + 1) (hg : g = none → n.children = []) :
    (n.pushLeft p g).popLeft t = .ok (some ⟨p, g, n⟩) := by
  rw [popLeft_eq_some_iff]
  refine ⟨by simpa [pushLeft] using hlen, rfl, ?_, ?_⟩
  · cases g with
    | none => simp [pushLeft, hg rfl]
    | some c => rfl
  · cases g with
    | none => simp [pushLeft, hg rfl]
    | some c => rfl

theorem popRight_pushRight {t : Nat} {n : Node κ ν} {p : Entry κ ν} {g : Option (Node κ ν)}
    (hlen : t ≤ n.entries.length + 1) (hg : g = none → n.children = []) :
    (n.pushRight p g).popRight t = some ⟨p, g, n⟩ := by
  rw [popRight_eq_some_iff]
  refine ⟨by simpa [pushRight] using hlen, rfl, ?_, ?_⟩
  · cases g with
    | none => simp [pushRight, hg rfl]
    | some c => simp [pushRight]
  · cases g with
    | none => simp [pushRight, hg rfl]
    | some c => simp [pushRight]

/-! ### Rotations -/

theorem rotateLeft_pair {t : Nat} (x : Context κ ν) {b c : Node κ ν} {e p : Entry κ ν}
    {g : Option (Node κ ν)} (hlen : t ≤ b.entries.length + 1) (hg : g = none → b.children = []) :
    (x.pair c e (b.pushLeft p g)).rotateLeft t x.index =
      .done (true, x.pair (c.pushRight e g) p b) [.rotateLeft x.index] := by
  have hes : (x.pair c e (b.pushLeft p g)).entries.set x.index p =
      (x.pair (c.pushRight e g) p b).entries := by
    simp [Context.pair, Context.index]
  have hcs : ((x.pair c e (b.pushLeft p g)).children.set (x.index + 1) b).set x.index
      (c.pushRight e g) = (x.pair (c.pushRight e g) p b).children := by
    simp [Context.pair, Context.index, ← x.left_length]
  simp only [rotateLeft, x.getElem?_children_pair_right, popLeft_pushLeft hlen hg,
    x.access_children_pair_left, x.access_entries_pair, Edit.liftM_ok, Edit.done_bind,
    Edit.after_nil, Edit.emit, hes, hcs]
  rfl

theorem rotateRight_pair {t : Nat} (x : Context κ ν) {a c : Node κ ν} {e p : Entry κ ν}
    {g : Option (Node κ ν)} (hlen : t ≤ a.entries.length + 1) (hg : g = none → a.children = []) :
    (x.pair (a.pushRight p g) e c).rotateRight t (x.index + 1) =
      .done (true, x.pair a p (c.pushLeft e g)) [.rotateRight (x.index + 1)] := by
  have hes : (x.pair (a.pushRight p g) e c).entries.set x.index p =
      (x.pair a p (c.pushLeft e g)).entries := by
    simp [Context.pair, Context.index]
  have hcs : ((x.pair (a.pushRight p g) e c).children.set x.index a).set (x.index + 1)
      (c.pushLeft e g) = (x.pair a p (c.pushLeft e g)).children := by
    simp [Context.pair, Context.index, ← x.left_length]
  simp only [rotateRight, x.access_children_pair_left, popRight_pushRight hlen hg,
    x.access_children_pair_right, x.access_entries_pair, Edit.liftM_ok, Edit.done_bind,
    Edit.after_nil, Edit.emit, hes, hcs]
  rfl

/-- A rotation from the right is refused when no right sibling has an entry to spare. -/
theorem rotateLeft_plug_of_short {t : Nat} (x : Context κ ν) (c : Node κ ν)
    (hr : ∀ b ∈ x.rightChildren.head?, b.entries.length < t) :
    (x.plug c).rotateLeft t x.index = .done (false, x.plug c) [] := by
  have hget := x.getElem?_children_plug_right c
  cases hb : x.rightChildren.head? with
  | none =>
    rw [hb] at hget
    simp [rotateLeft, hget]
  | some b =>
    have hlt : b.entries.length < t := hr b hb
    have hpop : b.popLeft t = .ok none := by rw [popLeft, if_pos hlt]
    rw [hb] at hget
    simp only [rotateLeft, hget, hpop, Edit.liftM_ok, Edit.done_bind, Edit.after_nil]
    rfl

/-- A rotation from the left is refused when no left sibling has an entry to spare. -/
theorem rotateRight_plug_of_short {t : Nat} (x : Context κ ν) (c : Node κ ν)
    (hl : x.LeftShort t) : (x.plug c).rotateRight t x.index = .done (false, x.plug c) [] := by
  rcases x.left_cases with ⟨hnil, -⟩ | ⟨y, a, e, rfl⟩
  · have hzero : x.index = 0 := by rw [Context.index, hnil, List.length_nil]
    rw [hzero]
    rfl
  · have hlt : a.entries.length < t := hl a (by simp [Context.skip])
    have hpop : a.popRight t = none := by rw [popRight, if_pos hlt]
    simp only [Context.index_skip, Context.skip_plug, rotateRight, y.access_children_pair_left, hpop,
      Edit.liftM_ok, Edit.done_bind, Edit.after_nil]
    rfl

/-! ### Filling -/

/-- When both rotations are refused, the child is merged. -/
theorem fillChild_of_refused {t i : Nat} {n c : Node κ ν} (hget : access n.children i = .ok c)
    (hc : c.entries.length < t) (hright : n.rotateRight t i = .done (false, n) [])
    (hleft : n.rotateLeft t i = .done (false, n) []) :
    n.fillChild t i =
      if i + 1 < n.children.length then (do return (i, ← n.mergeChildren i))
      else (do
        let j ← decrement i
        return (j, ← n.mergeChildren j)) := by
  simp only [fillChild, hget, hright, hleft, Edit.liftM_ok, Edit.done_bind, Edit.after_nil,
    if_neg (Nat.not_le.2 hc), Bool.false_eq_true, if_false]

/-- Each of the five things is done where its conditions hold. -/
theorem fillChild_of_fills {t : Nat} {x y : Context κ ν} {c d : Node κ ν} {es : List Event}
    (hf : Fills t x c y d es) :
    (x.plug c).fillChild t x.index = .done (y.index, y.plug d) es := by
  have hget := x.access_children_plug c
  cases hf with
  | keep hc =>
    simp only [fillChild, hget, Edit.liftM_ok, Edit.done_bind, Edit.after_nil, if_pos hc]
    rfl
  | @borrowLeft x a c e p g hc ha hg =>
    simp only [fillChild, hget, Edit.liftM_ok, Edit.done_bind, Edit.after_nil,
      if_neg (Nat.not_le.2 hc)]
    simp only [Context.index_skip, Context.skip_plug, rotateRight_pair x ha hg, Edit.done_bind,
      if_true]
    rfl
  | @borrowRight x b c e p g hc hl hb hg =>
    have hright : ((x.hold e (b.pushLeft p g)).plug c).rotateRight t
        (x.hold e (b.pushLeft p g)).index = .done (false, (x.hold e (b.pushLeft p g)).plug c) [] :=
      rotateRight_plug_of_short (x.hold e (b.pushLeft p g)) c hl
    simp only [fillChild, hget, hright, Edit.liftM_ok, Edit.done_bind, Edit.after_nil,
      if_neg (Nat.not_le.2 hc), Bool.false_eq_true, if_false]
    simp only [Context.index_hold, Context.hold_plug, rotateLeft_pair x hb hg, Edit.done_bind,
      if_true]
    rfl
  | @mergeRight _ b _ e hc hl hb =>
    have hright : ((y.hold e b).plug c).rotateRight t (y.hold e b).index =
        .done (false, (y.hold e b).plug c) [] := rotateRight_plug_of_short (y.hold e b) c hl
    have hleft : ((y.hold e b).plug c).rotateLeft t (y.hold e b).index =
        .done (false, (y.hold e b).plug c) [] :=
      rotateLeft_plug_of_short (y.hold e b) c (by simpa [Context.hold] using hb)
    have hmore : (y.hold e b).index + 1 < ((y.hold e b).plug c).children.length := by
      rw [Context.length_children_plug, Context.length_entries_plug, Context.size_hold]
      have hle : y.index ≤ y.size := y.index_le_size
      rw [Context.index_hold]
      omega
    rw [fillChild_of_refused hget hc hright hleft, if_pos hmore, Context.index_hold,
      Context.hold_plug, mergeChildren_pair]
    rfl
  | @mergeLeft _ a _ e hc ha hr =>
    -- the last child has only its left sibling to be joined with
    have hright : ((y.skip a e).plug c).rotateRight t (y.skip a e).index =
        .done (false, (y.skip a e).plug c) [] :=
      rotateRight_plug_of_short (y.skip a e) c (Context.leftShort_skip_iff.2 ha)
    have hleft : ((y.skip a e).plug c).rotateLeft t (y.skip a e).index =
        .done (false, (y.skip a e).plug c) [] :=
      rotateLeft_plug_of_short (y.skip a e) c (by simp [Context.skip, hr])
    have hlast : ¬ (y.skip a e).index + 1 < ((y.skip a e).plug c).children.length := by
      have hnil : y.rightEntries.length = 0 := by rw [← y.right_length, hr, List.length_nil]
      rw [Context.length_children_plug, Context.length_entries_plug, Context.size_skip,
        Context.index_skip, Context.size, hnil]
      exact Nat.lt_irrefl _
    rw [fillChild_of_refused hget hc hright hleft, if_neg hlast, Context.index_skip,
      Context.skip_plug]
    simp only [decrement, Edit.liftM_ok, Edit.done_bind, Edit.after_nil, mergeChildren_pair]
    rfl

/-- A child that cannot borrow from the left can be filled from the right, or else joined. -/
theorem exists_fills_of_leftShort {t : Nat} (ht : 1 ≤ t) {x : Context κ ν} {c : Node κ ν}
    (hsize : 0 < x.size) (hc : c.entries.length < t) (hl : x.LeftShort t) :
    ∃ y d es, Fills t x c y d es := by
  rcases x.right_cases with ⟨hnil, hnil'⟩ | ⟨y, e, b, rfl⟩
  · rcases x.left_cases with ⟨hnil'', -⟩ | ⟨y, a, e, rfl⟩
    · simp [Context.size, hnil, hnil''] at hsize
    · exact ⟨_, _, _, .mergeLeft hc (Context.leftShort_skip_iff.1 hl) hnil'⟩
  · by_cases hb : t ≤ b.entries.length
    · have hne : b.entries ≠ [] := List.length_pos_iff.1 (Nat.lt_of_lt_of_le ht hb)
      obtain ⟨b, p, g, rfl, hg⟩ := exists_pushLeft hne
      have hlen : t ≤ b.entries.length + 1 := by simpa [pushLeft] using hb
      exact ⟨_, _, _, .borrowRight hc hl hlen hg⟩
    · exact ⟨_, _, _, .mergeRight hc hl (Nat.not_le.1 hb)⟩

theorem exists_fills {t : Nat} (ht : 1 ≤ t) {x : Context κ ν} (c : Node κ ν) (hsize : 0 < x.size) :
    ∃ y d es, Fills t x c y d es := by
  by_cases hc : t ≤ c.entries.length
  · exact ⟨x, c, [], .keep hc⟩
  · rw [Nat.not_le] at hc
    rcases x.left_cases with ⟨-, hnil⟩ | ⟨y, a, e, rfl⟩
    · exact exists_fills_of_leftShort ht hsize hc (Context.leftShort_of_nil hnil)
    · by_cases ha : t ≤ a.entries.length
      · have hne : a.entries ≠ [] := List.length_pos_iff.1 (Nat.lt_of_lt_of_le ht ha)
        obtain ⟨a, p, g, rfl, hg⟩ := exists_pushRight hne
        have hlen : t ≤ a.entries.length + 1 := by simpa [pushRight] using ha
        exact ⟨_, _, _, .borrowLeft hc hlen hg⟩
      · exact exists_fills_of_leftShort ht hsize hc
          (Context.leftShort_skip_iff.2 (Nat.not_le.1 ha))

/-- Filling a child of a node with at least one entry never faults, and does one of five things. -/
theorem fillChild_plug {t : Nat} (ht : 1 ≤ t) {x : Context κ ν} (c : Node κ ν)
    (hsize : 0 < x.size) :
    ∃ y d es, Fills t x c y d es ∧
      (x.plug c).fillChild t x.index = .done (y.index, y.plug d) es := by
  obtain ⟨y, d, es, hf⟩ := exists_fills ht c hsize
  exact ⟨y, d, es, hf, fillChild_of_fills hf⟩

end Node

/-! ## What filling keeps -/

namespace Fills

open Node

variable {top ok : Nat → Prop} {t h : Nat} {x y : Context κ ν} {c d : Node κ ν} {es : List Event}

/-- Filling costs the node at most one entry. -/
theorem size_eq (hf : Fills t x c y d es) : y.size = x.size ∨ y.size + 1 = x.size := by
  cases hf with
  | keep hc => exact .inl rfl
  | borrowLeft hc ha hg =>
    left
    rw [Context.size_skip, Context.size_skip]
  | borrowRight hc hl hb hg =>
    left
    rw [Context.size_hold, Context.size_hold]
  | mergeRight hc hl hb => exact .inr (Context.size_hold _ _ _).symm
  | mergeLeft hc ha hr => exact .inr (Context.size_skip _ _ _).symm

/-- Occupancy and levels are kept, and the child ends with an entry to spare. -/
theorem stands (hf : Fills t x c y d es) (hx : x.Stands (Occupied t) ok h)
    (hc : c.Stands (Occupied t) ok h) :
    y.Stands (Occupied t) ok h ∧ d.Stands (Occupied t) ok h ∧ t ≤ d.entries.length := by
  have hcmin : t - 1 ≤ c.entries.length := hc.size.1
  cases hf with
  | keep hle => exact ⟨hx, hc, hle⟩
  | @borrowLeft x a c e p g hlt ha hg =>
    obtain ⟨hx, hafits⟩ := Context.stands_skip_iff.1 hx
    obtain ⟨halev, hadj⟩ := hafits.levelled.of_pushRight hg
    have halen := length_entries_pushRight a p g
    have hclen := length_entries_pushLeft c e g
    have ha' : a.Stands (Occupied t) ok h := hafits.of_loss (by omega) halev (.inr halen.symm)
    have hd := levelled_pushLeft e hc.levelled hadj
    refine ⟨Context.stands_skip_iff.2 ⟨hx, ha'⟩, hc.of_gain ?_ hd ?_ ?_, ?_⟩ <;> omega
  | @borrowRight x b c e p g hlt hl hb hg =>
    obtain ⟨hx, hbfits⟩ := Context.stands_hold_iff.1 hx
    obtain ⟨hblev, hadj⟩ := hbfits.levelled.of_pushLeft hg
    have hblen := length_entries_pushLeft b p g
    have hclen := length_entries_pushRight c e g
    have hb' : b.Stands (Occupied t) ok h := hbfits.of_loss (by omega) hblev (.inr hblen.symm)
    have hd := levelled_pushRight e hc.levelled hadj
    refine ⟨Context.stands_hold_iff.2 ⟨hx, hb'⟩, hc.of_gain ?_ hd ?_ ?_, ?_⟩ <;> omega
  | @mergeRight x b c e hlt hl hb =>
    obtain ⟨hx, hbfits⟩ := Context.stands_hold_iff.1 hx
    exact ⟨hx, stands_append e hc hbfits hlt hb⟩
  | @mergeLeft x a c e hlt ha hr =>
    obtain ⟨hx, hafits⟩ := Context.stands_skip_iff.1 hx
    exact ⟨hx, stands_append e hafits hc ha hlt⟩

/-- The child takes over what it is given from either side, and nothing else is moved. -/
theorem exists_taken (hf : Fills t x c y d es) (hx : x.Stands top ok h)
    (hc : c.Levelled ok h) :
    ∃ l r, x.before = y.before ++ l ∧ x.after = r ++ y.after ∧ d.toList = l ++ (c.toList ++ r) := by
  cases hf with
  | keep hle => exact ⟨[], [], by simp, by simp, by simp⟩
  | @borrowLeft x a c e p g hlt ha hg =>
    obtain ⟨hx, -, halev⟩ := Context.stands_skip_iff.1 hx
    obtain ⟨halev, hadj⟩ := halev.of_pushRight hg
    refine ⟨(g.map toList).getD [] ++ [e], [], ?_, by simp, ?_⟩
    · simp [toList_pushRight p halev hadj]
    · simp [toList_pushLeft e hc hadj]
  | @borrowRight x b c e p g hlt hl hb hg =>
    obtain ⟨hx, -, hblev⟩ := Context.stands_hold_iff.1 hx
    obtain ⟨hblev, hadj⟩ := hblev.of_pushLeft hg
    refine ⟨[], e :: (g.map toList).getD [], by simp, ?_, ?_⟩
    · simp [toList_pushLeft p hblev hadj]
    · simp [toList_pushRight e hc hadj]
  | @mergeRight x b c e hlt hl hb =>
    obtain ⟨-, -, hblev⟩ := Context.stands_hold_iff.1 hx
    refine ⟨[], e :: b.toList, by simp, by simp, ?_⟩
    simp [toList_append e hc hblev]
  | @mergeLeft x a c e hlt ha hr =>
    obtain ⟨-, -, halev⟩ := Context.stands_skip_iff.1 hx
    refine ⟨a.toList ++ [e], [], by simp, by simp, ?_⟩
    simp [toList_append e halev hc]

theorem toList_eq (hf : Fills t x c y d es) (hx : x.Stands top ok h)
    (hc : c.Levelled ok h) : (x.plug c).toList = (y.plug d).toList := by
  obtain ⟨l, r, hl, hr, hd⟩ := hf.exists_taken hx hc
  rw [Context.toList_plug, Context.toList_plug, hl, hr, hd]
  simp only [List.append_assoc]

end Fills

/-- A child below a node that has entries can be filled, and then has an entry to spare. -/
theorem Node.fillChild_eq_done {ok : Nat → Prop} {t h : Nat} (ht : 1 ≤ t) {x : Context κ ν}
    {c : Node κ ν} (hx : x.Stands (Occupied t) ok h) (hc : c.Stands (Occupied t) ok h)
    (hne : 0 < (x.plug c).entries.length) :
    ∃ y d es, Fills t x c y d es ∧
      (x.plug c).fillChild t x.index = .done (y.index, y.plug d) es ∧
      d.Stands (Occupied t) ok h ∧ t ≤ d.entries.length := by
  rw [Context.length_entries_plug] at hne
  obtain ⟨y, d, es, hf, hfill⟩ := fillChild_plug ht c hne
  obtain ⟨-, hd, hspare⟩ := hf.stands hx hc
  exact ⟨y, d, es, hf, hfill, hd, hspare⟩

end BTree
