import BTree.Proofs.Filling
import BTree.Proofs.Inverse

/-!
# Rotations to and fro

A rotation to the left and one to the right are one exchange, read forwards and backwards:
`n.Shifts i m` tells the node before and after an entry has gone from the child at `i + 1`, through the
entry between, to the child at `i`.  Nothing is asked of the keys or of the numbers of entries.  Either
rotation makes such an exchange, or it is refused and the node stays as it is; and the one undoes the
other, as long as the child that gained the entry can spare it again:

    n.rotateLeft t i         refused and n unchanged, or done (true, m) es, n.Shifts i m    (rotateLeft_cases)
    n.rotateRight t (l + 1)  refused and n unchanged, or done (true, m) es, m.Shifts l n    (rotateRight_cases)
    n.Shifts i m  →  m.rotateRight t (i + 1) = done (true, n) es, if its child at i has t entries
                                                                                     (Shifts.rotateRight_eq)
-/

namespace BTree

variable {κ ν : Type}

namespace Node

/-- `n.Shifts i m`: from `n` to `m` the first entry of the child at `i + 1` has gone up between the two
children, and the entry it found there has become the last of the child at `i`.  The grandchild between
the two entries goes along; only leaves have none. -/
inductive Shifts : Node κ ν → Nat → Node κ ν → Prop
  | intro {x : Context κ ν} {a b : Node κ ν} {e p : Entry κ ν} {g : Option (Node κ ν)}
      (hg : g = none → a.children = [] ∧ b.children = []) :
      Shifts (x.pair a e (b.pushLeft p g)) x.index (x.pair (a.pushRight e g) p b)

/-! ## Lemmas -/

/-- Only in a leaf does no child go with an entry. -/
theorem Adjoins.children_eq_nil {ok : Nat → Prop} {h : Nat} {n : Node κ ν}
    (hg : Adjoins ok h (Option.none : Option (Node κ ν))) (hn : n.Levelled ok h) :
    n.children = [] := by
  cases hg
  exact levelled_one_iff.1 hn

namespace Shifts

variable {t h i : Nat} {n m a b : Node κ ν}

/-- The sizes tell which child gave the entry and which one took it; no other child is touched. -/
theorem lends (hs : n.Shifts i m) : n.Lends (i + 1) i m := by
  cases hs with
  | @intro x a b e p g hg =>
    exact Context.lends_left (length_entries_pushRight a e g) (length_entries_pushLeft b p g).symm

/-- The levels are kept, and the exchange is not seen in the reading. -/
theorem keeps (hs : n.Shifts i m) (hn : n.Shaped h) : m.toList = n.toList ∧ m.Shaped h := by
  cases hs with
  | @intro x a b e p g hg =>
    obtain ⟨f, rfl, hx, ⟨-, ha⟩, ⟨-, hb⟩⟩ := Context.levelled_pair_iff.1 hn
    obtain ⟨hb, hadj⟩ := hb.of_pushLeft fun hnone => (hg hnone).2
    have ha' := levelled_pushRight e ha hadj
    refine ⟨?_, Context.levelled_pair_iff.2 ⟨f, rfl, hx, ⟨trivial, ha'⟩, ⟨trivial, hb⟩⟩⟩
    rw [Context.toList_pair, Context.toList_pair, toList_pushRight e ha hadj,
      toList_pushLeft p hb hadj]
    simp only [List.append_assoc, List.cons_append]

/-- An exchange read backwards keeps as much. -/
theorem keeps_symm (hs : n.Shifts i m) (hm : m.Shaped h) : n.toList = m.toList ∧ n.Shaped h := by
  have hn : n.Shaped h := by
    cases hs with
    | @intro x a b e p g hg =>
      obtain ⟨f, rfl, hx, ⟨-, ha⟩, ⟨-, hb⟩⟩ := Context.levelled_pair_iff.1 hm
      obtain ⟨ha, hadj⟩ := ha.of_pushRight fun hnone => (hg hnone).1
      have hb' := levelled_pushLeft p hb hadj
      exact Context.levelled_pair_iff.2 ⟨f, rfl, hx, ⟨trivial, ha⟩, ⟨trivial, hb'⟩⟩
  exact ⟨(hs.keeps hn).1.symm, hn⟩

theorem rotateLeft_eq (hs : n.Shifts i m) (hb : n.children[i + 1]? = some b)
    (hle : t ≤ b.entries.length) : n.rotateLeft t i = .done (true, m) [.rotateLeft i] := by
  cases hs with
  | @intro x a c e p g hg =>
    rw [x.getElem?_children_pair_right] at hb
    cases hb
    exact rotateLeft_pair x hle fun hnone => (hg hnone).2

theorem rotateRight_eq (hs : n.Shifts i m) (ha : m.children[i]? = some a)
    (hle : t ≤ a.entries.length) :
    m.rotateRight t (i + 1) = .done (true, n) [.rotateRight (i + 1)] := by
  cases hs with
  | @intro x c b e p g hg =>
    rw [x.getElem?_children_pair_left] at ha
    cases ha
    rw [length_entries_pushRight] at hle
    exact rotateRight_pair x hle fun hnone => (hg hnone).1

end Shifts

/-! ### Every rotation is an exchange or a refusal -/

section
variable {t h i : Nat} {n a b : Node κ ν} (hn : n.Shaped h) (ha : n.children[i]? = some a)
include hn ha

/-- The second of two neighbours can give an entry up if it has one. -/
theorem Shaped.exists_shifts (hb : n.children[i + 1]? = some b) (hne : 1 ≤ b.entries.length) :
    ∃ m, n.Shifts i m := by
  obtain ⟨f, x, e, rfl, rfl, rfl, -, ⟨-, halev⟩, ⟨-, hblev⟩⟩ := Levelled.exists_pair hn ha hb
  obtain ⟨b, p, g, rfl, hg⟩ := exists_pushLeft (List.length_pos_iff.1 hne)
  obtain ⟨-, hadj⟩ := hblev.of_pushLeft hg
  refine ⟨_, .intro fun hnone => ⟨?_, hg hnone⟩⟩
  subst hnone
  exact hadj.children_eq_nil halev

/-- The first of two neighbours can give an entry up if it has one. -/
theorem Shaped.exists_shifts_symm (hb : n.children[i + 1]? = some b) (hne : 1 ≤ a.entries.length) :
    ∃ m : Node κ ν, m.Shifts i n := by
  obtain ⟨f, x, p, rfl, rfl, rfl, -, ⟨-, halev⟩, ⟨-, hblev⟩⟩ := Levelled.exists_pair hn ha hb
  obtain ⟨a, e, g, rfl, hg⟩ := exists_pushRight (List.length_pos_iff.1 hne)
  obtain ⟨-, hadj⟩ := halev.of_pushRight hg
  refine ⟨x.pair a e (b.pushLeft p g), .intro fun hnone => ⟨hg hnone, ?_⟩⟩
  subst hnone
  exact hadj.children_eq_nil hblev

theorem Shaped.rotateLeft_cases (ht : 1 ≤ t) :
    ((∀ b, n.children[i + 1]? = some b → b.entries.length < t) ∧
      n.rotateLeft t i = .done (false, n) []) ∨
    ∃ b m, n.children[i + 1]? = some b ∧ t ≤ b.entries.length ∧ n.Shifts i m ∧
      n.rotateLeft t i = .done (true, m) [.rotateLeft i] := by
  by_cases hshort : ∀ b, n.children[i + 1]? = some b → b.entries.length < t
  · obtain ⟨g, x, rfl, rfl, rfl, -, -⟩ := Levelled.exists_plug hn ha
    refine .inl ⟨hshort, rotateLeft_plug_of_short x a fun b hb => hshort b ?_⟩
    rw [x.getElem?_children_plug_right]
    exact hb
  · simp only [Classical.not_forall, Nat.not_lt] at hshort
    obtain ⟨b, hb, hle⟩ := hshort
    obtain ⟨m, hs⟩ := hn.exists_shifts ha hb (Nat.le_trans ht hle)
    exact .inr ⟨b, m, hb, hle, hs, hs.rotateLeft_eq hb hle⟩

theorem Shaped.rotateRight_cases (ht : 1 ≤ t) :
    ((∀ l b, l + 1 = i → n.children[l]? = some b → b.entries.length < t) ∧
      n.rotateRight t i = .done (false, n) []) ∨
    ∃ l b m, l + 1 = i ∧ n.children[l]? = some b ∧ t ≤ b.entries.length ∧ m.Shifts l n ∧
      n.rotateRight t i = .done (true, m) [.rotateRight i] := by
  by_cases hshort : ∀ l b, l + 1 = i → n.children[l]? = some b → b.entries.length < t
  · obtain ⟨g, x, rfl, rfl, rfl, -, -⟩ := Levelled.exists_plug hn ha
    refine .inl ⟨hshort, rotateRight_plug_of_short x a fun b hb => ?_⟩
    cases hi : x.index with
    | zero =>
      rw [List.eq_nil_of_length_eq_zero (x.left_length.trans hi)] at hb
      cases hb
    | succ l =>
      refine hshort l b hi.symm ?_
      rw [x.getElem?_children_plug_left a hi.symm]
      exact hb
  · simp only [Classical.not_forall, Nat.not_lt] at hshort
    obtain ⟨l, b, rfl, hb, hle⟩ := hshort
    obtain ⟨m, hs⟩ := hn.exists_shifts_symm hb ha (Nat.le_trans ht hle)
    exact .inr ⟨l, b, m, rfl, hb, hle, hs, hs.rotateRight_eq hb hle⟩

/-- A rotation to the left is refused just if there is no right sibling, or if that has fewer than `t`
entries. -/
theorem Shaped.rotateLeft_law (ht : 1 ≤ t) :
    ∃ moved m es, n.rotateLeft t i = .done (moved, m) es ∧
      (moved = false ↔ i + 1 = n.children.length ∨
        ∃ b, n.children[i + 1]? = some b ∧ b.entries.length < t) ∧
      (moved = false → m = n ∧ es = []) ∧
      (moved = true → n.Shifts i m ∧ n.Lends (i + 1) i m ∧ m.toList = n.toList ∧ m.Shaped h ∧
        (t - 1 ≤ a.entries.length → ∃ fs, m.rotateRight t (i + 1) = .done (true, n) fs)) := by
  obtain ⟨hi, -⟩ := List.getElem?_eq_some_iff.1 ha
  rcases hn.rotateLeft_cases ha ht with ⟨hshort, heq⟩ | ⟨b, m, hb, hle, hs, heq⟩
  · refine ⟨false, n, [], heq, ⟨fun _ => ?_, fun _ => rfl⟩, fun _ => ⟨rfl, rfl⟩, nofun⟩
    cases hb : n.children[i + 1]? with
    | none =>
      have hend := List.getElem?_eq_none_iff.1 hb
      exact .inl (by omega)
    | some b => exact .inr ⟨b, rfl, hshort b hb⟩
  · obtain ⟨hlist, hm⟩ := hs.keeps hn
    refine ⟨true, m, _, heq, ⟨nofun, ?_⟩, nofun, fun _ => ⟨hs, hs.lends, hlist, hm, fun hspare => ?_⟩⟩
    · obtain ⟨hi', -⟩ := List.getElem?_eq_some_iff.1 hb
      rintro (hend | ⟨d, hd, hlt⟩)
      · omega
      · obtain rfl : b = d := Option.some.inj (hb.symm.trans hd)
        omega
    · obtain ⟨d, a', hd, ha', hgain⟩ := hs.lends.takes
      obtain rfl : a = d := Option.some.inj (ha.symm.trans hd)
      exact ⟨_, hs.rotateRight_eq ha' (by omega)⟩

/-- A rotation to the right is refused just if there is no left sibling, or if that has fewer than `t`
entries. -/
theorem Shaped.rotateRight_law (ht : 1 ≤ t) :
    ∃ moved m es, n.rotateRight t i = .done (moved, m) es ∧
      (moved = false ↔ i = 0 ∨
        ∃ l b, l + 1 = i ∧ n.children[l]? = some b ∧ b.entries.length < t) ∧
      (moved = false → m = n ∧ es = []) ∧
      (moved = true → ∃ l, l + 1 = i ∧ m.Shifts l n ∧ n.Lends l i m ∧ m.toList = n.toList ∧
        m.Shaped h ∧
        (t - 1 ≤ a.entries.length → ∃ fs, m.rotateLeft t l = .done (true, n) fs)) := by
  rcases hn.rotateRight_cases ha ht with ⟨hshort, heq⟩ | ⟨l, b, m, rfl, hb, hle, hs, heq⟩
  · refine ⟨false, n, [], heq, ⟨fun _ => ?_, fun _ => rfl⟩, fun _ => ⟨rfl, rfl⟩, nofun⟩
    cases i with
    | zero => exact .inl rfl
    | succ l =>
      obtain ⟨hl, -⟩ := List.getElem?_eq_some_iff.1 ha
      have hb := List.getElem?_eq_getElem (show l < n.children.length by omega)
      exact .inr ⟨l, _, rfl, hb, hshort l _ rfl hb⟩
  · obtain ⟨hlist, hm⟩ := hs.keeps_symm hn
    refine ⟨true, m, _, heq, ⟨nofun, ?_⟩, nofun,
      fun _ => ⟨l, rfl, hs, hs.lends.symm, hlist, hm, fun hspare => ?_⟩⟩
    · rintro (hzero | ⟨j, d, hj, hd, hlt⟩)
      · exact absurd hzero (Nat.succ_ne_zero l)
      · obtain rfl : j = l := Nat.add_right_cancel hj
        obtain rfl : b = d := Option.some.inj (hb.symm.trans hd)
        omega
    · obtain ⟨a', d, ha', hd, hgain⟩ := hs.lends.gives
      obtain rfl : a = d := Option.some.inj (ha.symm.trans hd)
      exact ⟨_, hs.rotateLeft_eq ha' (by omega)⟩

/-- In a node of level leaves a rotation moves an entry or does nothing.  It is refused, and the node
stays as it is, just if there is no sibling to take an entry from or it has fewer than `t` entries.
Else the child has one entry more, the sibling one less, and the grandchild between goes along; the
entries in order, the depth of the leaves and the numbers of children are kept; and if the child had
`t - 1` entries or more, the opposite rotation restores the node. -/
theorem Shaped.rotation_law (ht : 1 ≤ t) :
    (∃ moved m es, n.rotateLeft t i = .done (moved, m) es ∧
      (moved = false ↔ i + 1 = n.children.length ∨
        ∃ b, n.children[i + 1]? = some b ∧ b.entries.length < t) ∧
      (moved = false → m = n ∧ es = []) ∧
      (moved = true → n.Shifts i m ∧ n.Lends (i + 1) i m ∧ m.toList = n.toList ∧ m.Shaped h ∧
        (t - 1 ≤ a.entries.length → ∃ fs, m.rotateRight t (i + 1) = .done (true, n) fs))) ∧
    ∃ moved m es, n.rotateRight t i = .done (moved, m) es ∧
      (moved = false ↔ i = 0 ∨
        ∃ l b, l + 1 = i ∧ n.children[l]? = some b ∧ b.entries.length < t) ∧
      (moved = false → m = n ∧ es = []) ∧
      (moved = true → ∃ l, l + 1 = i ∧ m.Shifts l n ∧ n.Lends l i m ∧ m.toList = n.toList ∧
        m.Shaped h ∧
        (t - 1 ≤ a.entries.length → ∃ fs, m.rotateLeft t l = .done (true, n) fs)) :=
  ⟨hn.rotateLeft_law ha ht, hn.rotateRight_law ha ht⟩

end

/-- Three levels; the child in the middle has one entry more than those beside it. -/
def bulging : Node Nat Nat :=
  ⟨[⟨4, 40⟩, ⟨10, 100⟩],
    [.binary (.leaf ⟨1, 10⟩) ⟨2, 20⟩ (.leaf ⟨3, 30⟩),
      ⟨[⟨6, 60⟩, ⟨8, 80⟩], [.leaf ⟨5, 50⟩, .leaf ⟨7, 70⟩, .leaf ⟨9, 90⟩]⟩,
      .binary (.leaf ⟨11, 110⟩) ⟨12, 120⟩ (.leaf ⟨13, 130⟩)]⟩

/-- The first child takes an entry and a grandchild over from the one in the middle and gives them back;
that one takes nothing from the last child, which has none to spare. -/
theorem rotation_law_of_bulging :
    1 ≤ 2 ∧ bulging.Shaped 3 ∧
      bulging.children[0]? = some (.binary (.leaf ⟨1, 10⟩) ⟨2, 20⟩ (.leaf ⟨3, 30⟩)) ∧
      (∃ m es fs, bulging.rotateLeft 2 0 = .done (true, m) es ∧ bulging.Shifts 0 m ∧
        m.toList = bulging.toList ∧ m.rotateRight 2 1 = .done (true, bulging) fs) ∧
      bulging.rotateRight 2 0 = .done (false, bulging) [] ∧
      bulging.rotateLeft 2 1 = .done (false, bulging) [] := by
  have hshaped : bulging.Shaped 3 := by
    have hleaf (e : Entry Nat Nat) : (leaf e).Fits (fun _ => True) 1 := ⟨trivial, .leaf [e]⟩
    refine levelled_add_two_iff.2 ⟨rfl, ?_⟩
    simp only [bulging, List.forall_mem_cons]
    refine ⟨⟨trivial, levelled_binary _ (hleaf _) (hleaf _)⟩, ⟨trivial, ?_⟩,
      ⟨trivial, levelled_binary _ (hleaf _) (hleaf _)⟩, by simp⟩
    exact .inner rfl (fun _ _ => trivial) (by simp [levelled_one_iff, Node.leaf])
  obtain ⟨⟨moved, m, es, heq, hrefused, -, hmoved⟩, moved', m', es', heq', hrefused', hsame', -⟩ :=
    hshaped.rotation_law (i := 0) rfl (Nat.le_succ 1)
  obtain ⟨⟨moved'', m'', es'', heq'', hrefused'', hsame'', -⟩, -⟩ :=
    hshaped.rotation_law (i := 1) rfl (Nat.le_succ 1)
  refine ⟨Nat.le_succ 1, hshaped, rfl, ?_, ?_, ?_⟩
  · obtain rfl : moved = true := by
      rw [← Bool.not_eq_false, hrefused]
      simp [bulging]
    obtain ⟨hs, -, hlist, -, hback⟩ := hmoved rfl
    obtain ⟨fs, hback⟩ := hback (by decide)
    exact ⟨m, es, fs, heq, hs, hlist, hback⟩
  · obtain rfl : moved' = false := hrefused'.2 (.inl rfl)
    obtain ⟨rfl, rfl⟩ := hsame' rfl
    exact heq'
  · obtain rfl : moved'' = false := hrefused''.2 (.inr ⟨_, rfl, by decide⟩)
    obtain ⟨rfl, rfl⟩ := hsame'' rfl
    exact heq''

end Node

end BTree
