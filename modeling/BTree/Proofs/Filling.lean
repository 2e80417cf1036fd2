import BTree.Proofs.Restructuring

/-!
# Readiness for the descent

A removal descends only into a child that has an entry to spare, and `fillChild` sees to it.  What the
caller relies on is told here of the node itself, without its gap: nothing is lost or reordered, and a
key that was to be looked for below the child at `i` is to be looked for below the child at `j`:

    n.fillChild t i = done (j, m) es, where n.Filled t ok h i c j m es     (fillChild_law)
    n.Between i k  →  m.Between j k                                        (Filled.between)

Only the children themselves have to be occupied; what stands below them is moved as it is.
-/

namespace BTree

variable {κ ν : Type}

namespace Node

/-- The key lies strictly between the entries on either side of the child at `i`. -/
structure Between [Ord κ] (n : Node κ ν) (i : Nat) (k : κ) : Prop where
  below : ∀ l e, l + 1 = i → n.entries[l]? = some e → compare e.key k = .lt
  above : ∀ e, n.entries[i]? = some e → compare k e.key = .lt

/-- The child at `l` is `s`, and stands next to the child at `i`. -/
structure Neighbour (n : Node κ ν) (i l : Nat) (s : Node κ ν) : Prop where
  adjacent : l + 1 = i ∨ l = i + 1
  child : n.children[l]? = some s

/-- The sibling from which the child at `i` can borrow: the left one if it holds at least `t` entries,
or else the right one if that does. -/
inductive Lender (t : Nat) (n : Node κ ν) (i : Nat) : Nat → Prop
  | left {l : Nat} {a : Node κ ν} (hl : l + 1 = i) (ha : n.children[l]? = some a)
      (hlen : t ≤ a.entries.length) : Lender t n i l
  | right {b : Node κ ν}
      (hshort : ∀ l a, l + 1 = i → n.children[l]? = some a → a.entries.length < t)
      (hb : n.children[i + 1]? = some b) (hlen : t ≤ b.entries.length) : Lender t n i (i + 1)

/-- In `m` the child at `taker` has one entry more than in `n` and the child at `giver` one less; the
other children are the same. -/
structure Lends (n : Node κ ν) (giver taker : Nat) (m : Node κ ν) : Prop where
  length_entries : m.entries.length = n.entries.length
  gives : ∃ a b, n.children[giver]? = some a ∧ m.children[giver]? = some b ∧
    b.entries.length + 1 = a.entries.length
  takes : ∃ a b, n.children[taker]? = some a ∧ m.children[taker]? = some b ∧
    b.entries.length = a.entries.length + 1
  others : ∀ l, l ≠ giver → l ≠ taker → m.children[l]? = n.children[l]?

/-- `n.Filled t ok h i c j m es`: of the node `n` over children of `h` levels, whose child at `i` is
`c`, filling leaves `m`, in which the child is found at `j`. -/
structure Filled [Ord κ] (t : Nat) (ok : Nat → Prop) (h : Nat) (n : Node κ ν) (i : Nat)
    (c : Node κ ν) (j : Nat) (m : Node κ ν) (es : List Event) : Prop where
  toList_eq : m.toList = n.toList
  /-- All leaves lie as deep as before, the children hold `t - 1` to `2t - 1` entries, and what held of
  the nodes below them still does. -/
  below : m.Over (Occupied t) ok h
  spare : ∃ d, m.children[j]? = some d ∧ t ≤ d.entries.length ∧ d.entries.length ≤ 2 * t - 1
  between : ∀ k, n.Between i k → m.Between j k
  kept : t ≤ c.entries.length → j = i ∧ m = n ∧ es = []
  borrowed : c.entries.length < t → (∃ l s, n.Neighbour i l s ∧ t ≤ s.entries.length) →
    j = i ∧ ∃ l, n.Lender t i l ∧ n.Lends l i m
  /-- The child is joined with its right sibling, or the last one with its left sibling. -/
  merged : c.entries.length < t → (∀ l s, n.Neighbour i l s → s.entries.length < t) →
    n.mergeChildren j = .done m es ∧ (j = i ∨ j + 1 = i ∧ i + 1 = n.children.length)
  /-- Only a merge costs the node an entry, and only where no entry is to spare. -/
  lost : m.entries.length ≠ n.entries.length →
    m.entries.length + 1 = n.entries.length ∧ c.entries.length = t - 1 ∧
      ∀ l s, n.Neighbour i l s → s.entries.length = t - 1

/-! ## Lemmas -/

theorem Lender.exists_neighbour {t i l : Nat} {n : Node κ ν} (hl : n.Lender t i l) :
    ∃ s, n.Neighbour i l s ∧ t ≤ s.entries.length := by
  cases hl with
  | left hi ha hlen => exact ⟨_, ⟨.inl hi, ha⟩, hlen⟩
  | right _ hb hlen => exact ⟨_, ⟨.inr rfl, hb⟩, hlen⟩

/-- What was lent can be given back. -/
theorem Lends.symm {n m : Node κ ν} {giver taker : Nat} (h : n.Lends giver taker m) :
    m.Lends taker giver n := by
  obtain ⟨a, b, ha, hb, hgives⟩ := h.gives
  obtain ⟨c, d, hc, hd, htakes⟩ := h.takes
  exact
    { length_entries := h.length_entries.symm
      gives := ⟨d, c, hd, hc, htakes.symm⟩
      takes := ⟨b, a, hb, ha, hgives.symm⟩
      others := fun l hl hl' => (h.others l hl' hl).symm }

end Node

namespace Context

variable {x : Context κ ν} {a b c a' b' : Node κ ν} {e e' : Entry κ ν} {t : Nat}

theorem LeftShort.length_lt (hshort : x.LeftShort t) {l : Nat} (hl : l + 1 = x.index)
    (ha : (x.plug c).children[l]? = some a) : a.entries.length < t := by
  rw [x.getElem?_children_plug_left c hl] at ha
  exact hshort a ha

/-- No neighbour has an entry to spare if neither the left sibling nor the right one has. -/
theorem LeftShort.neighbours (hl : x.LeftShort t)
    (hr : ∀ b ∈ x.rightChildren.head?, b.entries.length < t) (l : Nat) (s : Node κ ν)
    (hs : (x.plug c).Neighbour x.index l s) : s.entries.length < t := by
  obtain ⟨hi | rfl, hs⟩ := hs
  · exact hl.length_lt hi hs
  · rw [x.getElem?_children_plug_right c] at hs
    exact hr s hs

theorem getElem?_children_pair_of_ne {l : Nat} (hl : l ≠ x.index) (hl' : l ≠ x.index + 1) :
    (x.pair a' e' b').children[l]? = (x.pair a e b).children[l]? := by
  rw [index, ← x.left_length] at hl hl'
  rcases Nat.lt_or_ge l x.leftChildren.length with hlt | hge
  · rw [pair, pair, List.getElem?_append_left hlt, List.getElem?_append_left hlt]
  · obtain ⟨i, rfl⟩ : ∃ i, l = x.leftChildren.length + (i + 2) :=
      ⟨l - x.leftChildren.length - 2, by omega⟩
    rw [pair, pair, List.getElem?_append_right hge, List.getElem?_append_right hge]
    simp

theorem lends_right (ha : a'.entries.length + 1 = a.entries.length)
    (hb : b'.entries.length = b.entries.length + 1) :
    (x.pair a e b).Lends x.index (x.index + 1) (x.pair a' e' b') where
  length_entries := by simp
  gives := ⟨a, a', x.getElem?_children_pair_left _ _ _, x.getElem?_children_pair_left _ _ _, ha⟩
  takes := ⟨b, b', x.getElem?_children_pair_right _ _ _, x.getElem?_children_pair_right _ _ _, hb⟩
  others _ hl hl' := getElem?_children_pair_of_ne hl hl'

theorem lends_left (ha : a'.entries.length = a.entries.length + 1)
    (hb : b'.entries.length + 1 = b.entries.length) :
    (x.pair a e b).Lends (x.index + 1) x.index (x.pair a' e' b') :=
  (lends_right ha.symm hb.symm).symm

/-- In an ascending node the keys between the entries next to the gap are those between all that is
read before the gap and all that is read after it. -/
theorem between_iff [Ord κ] [Std.TransOrd κ] {k : κ} (hasc : Ascending (x.plug c).toList) :
    (x.plug c).Between x.index k ↔ Brackets x.before x.after k := by
  rw [toList_plug, ascending_append, ascending_append] at hasc
  obtain ⟨hbefore, ⟨-, hafter, -⟩, -⟩ := hasc
  constructor
  · rintro ⟨hbelow, habove⟩
    constructor
    · rcases x.left_cases with ⟨hnil, -⟩ | ⟨y, a, e, rfl⟩
      · rw [before_eq_nil_iff.2 hnil]
        simp
      · have hi : y.index + 1 = (y.skip a e).index := (index_skip y a e).symm
        have he : compare e.key k = .lt := by
          refine hbelow y.index e hi ?_
          rw [getElem?_entries_plug_left _ c hi]
          exact List.getLast?_concat
        rw [before_skip, ← List.append_assoc] at hbefore ⊢
        exact below_concat hbefore he
    · rcases x.right_cases with ⟨hnil, -⟩ | ⟨y, e, b, rfl⟩
      · rw [after_eq_nil_iff.2 hnil]
        simp
      · have he : compare k e.key = .lt := habove e ((y.hold e b).getElem?_entries_plug_right c)
        rw [after_hold] at hafter ⊢
        exact above_cons hafter he
  · rintro ⟨hbelow, habove⟩
    constructor
    · intro l e hl he
      rw [x.getElem?_entries_plug_left c hl] at he
      exact hbelow e ((sublist_weave _ _).subset (List.mem_of_getLast? he))
    · intro e he
      rw [x.getElem?_entries_plug_right c] at he
      exact habove e ((sublist_weave _ _).subset (List.mem_of_mem_head? he))

end Context

namespace Fills

open Node

variable {ok : Nat → Prop} {t h : Nat} {x y : Context κ ν} {c d : Node κ ν} {es : List Event}

/-- Which of the five things filling does is settled by the sizes of the child and its neighbours. -/
theorem size_cases (hf : Fills t x c y d es) :
    (t ≤ c.entries.length ∧ y = x ∧ d = c ∧ es = []) ∨
    (c.entries.length < t ∧ y.index = x.index ∧
      ∃ l, (x.plug c).Lender t x.index l ∧ (x.plug c).Lends l x.index (y.plug d)) ∨
    (c.entries.length < t ∧
      (∀ l s, (x.plug c).Neighbour x.index l s → s.entries.length < t) ∧
      (x.plug c).mergeChildren y.index = .done (y.plug d) es ∧
      (y.index = x.index ∨
        y.index + 1 = x.index ∧ x.index + 1 = (x.plug c).children.length)) := by
  cases hf with
  | keep hc => exact .inl ⟨hc, rfl, rfl, rfl⟩
  | @borrowLeft x a c e p g hc ha hg =>
    have hlen := length_entries_pushRight a p g
    refine .inr (.inl ⟨hc, ?_, x.index, ?_, ?_⟩)
    · rw [Context.index_skip, Context.index_skip]
    · rw [Context.index_skip, Context.skip_plug]
      exact .left rfl (x.getElem?_children_pair_left _ _ _) (by omega)
    · rw [Context.index_skip, Context.skip_plug, Context.skip_plug]
      exact Context.lends_right hlen.symm (length_entries_pushLeft c e g)
  | @borrowRight x b c e p g hc hl hb hg =>
    have hclen := length_entries_pushRight c e g
    have hblen := length_entries_pushLeft b p g
    have hleft : (x.hold e (b.pushLeft p g)).LeftShort t := hl
    refine .inr (.inl ⟨hc, rfl, x.index + 1, ?_, ?_⟩)
    · exact .right (fun _ _ => hleft.length_lt) (x.getElem?_children_pair_right _ _ _) hb
    · rw [Context.index_hold, Context.hold_plug, Context.hold_plug]
      exact Context.lends_left hclen hblen.symm
  | @mergeRight y b c e hc hl hb =>
    have hleft : (y.hold e b).LeftShort t := hl
    have hright : ∀ s ∈ (y.hold e b).rightChildren.head?, s.entries.length < t := by
      simpa [Context.hold] using hb
    exact .inr (.inr ⟨hc, hleft.neighbours hright, mergeChildren_pair y c b e, .inl rfl⟩)
  | @mergeLeft y a c e hc ha hr =>
    have hleft : (y.skip a e).LeftShort t := Context.leftShort_skip_iff.2 ha
    have hright : (y.skip a e).rightChildren = [] := hr
    refine .inr (.inr ⟨hc, hleft.neighbours (by simp [hright]), ?_,
      .inr ⟨(y.index_skip a e).symm, ?_⟩⟩)
    · rw [Context.skip_plug]
      exact mergeChildren_pair y a c e
    · rw [Context.plug, hright, List.length_append, (y.skip a e).left_length]
      rfl

/-- What lay between the entries next to the gap still does. -/
theorem between [Ord κ] [Std.TransOrd κ] {top : Nat → Prop} (hf : Fills t x c y d es)
    (hx : x.Stands top ok h) (hc : c.Levelled ok h) (hasc : Ascending (x.plug c).toList) {k : κ}
    (hk : (x.plug c).Between x.index k) : (y.plug d).Between y.index k := by
  obtain ⟨l, r, hbefore, hafter, -⟩ := hf.exists_taken hx hc
  have hasc' : Ascending (y.plug d).toList := hf.toList_eq hx hc ▸ hasc
  have hb := (Context.between_iff hasc).1 hk
  rw [hbefore, hafter] at hb
  exact (Context.between_iff hasc').2
    (hb.mono (List.subset_append_left _ _) (List.subset_append_right _ _))

end Fills

namespace Node

variable [Ord κ] [Std.TransOrd κ]

/-- Any child of a node with ascending keys, entries and level leaves, whose children hold `t - 1` to
`2t - 1` entries, can be filled. -/
theorem fillChild_law {ok : Nat → Prop} {t h i : Nat} {n c : Node κ ν} (ht : 1 ≤ t)
    (hn : n.Over (Occupied t) ok h) (hasc : Ascending n.toList) (hne : 1 ≤ n.entries.length)
    (hc : n.children[i]? = some c) :
    ∃ j m es, n.fillChild t i = .done (j, m) es ∧ n.Filled t ok h i c j m es := by
  obtain ⟨x, rfl, rfl, hx, hstands⟩ := hn.exists_plug hc
  rw [Context.length_entries_plug] at hne
  obtain ⟨y, d, es, hf, hfill⟩ := fillChild_plug ht c hne
  obtain ⟨hy, hd, hspare⟩ := hf.stands hx hstands
  have hcases := hf.size_cases
  refine ⟨_, _, _, hfill, ?_⟩
  exact
    { toList_eq := (hf.toList_eq hx hstands.levelled).symm
      below := Context.over_plug_iff.2 ⟨hy, hd⟩
      spare := ⟨d, y.getElem?_children_plug d, hspare, hd.size.2⟩
      between := fun k hk => hf.between hx hstands.levelled hasc hk
      kept := by
        intro hle
        rcases hcases with ⟨-, rfl, rfl, rfl⟩ | ⟨hlt, -⟩ | ⟨hlt, -⟩
        · exact ⟨rfl, rfl, rfl⟩
        · exact absurd hle (Nat.not_le.2 hlt)
        · exact absurd hle (Nat.not_le.2 hlt)
      borrowed := by
        rintro hlt ⟨l, s, hs, hle⟩
        rcases hcases with ⟨hle', -⟩ | ⟨-, hlends⟩ | ⟨-, hshort, -⟩
        · exact absurd hle' (Nat.not_le.2 hlt)
        · exact hlends
        · exact absurd hle (Nat.not_le.2 (hshort l s hs))
      merged := by
        intro hlt hshort
        rcases hcases with ⟨hle, -⟩ | ⟨-, -, l, hl, -⟩ | ⟨-, -, hmerge⟩
        · exact absurd hle (Nat.not_le.2 hlt)
        · obtain ⟨s, hs, hle⟩ := hl.exists_neighbour
          exact absurd hle (Nat.not_le.2 (hshort l s hs))
        · exact hmerge
      lost := by
        intro hlen
        rcases hcases with ⟨-, rfl, rfl, -⟩ | ⟨-, -, l, -, hlends⟩ | ⟨hlt, hshort, -⟩
        · exact absurd rfl hlen
        · exact absurd hlends.length_entries hlen
        · rw [Context.length_entries_plug, Context.length_entries_plug] at hlen ⊢
          have hmin : t - 1 ≤ c.entries.length := hstands.size.1
          refine ⟨hf.size_eq.resolve_left hlen, by omega, fun l s hs => ?_⟩
          have hmax : s.entries.length < t := hshort l s hs
          have hs : s.Stands (Occupied t) ok h := hn.stands s (List.mem_of_getElem? hs.child)
          have hmin' : t - 1 ≤ s.entries.length := hs.size.1
          omega }

/-- A node of minimum degree 2 over leaves of two, one and one entries. -/
def slender : Node Nat Nat :=
  ⟨[⟨3, 30⟩, ⟨5, 50⟩], [⟨[⟨1, 10⟩, ⟨2, 20⟩], []⟩, .leaf ⟨4, 40⟩, .leaf ⟨6, 60⟩]⟩

/-- The child in the middle borrows from the left; the last one can only be joined with it. -/
theorem fillChild_law_of_slender :
    1 ≤ 2 ∧ slender.Over (Occupied 2) (fun _ => True) 1 ∧ Ascending slender.toList ∧
      1 ≤ slender.entries.length ∧ slender.children[1]? = some (.leaf ⟨4, 40⟩) ∧
      slender.children[2]? = some (.leaf ⟨6, 60⟩) ∧
      (∃ m es, slender.fillChild 2 1 = .done (1, m) es ∧ m.entries.length = 2) ∧
      ∃ m es, slender.fillChild 2 2 = .done (1, m) es ∧ slender.mergeChildren 1 = .done m es ∧
        m.Between 1 7 := by
  have hover : slender.Over (Occupied 2) (fun _ => True) 1 := by
    refine ⟨rfl, fun c hc => ⟨?_, ?_⟩⟩
    · exact (by decide : ∀ c ∈ slender.children, Occupied 2 c.entries.length) c hc
    · rw [levelled_one_iff]
      exact (by decide : ∀ c ∈ slender.children, c.children = []) c hc
  have hasc : Ascending slender.toList := by
    rw [show slender.toList = [⟨1, 10⟩, ⟨2, 20⟩, ⟨3, 30⟩, ⟨4, 40⟩, ⟨5, 50⟩, ⟨6, 60⟩] by cbv]
    decide
  refine ⟨by decide, hover, hasc, by decide, rfl, rfl, ?_, ?_⟩
  · obtain ⟨j, m, es, hm, hf⟩ := fillChild_law (by decide) hover hasc (by decide) (i := 1) rfl
    have hleft : slender.Neighbour 1 0 ⟨[⟨1, 10⟩, ⟨2, 20⟩], []⟩ := ⟨.inl rfl, rfl⟩
    obtain ⟨rfl, l, -, hlends⟩ := hf.borrowed (by decide) ⟨0, _, hleft, by decide⟩
    exact ⟨m, es, hm, hlends.length_entries⟩
  · obtain ⟨j, m, es, hm, hf⟩ := fillChild_law (by decide) hover hasc (by decide) (i := 2) rfl
    have hshort : ∀ l s, slender.Neighbour 2 l s → s.entries.length < 2 := by
      rintro l s ⟨hl, hs⟩
      obtain rfl | rfl : l = 1 ∨ l = 3 := by omega
      · cases hs
        decide
      · cases hs
    have hbetween : slender.Between 2 7 := by
      refine ⟨fun l e hl he => ?_, fun e he => by cases he⟩
      obtain rfl : l = 1 := by omega
      cases he
      rfl
    obtain ⟨hmerge, rfl | ⟨hj, -⟩⟩ := hf.merged (by decide) hshort
    · cases hmerge
    · obtain rfl : j = 1 := by omega
      exact ⟨m, es, hm, hmerge, hf.between 7 hbetween⟩

end Node

end BTree
