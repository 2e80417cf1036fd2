import BTree.Node.Check
import BTree.Proofs.Levels

/-!
# What the check of a node accepts

The check compares neighbours only: keys next to each other in a node, its first and last key with
the bounds handed down, the heights of siblings.  Since a separator within the bounds cuts entries
that ascend between them into two such stretches, this comes to the order of all the keys below, and
the check accepts just the nodes whose levels, numbers of entries and order are right, as long as the
degree is `InWord`:

    Ascends lower upper (l ++ e :: r)  ↔  Ascends lower e l ∧ Ascends e upper r     (ascends_append_cons_iff)
    n.check t isRoot lower upper = ok h  ↔
      n.Levelled (Occupied t) h ∧ Ascends lower upper n.toList, and n itself is occupied     (check_eq_ok_iff)
-/

namespace BTree

variable {κ ν : Type}

namespace Node

/-- The numbers of entries that the check allows a node to hold. -/
def Allowed (t : Nat) (isRoot : Bool) (n : Node κ ν) : Prop :=
  n.entries.length ≤ 2 * t - 1 ∧ if isRoot then n.entries ≠ [] else t - 1 ≤ n.entries.length

theorem fits_occupied_iff {t h : Nat} {n : Node κ ν} :
    n.Fits (Occupied t) h ↔ n.Allowed t false ∧ n.Levelled (Occupied t) h := by
  constructor
  · rintro ⟨⟨hmin, hmax⟩, hn⟩
    exact ⟨⟨hmax, hmin⟩, hn⟩
  · rintro ⟨⟨hmax, hmin⟩, hn⟩
    exact ⟨⟨hmin, hmax⟩, hn⟩

end Node

variable [Ord κ]

/-- All of `es` is above the lower bound and below the upper one, as far as there are bounds. -/
structure Within (lower upper : Option κ) (es : List (Entry κ ν)) : Prop where
  lower : ∀ k ∈ lower, ∀ e ∈ es, compare k e.key = .lt
  upper : ∀ k ∈ upper, ∀ e ∈ es, compare k e.key = .gt

/-- The entries ascend, strictly between the bounds. -/
structure Ascends (lower upper : Option κ) (es : List (Entry κ ν)) : Prop where
  ascending : Ascending es
  within : Within lower upper es

/-! ## Order -/

section
variable {lower upper : Option κ} {es l r : List (Entry κ ν)} {e : Entry κ ν}

theorem Within.mono (h : Within lower upper r) (hs : l ⊆ r) : Within lower upper l :=
  ⟨fun k hk e he => h.lower k hk e (hs he), fun k hk e he => h.upper k hk e (hs he)⟩

theorem ascends_unbounded_iff : Ascends none none es ↔ Ascending es :=
  ⟨Ascends.ascending, fun h => ⟨h, by simp, by simp⟩⟩

variable [Std.TransOrd κ]

/-- Keys ascend if each is below the next. -/
theorem ascending_keys_iff : ascending (es.map Entry.key) = true ↔ Ascending es := by
  induction es with
  | nil => exact ⟨fun _ => ascending_nil, fun _ => rfl⟩
  | cons a es ih =>
    cases es with
    | nil => exact ⟨fun _ => ascending_cons.2 ⟨by simp, ascending_nil⟩, fun _ => rfl⟩
    | cons b es =>
      rw [List.map_cons, List.map_cons, ascending, ← List.map_cons, Bool.and_eq_true, ih,
        Ordering.isLT_iff_eq_lt]
      constructor
      · rintro ⟨hab, hes⟩
        exact ascending_cons.2 ⟨above_cons hes hab, hes⟩
      · intro h
        obtain ⟨ha, hes⟩ := ascending_cons.1 h
        exact ⟨ha b List.mem_cons_self, hes⟩

/-- Ascending entries lie within bounds if the first and the last do. -/
theorem within_iff_ends (hasc : Ascending es) :
    Within lower upper es ↔
      (∀ k ∈ lower, ∀ e ∈ es.head?, compare k e.key = .lt) ∧
        ∀ k ∈ upper, ∀ e ∈ es.getLast?, compare k e.key = .gt := by
  constructor
  · intro h
    refine ⟨fun k hk e he => ?_, fun k hk e he => ?_⟩
    · exact h.lower k hk e (List.mem_of_head? he)
    · exact h.upper k hk e (List.mem_of_getLast? he)
  · rintro ⟨hlower, hupper⟩
    refine ⟨fun k hk => ?_, fun k hk => ?_⟩
    · cases es with
      | nil => simp
      | cons a es => exact above_cons hasc (hlower k hk a rfl)
    · rcases List.eq_nil_or_concat es with rfl | ⟨es, b, rfl⟩
      · simp
      · rw [List.concat_eq_append] at hasc hupper ⊢
        have hb : compare k b.key = .gt := hupper k hk b List.getLast?_concat
        intro a ha
        exact Std.OrientedCmp.gt_of_lt (below_concat hasc (Std.OrientedCmp.lt_of_gt hb) a ha)

/-- A separator within the bounds cuts what ascends between them in two. -/
theorem ascends_append_cons_iff (he : Within lower upper [e]) :
    Ascends lower upper (l ++ e :: r) ↔
      Ascends lower (some e.key) l ∧ Ascends (some e.key) upper r := by
  have hlower : ∀ k ∈ lower, compare k e.key = .lt :=
    fun k hk => he.lower k hk e List.mem_cons_self
  have hupper : ∀ k ∈ upper, compare k e.key = .gt :=
    fun k hk => he.upper k hk e List.mem_cons_self
  constructor
  · rintro ⟨hasc, hw⟩
    obtain ⟨hl, her, hbetween⟩ := ascending_append.1 hasc
    obtain ⟨hr, hasc⟩ := ascending_cons.1 her
    refine ⟨⟨hl, fun k hk a ha => ?_, fun k hk a ha => ?_⟩,
      ⟨hasc, fun k hk b hb => ?_, fun k hk b hb => ?_⟩⟩
    · exact hw.lower k hk a (List.mem_append_left _ ha)
    · obtain rfl : e.key = k := Option.some.inj hk
      exact Std.OrientedCmp.gt_of_lt (hbetween a ha e List.mem_cons_self)
    · obtain rfl : e.key = k := Option.some.inj hk
      exact hr b hb
    · exact hw.upper k hk b (List.mem_append_right _ (List.mem_cons_of_mem _ hb))
  · rintro ⟨⟨hl, hlw⟩, hr, hrw⟩
    have hle : ∀ a ∈ l, compare a.key e.key = .lt :=
      fun a ha => Std.OrientedCmp.lt_of_gt (hlw.upper e.key rfl a ha)
    have her : ∀ b ∈ r, compare e.key b.key = .lt := fun b hb => hrw.lower e.key rfl b hb
    refine ⟨ascending_append.2 ⟨hl, ascending_cons.2 ⟨her, hr⟩, fun a ha b hb => ?_⟩,
      fun k hk a ha => ?_, fun k hk a ha => ?_⟩
    · rcases List.mem_cons.1 hb with rfl | hb
      · exact hle a ha
      · exact Std.TransCmp.lt_trans (hle a ha) (her b hb)
    · rcases List.mem_append.1 ha with ha | ha
      · exact hlw.lower k hk a ha
      · exact above_cons (ascending_cons.2 ⟨her, hr⟩) (hlower k hk) a ha
    · rcases List.mem_append.1 ha with ha | ha
      · exact Std.TransCmp.gt_trans (hupper k hk) (hlw.upper e.key rfl a ha)
      · rcases List.mem_cons.1 ha with rfl | ha
        · exact hupper k hk
        · exact hrw.upper k hk a ha

end

/-! ## Checks -/

namespace Node

variable {t : Nat} {isRoot : Bool} {lower upper : Option κ}

theorem require_eq_ok_iff {holds : Bool} {d : Defect} :
    require holds d = .ok () ↔ holds = true := by
  cases holds <;> simp [require]

theorem require_bind_eq_ok_iff {α : Type} {holds : Bool} {d : Defect}
    {f : Unit → Except Fault α} {a : α} :
    (require holds d >>= f) = .ok a ↔ holds = true ∧ f () = .ok a := by
  cases holds <;> simp [require, bind, Except.bind]

/-- The children are checked one after another, each with the separators around it. -/
theorem checkChildren_cons_eq_ok_iff {c : Node κ ν} {cs : List (Node κ ν)} {es : List (Entry κ ν)}
    {height o : Option Nat} :
    checkChildren t lower upper es height (c :: cs) = .ok o ↔
      ∃ h, c.check t false lower ((es.head?.map Entry.key).or upper) = .ok h ∧
        (∀ g ∈ height, g = h) ∧
        checkChildren t ((es.head?.map Entry.key).or lower) upper es.tail (some h) cs = .ok o := by
  simp only [checkChildren, bind_eq_ok_iff (x := check ..), require_bind_eq_ok_iff,
    Option.all_eq_true, decide_eq_true_iff, Option.mem_def]

theorem check_eq_ok_iff_children {es : List (Entry κ ν)} {cs : List (Node κ ν)} {h : Nat} :
    (⟨es, cs⟩ : Node κ ν).check t isRoot lower upper = .ok h ↔
      (⟨es, cs⟩ : Node κ ν).checkEntries t isRoot lower upper = .ok () ∧
        ∃ o, checkChildren t lower upper es none cs = .ok o ∧ o.getD 0 + 1 = h := by
  rw [check, bind_eq_ok_iff]
  simp only [bind_eq_ok_iff, pure, Except.pure, Except.ok.injEq]
  exact ⟨fun ⟨_, h⟩ => h, fun h => ⟨(), h⟩⟩

variable [Std.TransOrd κ]

theorem checkEntries_eq_ok_iff (ht : 1 ≤ t) (hw : InWord t) {n : Node κ ν} :
    n.checkEntries t isRoot lower upper = .ok () ↔
      n.Allowed t isRoot ∧ (n.children = [] ∨ n.children.length = n.entries.length + 1) ∧
        Ascends lower upper n.entries := by
  have hshape : (n.isLeaf || decide (n.children.length = n.entries.length + 1)) = true ↔
      n.children = [] ∨ n.children.length = n.entries.length + 1 := by
    simp [isLeaf]
  have hlower : (lower.all fun k => (n.entries.head?.map Entry.key).all fun a =>
      (compare k a).isLT) = true ↔
      ∀ k ∈ lower, ∀ e ∈ n.entries.head?, compare k e.key = .lt := by
    simp [Option.all_eq_true]
  have hupper : (upper.all fun k => (n.entries.getLast?.map Entry.key).all fun b =>
      (compare k b).isGT) = true ↔
      ∀ k ∈ upper, ∀ e ∈ n.entries.getLast?, compare k e.key = .gt := by
    simp [Option.all_eq_true]
  have hends : Ascends lower upper n.entries ↔ Ascending n.entries ∧
      (∀ k ∈ lower, ∀ e ∈ n.entries.head?, compare k e.key = .lt) ∧
        ∀ k ∈ upper, ∀ e ∈ n.entries.getLast?, compare k e.key = .gt := by
    constructor
    · rintro ⟨hasc, hw⟩
      exact ⟨hasc, (within_iff_ends hasc).1 hw⟩
    · rintro ⟨hasc, hw⟩
      exact ⟨hasc, (within_iff_ends hasc).2 hw⟩
  have hmin : decide (t ≤ n.entries.length + 1) = true ↔ t - 1 ≤ n.entries.length := by
    rw [decide_eq_true_iff]
    omega
  unfold checkEntries
  rw [hends, Allowed, mostEntries_eq_ok ht hw, bind_eq_ok_iff]
  simp only [Except.ok.injEq, exists_eq_left']
  cases isRoot with
  | true =>
    simp only [if_true, require_bind_eq_ok_iff, require_eq_ok_iff, hshape, hlower, hupper,
      ascending_keys_iff, decide_eq_true_iff, and_assoc, Bool.not_eq_true',
      List.isEmpty_eq_false_iff, Ne]
  | false =>
    simp only [Bool.false_eq_true, if_false, require_bind_eq_ok_iff, require_eq_ok_iff, hshape,
      hlower, hupper, ascending_keys_iff, hmin, decide_eq_true_iff, and_assoc]

/-- Children that are checked each between the entries around it are checked together: they have to be
of one height, and to ascend with the entries between them. -/
theorem checkChildren_eq_ok_iff {es : List (Entry κ ν)} {cs : List (Node κ ν)}
    {height o : Option Nat} (hlen : cs.length = es.length + 1)
    (hcs : ∀ c ∈ cs, ∀ lower upper h, c.check t false lower upper = .ok h ↔
      c.Fits (Occupied t) h ∧ Ascends lower upper c.toList)
    (hes : Ascends lower upper es) :
    checkChildren t lower upper es height cs = .ok o ↔
      ∃ h, o = some h ∧ (∀ g ∈ height, g = h) ∧ (∀ c ∈ cs, c.Fits (Occupied t) h) ∧
        Ascends lower upper (weave es (cs.map toList)) := by
  induction cs generalizing lower es height with
  | nil => simp at hlen
  | cons c cs ih =>
    have hc := hcs c List.mem_cons_self
    rw [checkChildren_cons_eq_ok_iff]
    cases es with
    | nil =>
      -- the last child lies between the last separator and the upper bound of the node
      obtain rfl : cs = [] := List.eq_nil_of_length_eq_zero (by simpa using hlen)
      simp only [List.head?_nil, Option.map_none, Option.none_or, hc, checkChildren, pure,
        Except.pure, Except.ok.injEq]
      constructor
      · rintro ⟨h, ⟨hfits, hasc⟩, hheight, rfl⟩
        exact ⟨h, rfl, hheight, by simpa using hfits, hasc⟩
      · rintro ⟨h, rfl, hheight, hfits, hasc⟩
        exact ⟨h, ⟨hfits c List.mem_cons_self, hasc⟩, hheight, rfl⟩
    | cons e es =>
      have he : Within lower upper [e] := hes.within.mono (by simp)
      obtain ⟨-, hright⟩ := (ascends_append_cons_iff (l := []) he).1 hes
      have hrest (h : Nat) := @ih (some e.key) es (some h) (by simpa using hlen)
        (fun d hd => hcs d (List.mem_cons_of_mem _ hd)) hright
      simp only [List.head?_cons, Option.map_some, Option.some_or, List.tail_cons, hc, hrest,
        List.map_cons, cons_weave_cons, ascends_append_cons_iff he]
      constructor
      · rintro ⟨g, ⟨hfits, hleft⟩, hheight, h, rfl, hgh, hcs, hright⟩
        obtain rfl : g = h := hgh g rfl
        exact ⟨g, rfl, hheight, List.forall_mem_cons.2 ⟨hfits, hcs⟩, hleft, hright⟩
      · rintro ⟨h, rfl, hheight, hfits, hleft, hright⟩
        obtain ⟨hc, hcs⟩ := List.forall_mem_cons.1 hfits
        exact ⟨h, ⟨hc, hleft⟩, hheight, h, rfl, by simp, hcs, hright⟩

/-- The check answers the number of levels of a node just if all below it is in order, and its entries
are neither too few nor too many. -/
theorem check_eq_ok_iff (ht : 1 ≤ t) (hw : InWord t) {n : Node κ ν} {h : Nat} :
    n.check t isRoot lower upper = .ok h ↔
      n.Allowed t isRoot ∧ n.Levelled (Occupied t) h ∧ Ascends lower upper n.toList := by
  induction n using children_induction generalizing isRoot lower upper h with
  | step n ih =>
    obtain ⟨es, cs⟩ := n
    have hchild : ∀ c ∈ cs, ∀ lower upper h, c.check t false lower upper = .ok h ↔
        c.Fits (Occupied t) h ∧ Ascends lower upper c.toList := by
      intro c hc lower upper h
      rw [ih c hc, fits_occupied_iff, and_assoc]
    rw [check_eq_ok_iff_children, checkEntries_eq_ok_iff ht hw]
    constructor
    · rintro ⟨⟨hallowed, hshape, hes⟩, o, hbelow, rfl⟩
      refine ⟨hallowed, ?_⟩
      rcases hshape with hnil | hlen
      · obtain rfl : cs = [] := hnil
        obtain rfl : none = o := Except.ok.inj hbelow
        exact ⟨.leaf es, by rwa [toList_childless]⟩
      · obtain ⟨g, rfl, -, hfits, hasc⟩ := (checkChildren_eq_ok_iff hlen hchild hes).1 hbelow
        have hne : cs ≠ [] := List.ne_nil_of_length_eq_add_one hlen
        obtain ⟨g, rfl⟩ := (hfits _ (List.head_mem hne)).levelled.exists_height
        exact ⟨levelled_add_two_iff.2 ⟨hlen, hfits⟩, by rwa [toList_eq]⟩
    · rintro ⟨hallowed, hn, hasc⟩
      have hsub : es ⊆ toList ⟨es, cs⟩ := (entries_sublist ⟨es, cs⟩).subset
      have hes : Ascends lower upper es :=
        ⟨ascending_entries (n := ⟨es, cs⟩) hasc.ascending, hasc.within.mono hsub⟩
      rcases hn.cases with ⟨rfl, hnil⟩ | ⟨g, rfl, hlen, hfits⟩
      · obtain rfl : cs = [] := hnil
        exact ⟨⟨hallowed, .inl rfl, hes⟩, none, rfl, rfl⟩
      · rw [toList_eq] at hasc
        refine ⟨⟨hallowed, .inr hlen, hes⟩, some (g + 1), ?_, rfl⟩
        exact (checkChildren_eq_ok_iff hlen hchild hes).2 ⟨g + 1, rfl, by simp, hfits, hasc⟩

end Node

end BTree
