import BTree.Proofs.History
import BTree.Tree.Equality
import Mathlib.Data.List.Forall2

/-!
# Equality and lookups

Equal trees hold the same entries in the same order, where a key may be spelled in another way.
Since the entries of a sound tree ascend, this is to say that the two trees agree in all lookups, and
since an update is decided by what the entries are, updates of equal trees give equal answers and
trees:

    s == t  ↔  List.Forall₂ Entry.Same s.toList t.toList           (Sound.beq_iff)
            ↔  ∀ k, s.get? k == t.get? k                           (Sound.beq_iff_get?)
    List.Forall₂ Entry.Same es fs  →  the updates of es and fs are the same    (update_congr)
-/

namespace BTree

variable {α κ ν : Type}

/-! ## Lists item by item -/

namespace End

variable {R : α → α → Prop} {as bs : List α}

theorem peek?_congr (s : End) (h : List.Forall₂ R as bs) :
    Option.Rel R (s.peek? as) (s.peek? bs) := by
  have hhead {as bs : List α} (h : List.Forall₂ R as bs) : Option.Rel R as.head? bs.head? := by
    cases h with
    | nil => exact .none
    | cons hab _ => exact .some hab
  cases s with
  | front => exact hhead h
  | back =>
    rw [peek?, peek?, List.getLast?_eq_head?_reverse, List.getLast?_eq_head?_reverse]
    exact hhead (List.forall₂_reverse_iff.2 h)

theorem rest_congr (s : End) (h : List.Forall₂ R as bs) :
    List.Forall₂ R (s.rest as) (s.rest bs) := by
  cases s with
  | front =>
    rw [rest, rest, ← List.drop_one, ← List.drop_one]
    exact List.forall₂_drop 1 h
  | back =>
    rw [rest, rest, List.dropLast_eq_take, List.dropLast_eq_take, h.length_eq]
    exact List.forall₂_take _ h

end End

variable [Ord κ] [BEq ν]

/-! ## The same entries -/

/-- The entries hold equal keys, in any spelling, and equal values. -/
structure Entry.Same (a b : Entry κ ν) : Prop where
  key : compare a.key b.key = .eq
  value : (a.value == b.value) = true

/-- The answers tell equal values, or the same entries. -/
inductive Answer.Same : Answer κ ν → Answer κ ν → Prop
  | value {v w : Option ν} (h : (v == w) = true) : Same (.value v) (.value w)
  | entry {a b : Option (Entry κ ν)} (h : Option.Rel Entry.Same a b) : Same (.entry a) (.entry b)
  | nothing : Same .nothing .nothing

namespace Entry.Same

variable {a b c : Entry κ ν}

theorem refl [Std.TransOrd κ] [ReflBEq ν] (a : Entry κ ν) : a.Same a :=
  ⟨Std.ReflCmp.compare_self, BEq.rfl⟩

theorem symm [Std.TransOrd κ] [EquivBEq ν] (h : a.Same b) : b.Same a :=
  ⟨Std.OrientedCmp.eq_symm h.key, BEq.symm h.value⟩

theorem trans [Std.TransOrd κ] [EquivBEq ν] (h : a.Same b) (h' : b.Same c) : a.Same c :=
  ⟨Std.TransCmp.eq_trans h.key h'.key, BEq.trans h.value h'.value⟩

theorem trans_forall₂ [Std.TransOrd κ] [EquivBEq ν] {es fs gs : List (Entry κ ν)}
    (h : List.Forall₂ Entry.Same es fs) (h' : List.Forall₂ Entry.Same fs gs) :
    List.Forall₂ Entry.Same es gs := by
  induction h generalizing gs with
  | nil => exact h'
  | cons hef _ ih =>
    obtain ⟨g, gs, hfg, hrest, rfl⟩ := List.forall₂_cons_left_iff.1 h'
    exact .cons (hef.trans hfg) (ih hrest)

/-- No key can tell the two apart. -/
theorem compare_eq [Std.TransOrd κ] (h : a.Same b) (k : κ) : compare k a.key = compare k b.key :=
  Std.TransCmp.congr_right h.key

theorem isEqv_iff {es fs : List (Entry κ ν)} :
    (es.isEqv fs fun a b => (compare a b).isEq && a.value == b.value) = true ↔
      List.Forall₂ Entry.Same es fs := by
  induction es generalizing fs with
  | nil => cases fs <;> simp [List.isEqv]
  | cons e es ih =>
    cases fs with
    | nil => simp [List.isEqv]
    | cons f fs =>
      rw [List.isEqv, Bool.and_eq_true, Bool.and_eq_true, ih, List.forall₂_cons]
      constructor
      · rintro ⟨⟨hkey, hvalue⟩, hrest⟩
        exact ⟨⟨Ordering.isEq_iff_eq_eq.1 hkey, hvalue⟩, hrest⟩
      · rintro ⟨⟨hkey, hvalue⟩, hrest⟩
        exact ⟨⟨Ordering.isEq_iff_eq_eq.2 hkey, hvalue⟩, hrest⟩

end Entry.Same

namespace Association

variable {es fs : List (Entry κ ν)}

/-! ## Operations on lists of the same entries -/

theorem map_value_congr {a b : Option (Entry κ ν)} (h : Option.Rel Entry.Same a b) :
    (a.map Entry.value == b.map Entry.value) = true := by
  cases h with
  | none => rfl
  | some hab => exact hab.value

theorem isSome_congr {a b : Option (Entry κ ν)} (h : Option.Rel Entry.Same a b) :
    a.isSome = b.isSome := by
  cases h <;> rfl

variable [Std.TransOrd κ]

theorem find?_congr (k : κ) (h : List.Forall₂ Entry.Same es fs) :
    Option.Rel Entry.Same (find? k es) (find? k fs) := by
  induction h with
  | nil => exact .none
  | @cons e f es fs hef _ ih =>
    have hk : compare k e.key = compare k f.key := hef.compare_eq k
    by_cases he : compare k e.key = .eq
    · rw [find?_cons_of_eq he, find?_cons_of_eq (hk ▸ he)]
      exact .some hef
    · rw [find?_cons_of_ne he, find?_cons_of_ne (hk ▸ he)]
      exact ih

theorem erase_congr (k : κ) (h : List.Forall₂ Entry.Same es fs) :
    List.Forall₂ Entry.Same (erase k es) (erase k fs) := by
  induction h with
  | nil => exact .nil
  | @cons e f es fs hef hrest ih =>
    have hk : compare k e.key = compare k f.key := hef.compare_eq k
    by_cases he : compare k e.key = .eq
    · rw [erase_cons_of_eq he, erase_cons_of_eq (hk ▸ he)]
      exact hrest
    · rw [erase_cons_of_ne he, erase_cons_of_ne (hk ▸ he)]
      exact .cons hef ih

section
variable [ReflBEq ν]

theorem insert_congr (k : κ) (v : ν) (h : List.Forall₂ Entry.Same es fs) :
    List.Forall₂ Entry.Same (insert k v es) (insert k v fs) := by
  induction h with
  | nil => exact .cons (.refl _) .nil
  | @cons e f es fs hef hrest ih =>
    rw [insert, insert, ← hef.compare_eq k]
    cases compare k e.key with
    | lt => exact .cons (.refl _) (.cons hef hrest)
    | eq => exact .cons ⟨hef.key, BEq.rfl⟩ hrest
    | gt => exact .cons hef ih

theorem insertMany_congr (ps : List (κ × ν)) (h : List.Forall₂ Entry.Same es fs) :
    List.Forall₂ Entry.Same (insertMany ps es) (insertMany ps fs) := by
  induction ps generalizing es fs with
  | nil => exact h
  | cons p ps ih => exact ih (insert_congr p.1 p.2 h)

/-- An update cannot tell lists of the same entries apart. -/
theorem update_congr (u : Update κ ν) (h : List.Forall₂ Entry.Same es fs) :
    (update es u).1.Same (update fs u).1 ∧
      List.Forall₂ Entry.Same (update es u).2 (update fs u).2 := by
  cases u with
  | insert k v => exact ⟨.value (map_value_congr (find?_congr k h)), insert_congr k v h⟩
  | store k v =>
    have hfind := find?_congr k h
    refine ⟨.value (map_value_congr hfind), ?_⟩
    simp only [update, isSome_congr hfind]
    split
    · exact insert_congr k v h
    · exact h
  | remove k => exact ⟨.value (map_value_congr (find?_congr k h)), erase_congr k h⟩
  | removeEntry k => exact ⟨.entry (find?_congr k h), erase_congr k h⟩
  | pop e => exact ⟨.entry (e.peek?_congr h), e.rest_congr h⟩
  | clear => exact ⟨.nothing, .nil⟩
  | extend ps => exact ⟨.nothing, insertMany_congr ps h⟩

theorem run_congr (us : List (Update κ ν)) (h : List.Forall₂ Entry.Same es fs) :
    List.Forall₂ (fun x y => x.1.Same y.1 ∧ List.Forall₂ Entry.Same x.2 y.2)
      (run es us) (run fs us) := by
  induction us generalizing es fs with
  | nil => exact .nil
  | cons u us ih =>
    have hstep := update_congr u h
    exact .cons hstep (ih hstep.2)

end

/-! ## Extensionality -/

/-- Ascending lists in which all keys find equal values hold the same entries. -/
theorem forall₂_of_find? (hes : Ascending es) (hfs : Ascending fs)
    (h : ∀ k, ((find? k es).map Entry.value == (find? k fs).map Entry.value) = true) :
    List.Forall₂ Entry.Same es fs := by
  induction es generalizing fs with
  | nil =>
    cases fs with
    | nil => exact .nil
    | cons f fs =>
      have hf := h f.key
      rw [find?_key_cons] at hf
      cases hf
  | cons e es ih =>
    have he := h e.key
    rw [find?_key_cons] at he
    cases fs with
    | nil => cases he
    | cons f fs =>
      -- the lesser one of the two heads would be found in its own list only
      have hef : compare e.key f.key = .eq := by
        cases hlt : compare e.key f.key with
        | lt =>
          rw [find?_eq_none_of_above (above_cons hfs hlt)] at he
          cases he
        | eq => rfl
        | gt =>
          have hf := h f.key
          rw [find?_eq_none_of_above (above_cons hes (Std.OrientedCmp.lt_of_gt hlt)),
            find?_key_cons] at hf
          cases hf
      rw [find?_cons_of_eq hef] at he
      refine .cons ⟨hef, he⟩ (ih (ascending_cons.1 hes).2 (ascending_cons.1 hfs).2 fun k => ?_)
      have hk : compare k e.key = compare k f.key := Std.TransCmp.congr_right hef
      by_cases hke : compare k e.key = .eq
      · have hbe : Brackets [] es k := brackets_of_eq hes hke
        have hbf : Brackets [] fs k := brackets_of_eq hfs (hk ▸ hke)
        rw [find?_eq_none_of_above hbe.above, find?_eq_none_of_above hbf.above]
        rfl
      · have hrest := h k
        rwa [find?_cons_of_ne hke, find?_cons_of_ne (hk ▸ hke)] at hrest

end Association

namespace Tree

/-! ## Equal trees -/

/-- Trees are equal when their sizes are and they hold the same entries. -/
theorem beq_iff_entries {s t : Tree κ ν} :
    (s == t) = true ↔ s.size = t.size ∧ List.Forall₂ Entry.Same s.entries t.entries := by
  show beq s t = true ↔ _
  rw [beq, Bool.and_eq_true, beq_iff_eq, Entry.Same.isEqv_iff]

variable {s t : Tree κ ν}

theorem Sound.beq_iff (hs : s.Sound) (ht : t.Sound) :
    (s == t) = true ↔ List.Forall₂ Entry.Same s.toList t.toList := by
  rw [beq_iff_entries, hs.entries_eq, ht.entries_eq, hs.size_eq_length, ht.size_eq_length]
  exact ⟨And.right, fun h => ⟨h.length_eq, h⟩⟩

variable [Std.TransOrd κ]

/-- Equality is an equivalence of all trees, sound or not, if it is one of the values. -/
theorem equivalence_beq [EquivBEq ν] : Equivalence fun s t : Tree κ ν => (s == t) = true where
  refl s := beq_iff_entries.2 ⟨rfl, List.forall₂_same.2 fun e _ => .refl e⟩
  symm h := by
    obtain ⟨hsize, hentries⟩ := beq_iff_entries.1 h
    exact beq_iff_entries.2 ⟨hsize.symm, (hentries.imp fun _ _ => Entry.Same.symm).flip⟩
  trans h h' := by
    obtain ⟨hsize, hentries⟩ := beq_iff_entries.1 h
    obtain ⟨hsize', hentries'⟩ := beq_iff_entries.1 h'
    exact beq_iff_entries.2 ⟨hsize.trans hsize', Entry.Same.trans_forall₂ hentries hentries'⟩

theorem Sound.beq_iff_get? (hs : s.Sound) (ht : t.Sound) :
    (s == t) = true ↔ ∀ k, (s.get? k == t.get? k) = true := by
  have hget (k : κ) : (s.get? k == t.get? k) =
      ((Association.find? k s.toList).map Entry.value ==
        (Association.find? k t.toList).map Entry.value) := by
    rw [get?, get?, hs.entry?_eq, ht.entry?_eq]
  rw [hs.beq_iff ht]
  constructor
  · intro h k
    rw [hget]
    exact Association.map_value_congr (Association.find?_congr k h)
  · intro h
    exact Association.forall₂_of_find? hs.ascending ht.ascending fun k => hget k ▸ h k

/-- Updates of equal trees give the same answers and equal trees, step by step. -/
theorem Sound.run_congr [ReflBEq ν] {us : List (Update κ ν)}
    {ss rs : List (Answer κ ν × Tree κ ν)} {es fs : List Event} (hs : s.Sound) (ht : t.Sound)
    (h : (s == t) = true) (hrun : s.run us = .done ss es) (hrun' : t.run us = .done rs fs) :
    List.Forall₂ (fun x y => x.1.Same y.1 ∧ (x.2 == y.2) = true) ss rs := by
  obtain ⟨hmap, hall⟩ := hs.of_run hrun
  obtain ⟨hmap', hall'⟩ := ht.of_run hrun'
  have hlists := Association.run_congr us ((hs.beq_iff ht).1 h)
  rw [← hmap, ← hmap', List.forall₂_map_left_iff, List.forall₂_map_right_iff] at hlists
  rw [List.forall₂_iff_zip] at hlists ⊢
  refine ⟨hlists.1, fun {x y} hxy => ?_⟩
  obtain ⟨hanswer, hlist⟩ := hlists.2 hxy
  obtain ⟨hx, hy⟩ := List.of_mem_zip hxy
  exact ⟨hanswer, ((hall x hx).1.beq_iff (hall' y hy).1).2 hlist⟩

/-- Two maps are equal just if no lookup tells them apart, whatever their degrees, histories and
shapes; equality is an equivalence; and the same updates of equal maps answer the same and leave equal
maps.  They end as long as the doubles of both degrees fit a word. -/
theorem Reachable.equality_laws (hs : s.Reachable) (ht : t.Reachable) :
    ((s == t) = true ↔ ∀ k, (s.get? k == t.get? k) = true) ∧
    (EquivBEq ν → Equivalence fun s t : Tree κ ν => (s == t) = true) ∧
    (ReflBEq ν → (s == t) = true → ∀ us : List (Update κ ν),
      (InWord s.degree.least → InWord t.degree.least →
        ∃ ss es rs fs, s.run us = .done ss es ∧ t.run us = .done rs fs) ∧
      ∀ ss es rs fs, s.run us = .done ss es → t.run us = .done rs fs →
        List.Forall₂ (fun x y => x.1.Same y.1 ∧ (x.2 == y.2) = true) ss rs) := by
  refine ⟨hs.sound.beq_iff_get? ht.sound, fun _ => equivalence_beq, fun _ h us => ⟨?_, ?_⟩⟩
  · intro hsw htw
    obtain ⟨ss, es, hrun⟩ := exists_run hs.sound hsw us
    obtain ⟨rs, fs, hrun'⟩ := exists_run ht.sound htw us
    exact ⟨ss, es, rs, fs, hrun, hrun'⟩
  · intro ss es rs fs
    exact hs.sound.run_congr ht.sound h

/-- Four entries stand on two levels of one tree and in a leaf of the other; the trees are equal,
each with its own spelling of the keys, and go on being equal. -/
theorem equality_laws_caseless :
    ∃ s t : Tree Caseless Nat, s.Reachable ∧ t.Reachable ∧ s.degree.least = 2 ∧
      t.degree.least = 6 ∧ s.size = 4 ∧ (s == t) = true ∧
      (∀ k, (s.get? k == t.get? k) = true) ∧
      ∃ ss es rs fs,
        s.run [.insert ⟨"B"⟩ 7, .removeEntry ⟨"a"⟩, .pop .back, .clear] = .done ss es ∧
        t.run [.insert ⟨"B"⟩ 7, .removeEntry ⟨"a"⟩, .pop .back, .clear] = .done rs fs ∧
        List.Forall₂ (fun x y => x.1.Same y.1 ∧ (x.2 == y.2) = true) ss rs := by
  obtain ⟨r, es, heq, hsound, hdegree, hlist⟩ := update_spec (.empty ⟨2, by decide⟩) (by decide)
    (.extend [((⟨"e"⟩ : Caseless), 5), (⟨"d"⟩, 4), (⟨"c"⟩, 3), (⟨"b"⟩, 2), (⟨"a"⟩, 1)])
  obtain ⟨s, fs, heq', hsound', hdegree', hlist'⟩ := update_spec hsound (hdegree ▸ by decide)
    (.pop .back)
  obtain ⟨t, gs, heq'', hsound'', hdegree'', hlist''⟩ := update_spec (.empty ⟨6, by decide⟩)
    (by decide) (.extend [((⟨"D"⟩ : Caseless), 4), (⟨"C"⟩, 3), (⟨"b"⟩, 2), (⟨"A"⟩, 1)])
  have hr : r.Reachable := .update (.empty _) ⟨es, heq⟩
  have hs : s.Reachable := .update hr ⟨fs, heq'⟩
  have ht : t.Reachable := .update (.empty _) ⟨gs, heq''⟩
  have hde : compare (⟨"d"⟩ : Caseless) ⟨"e"⟩ = .lt :=
    (Caseless.compare_eq (a := "d") (b := "e") (by decide) (by decide)).trans (by decide)
  have hcd : compare (⟨"c"⟩ : Caseless) ⟨"d"⟩ = .lt :=
    (Caseless.compare_eq (a := "c") (b := "d") (by decide) (by decide)).trans (by decide)
  have hbc : compare (⟨"b"⟩ : Caseless) ⟨"c"⟩ = .lt :=
    (Caseless.compare_eq (a := "b") (b := "c") (by decide) (by decide)).trans (by decide)
  have hab : compare (⟨"a"⟩ : Caseless) ⟨"b"⟩ = .lt :=
    (Caseless.compare_eq (a := "a") (b := "b") (by decide) (by decide)).trans (by decide)
  have haA : compare (⟨"a"⟩ : Caseless) ⟨"A"⟩ = .eq :=
    (Caseless.compare_eq (a := "a") (b := "a") (by decide) (by decide)).trans (by decide)
  have hcC : compare (⟨"c"⟩ : Caseless) ⟨"C"⟩ = .eq :=
    (Caseless.compare_eq (a := "c") (b := "c") (by decide) (by decide)).trans (by decide)
  have hdD : compare (⟨"d"⟩ : Caseless) ⟨"D"⟩ = .eq :=
    (Caseless.compare_eq (a := "d") (b := "d") (by decide) (by decide)).trans (by decide)
  have hCD : compare (⟨"C"⟩ : Caseless) ⟨"D"⟩ = .lt :=
    (Caseless.compare_eq (a := "c") (b := "d") (by decide) (by decide)).trans (by decide)
  have hbC : compare (⟨"b"⟩ : Caseless) ⟨"C"⟩ = .lt :=
    (Caseless.compare_eq (a := "b") (b := "c") (by decide) (by decide)).trans (by decide)
  have hAb : compare (⟨"A"⟩ : Caseless) ⟨"b"⟩ = .lt :=
    (Caseless.compare_eq (a := "a") (b := "b") (by decide) (by decide)).trans (by decide)
  have hslist : s.toList = [⟨⟨"a"⟩, 1⟩, ⟨⟨"b"⟩, 2⟩, ⟨⟨"c"⟩, 3⟩, ⟨⟨"d"⟩, 4⟩] := by
    rw [hlist', hlist]
    simp [Association.update, Association.insertMany, Association.insert, Tree.toList, empty,
      hde, hcd, hbc, hab, End.rest]
  have htlist : t.toList = [⟨⟨"A"⟩, 1⟩, ⟨⟨"b"⟩, 2⟩, ⟨⟨"C"⟩, 3⟩, ⟨⟨"D"⟩, 4⟩] := by
    rw [hlist'']
    simp [Association.update, Association.insertMany, Association.insert, Tree.toList, empty,
      hCD, hbC, hAb]
  have hst : (s == t) = true := by
    rw [hsound'.beq_iff hsound'', hslist, htlist]
    exact .cons ⟨haA, rfl⟩ (.cons (.refl _) (.cons ⟨hcC, rfl⟩ (.cons ⟨hdD, rfl⟩ .nil)))
  obtain ⟨hget, -, hrun⟩ := Reachable.equality_laws hs ht
  have hstwo : s.degree.least = 2 := by
    rw [hdegree', hdegree]
    rfl
  have htsix : t.degree.least = 6 := by
    rw [hdegree'']
    rfl
  have hsw : InWord s.degree.least := hstwo ▸ by decide
  have htw : InWord t.degree.least := htsix ▸ by decide
  obtain ⟨hends, hsame⟩ := hrun inferInstance hst
    [.insert ⟨"B"⟩ 7, .removeEntry ⟨"a"⟩, .pop .back, .clear]
  obtain ⟨ss, es, rs, fs, hsrun, htrun⟩ := hends hsw htw
  refine ⟨s, t, hs, ht, hstwo, htsix, ?_, hst, hget.1 hst, ss, es, rs, fs, hsrun, htrun,
    hsame ss es rs fs hsrun htrun⟩
  · rw [hsound'.size_eq_length, hslist]
    rfl

end Tree

end BTree
