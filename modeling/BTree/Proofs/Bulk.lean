import BTree.Proofs.RoundTrip
import Mathlib

/-!
# Maps made of many pairs

Pairs inserted one after another gather in classes of equal keys.  A class leaves one entry: its
spelling is that of the first pair of the class, its value that of the last one, wherever the two
stand among the pairs of other classes.  So what is stored depends on each class by itself:

    find? k (insertMany ps []) = summary? (occurrences k ps)              (find?_insertMany)
    ∀ k, occurrences k ps = occurrences k qs  →  the same entries         (bulk_gathers)

The tree that holds the entries does depend on the order in which the pairs come.
-/

namespace BTree

variable {κ ν : Type}

/-! ## Classes of equal keys -/

section
variable [Ord κ]

/-- The pairs whose keys equal `k`, in order. -/
def occurrences (k : κ) (ps : List (κ × ν)) : List (κ × ν) := ps.filter fun p => (compare k p.1).isEq

/-- The key of the first pair with the value of the last. -/
def summary? (ps : List (κ × ν)) : Option (Entry κ ν) :=
  ps.head?.bind fun p => ps.getLast?.map fun q => ⟨p.1, q.2⟩

/-- Keys are the same up to spelling if they compare equal. -/
def equalKeys (κ : Type) [Ord κ] [Std.TransOrd κ] : Setoid κ where
  r a b := compare a b = .eq
  iseqv := ⟨fun _ => Std.ReflCmp.compare_self, Std.OrientedCmp.eq_symm, Std.TransCmp.eq_trans⟩

instance [Std.TransOrd κ] : DecidableEq (Quotient (equalKeys κ)) :=
  have (a b : κ) : Decidable ((equalKeys κ).r a b) := inferInstanceAs (Decidable (compare a b = .eq))
  inferInstance

/-- The classes of the keys that are given. -/
def classes [Std.TransOrd κ] (ks : List κ) : Finset (Quotient (equalKeys κ)) :=
  (ks.map (Quotient.mk (equalKeys κ))).toFinset

end

/-! ## Lemmas -/

theorem summary?_concat (p : κ × ν) (ps : List (κ × ν)) :
    summary? (ps ++ [p]) = some ⟨((summary? ps).map Entry.key).getD p.1, p.2⟩ := by
  cases ps with
  | nil => rfl
  | cons q ps => simp [summary?, List.getLast?_cons]

theorem summary?_eq_none_iff {ps : List (κ × ν)} : summary? ps = none ↔ ps = [] := by
  cases ps with
  | nil => simp [summary?]
  | cons p ps => simp [summary?, List.getLast?_cons]

section
variable [Ord κ] {k : κ} {p q : κ × ν} {ps : List (κ × ν)}

theorem mem_occurrences : p ∈ occurrences k ps ↔ p ∈ ps ∧ compare k p.1 = .eq := by
  simp [occurrences]

/-- Neighbours of unequal keys may change places. -/
theorem occurrences_swap [Std.TransOrd κ] (k : κ) (ps qs : List (κ × ν))
    (h : compare p.1 q.1 ≠ .eq) :
    occurrences k (ps ++ p :: q :: qs) = occurrences k (ps ++ q :: p :: qs) := by
  by_cases hp : compare k p.1 = .eq
  · have hq : compare k q.1 ≠ .eq := by rwa [Std.TransCmp.congr_left hp]
    simp [occurrences, hp, hq]
  · simp [occurrences, hp, List.filter_cons]

variable [Std.TransOrd κ]

theorem occurrences_congr {j : κ} (h : compare k j = .eq) (ps : List (κ × ν)) :
    occurrences k ps = occurrences j ps := by
  unfold occurrences
  congr 1
  funext p
  rw [Std.TransCmp.congr_left h]

theorem mk_eq_mk_iff {a b : κ} :
    Quotient.mk (equalKeys κ) a = Quotient.mk (equalKeys κ) b ↔ compare a b = .eq :=
  Quotient.eq

theorem mem_classes {ks : List κ} :
    Quotient.mk (equalKeys κ) k ∈ classes ks ↔ ∃ j ∈ ks, compare j k = .eq := by
  simp [classes, mk_eq_mk_iff]

end

namespace Association

variable [Ord κ] [Std.TransOrd κ]

/-- Under each key stands what the pairs of its class leave. -/
theorem find?_insertMany (k : κ) (ps : List (κ × ν)) :
    find? k (insertMany ps []) = summary? (occurrences k ps) := by
  -- on the last pair: it brings the value, and the key if there was none
  induction ps using List.reverseRecOn generalizing k with
  | nil => rfl
  | append_singleton ps p ih =>
    have hasc : Ascending (insertMany ps []) := ascending_insertMany ps ascending_nil
    have hinsert : insertMany (ps ++ [p]) [] = insert p.1 p.2 (insertMany ps []) :=
      insertMany_append ps [p] []
    rw [hinsert, find?_insert p.1 k p.2 hasc, ih, ih]
    by_cases hk : compare k p.1 = .eq
    · have hp : occurrences k (ps ++ [p]) = occurrences p.1 ps ++ [p] := by
        rw [← occurrences_congr hk]
        simp [occurrences, hk]
      rw [if_pos hk, hp, summary?_concat]
    · have hp : occurrences k (ps ++ [p]) = occurrences k ps := by simp [occurrences, hk]
      rw [if_neg hk, hp]

/-- Only the order within each class of pairs counts. -/
theorem insertMany_reorder {ps qs : List (κ × ν)}
    (h : ∀ k, occurrences k ps = occurrences k qs) : insertMany ps [] = insertMany qs [] :=
  eq_of_find? (ascending_insertMany ps ascending_nil) (ascending_insertMany qs ascending_nil)
    fun k => by rw [find?_insertMany, find?_insertMany, h]

/-- No two entries share a class. -/
theorem card_classes {es : List (Entry κ ν)} (h : Ascending es) :
    (classes (es.map Entry.key)).card = es.length := by
  have hnodup : ((es.map Entry.key).map (Quotient.mk (equalKeys κ))).Nodup := by
    rw [List.map_map]
    refine List.pairwise_map.2 (h.imp fun {a b} hab heq => ?_)
    have heq : compare a.key b.key = .eq := mk_eq_mk_iff.1 heq
    rw [hab] at heq
    cases heq
  rw [classes, List.toFinset_card_of_nodup hnodup, List.length_map, List.length_map]

/-- Each class of the pairs has an entry, and no other class has one. -/
theorem classes_insertMany (ps : List (κ × ν)) :
    classes ((insertMany ps []).map Entry.key) = classes (ps.map Prod.fst) := by
  ext c
  induction c using Quotient.inductionOn with
  | h k =>
    calc Quotient.mk _ k ∈ classes ((insertMany ps []).map Entry.key)
      _ ↔ find? k (insertMany ps []) ≠ none := by
        simp [mem_classes, find?_eq_none_iff, Std.OrientedCmp.eq_comm (a := k)]
      _ ↔ occurrences k ps ≠ [] := by rw [find?_insertMany, Ne, summary?_eq_none_iff]
      _ ↔ Quotient.mk _ k ∈ classes (ps.map Prod.fst) := by
        simp [mem_classes, occurrences, Std.OrientedCmp.eq_comm (a := k)]

end Association

/-! ## Trees made of pairs -/

namespace Tree

variable [Ord κ] [Std.TransOrd κ] {t : Tree κ ν} {ps : List (κ × ν)}

/-- The tree holds just what the pairs leave: one entry for each class of equal keys, with the
spelling of the first pair of the class and the value of the last, in ascending order. -/
structure Gathers (ps : List (κ × ν)) (t : Tree κ ν) : Prop where
  ascending : Ascending t.entries
  summary_eq : ∀ e ∈ t.entries, summary? (occurrences e.key ps) = some e
  exists_unique : ∀ p ∈ ps, ∃! e, e ∈ t.entries ∧ compare p.1 e.key = .eq
  size_eq : t.size = (classes (ps.map Prod.fst)).card

namespace Gathers

theorem find?_eq (h : t.Gathers ps) (k : κ) :
    Association.find? k t.entries = summary? (occurrences k ps) := by
  cases hfind : Association.find? k t.entries with
  | some e =>
    obtain ⟨hmem, he⟩ := (Association.find?_eq_some_iff h.ascending).1 hfind
    rw [occurrences_congr he, h.summary_eq e hmem]
  | none =>
    have hnil : occurrences k ps = [] := by
      rw [List.eq_nil_iff_forall_not_mem]
      intro p hp
      obtain ⟨hmem, hk⟩ := mem_occurrences.1 hp
      obtain ⟨e, ⟨he, hpe⟩, -⟩ := h.exists_unique p hmem
      exact Association.find?_eq_none_iff.1 hfind e he (Std.TransCmp.eq_trans hk hpe)
    rw [hnil]
    rfl

theorem entries_eq (h : t.Gathers ps) : t.entries = Association.insertMany ps [] :=
  Association.eq_of_find? h.ascending (Association.ascending_insertMany ps ascending_nil)
    fun k => by rw [h.find?_eq, Association.find?_insertMany]

end Gathers

/-- A sound tree gathers the pairs if its entries are those that come of inserting them. -/
theorem Sound.gathers (h : t.Sound) (hlist : t.toList = Association.insertMany ps []) :
    t.Gathers ps := by
  have hasc : Ascending t.entries := h.entries_eq ▸ h.ascending
  have hfind (k : κ) : Association.find? k t.entries = summary? (occurrences k ps) := by
    rw [h.entries_eq, hlist, Association.find?_insertMany]
  have hsummary : ∀ e ∈ t.entries, summary? (occurrences e.key ps) = some e := by
    intro e he
    rw [← hfind, Association.find?_eq_some_iff hasc]
    exact ⟨he, Std.ReflCmp.compare_self⟩
  have hunique : ∀ p ∈ ps, ∃! e, e ∈ t.entries ∧ compare p.1 e.key = .eq := by
    intro p hp
    have hsome : summary? (occurrences p.1 ps) ≠ none := by
      rw [Ne, summary?_eq_none_iff]
      exact List.ne_nil_of_mem (mem_occurrences.2 ⟨hp, Std.ReflCmp.compare_self⟩)
    obtain ⟨e, he⟩ := Option.ne_none_iff_exists'.1 hsome
    have hiff (f : Entry κ ν) := Association.find?_eq_some_iff (k := p.1) (e := f) hasc
    rw [hfind, he] at hiff
    exact ⟨e, (hiff e).1 rfl, fun f hf => (Option.some.inj ((hiff f).2 hf)).symm⟩
  refine ⟨hasc, hsummary, hunique, ?_⟩
  rw [h.size_eq_length, ← Association.card_classes h.ascending, hlist,
    Association.classes_insertMany]

/-- However pairs are loaded into a map, at once into a new one, into an empty one of any degree or
from a text that tells them, the map holds one entry for each class of equal keys, with the spelling
of the first and the value of the last of its pairs.  A map that is extended keeps the spellings it
has.  Loading ends as long as the double of the degree fits a word.  If pairs are put into another
order in which those of equal keys follow each other as before, the entries are the same. -/
theorem bulk_gathers (ps : List (κ × ν)) :
    (∃ t es, ofList ps = .done t es ∧ t.Gathers ps) ∧
    (∀ d, (InWord d.least → ∃ t, ((Tree.empty d).insertMany ps).Yields t) ∧
      ∀ t, ((Tree.empty d).insertMany ps).Yields t → t.degree = d ∧ t.Gathers ps) ∧
    (∀ {σ ρ : Type} (c : Codec κ ν σ ρ) (text : σ), c.read text = (ps, none) →
      ∃ t es, decode c text = .done (.ok t) es ∧ t.Gathers ps) ∧
    (∀ t : Tree κ ν, t.Reachable → (InWord t.degree.least → ∃ s, (t.insertMany ps).Yields s) ∧
      ∀ s, (t.insertMany ps).Yields s → s.Gathers (t.entries.map Entry.toPair ++ ps) ∧
        ∀ e ∈ t.entries, ∃ f ∈ s.entries, f.key = e.key) ∧
    ∀ qs, (∀ k, occurrences k ps = occurrences k qs) →
      ∀ s t : Tree κ ν, s.Gathers ps → t.Gathers qs → s.entries = t.entries := by
  have hlist : ∃ t es, ofList ps = .done t es ∧ t.Gathers ps := by
    obtain ⟨t, es, heq, hsound, -, hlist⟩ := ofList_spec ps
    exact ⟨t, es, heq, hsound.gathers hlist⟩
  refine ⟨hlist, ?_, ?_, ?_, ?_⟩
  · intro d
    refine ⟨fun hw => ?_, fun t ht => ?_⟩
    · obtain ⟨t, es, heq, -⟩ := insertMany_spec (.empty d) hw ps
      exact ⟨t, es, heq⟩
    · obtain ⟨hsound, hdegree, hlist⟩ := (Sound.empty d).of_insertMany ht
      exact ⟨hdegree, hsound.gathers hlist⟩
  · intro _ _ c text htext
    obtain ⟨t, es, heq, ht⟩ := hlist
    refine ⟨t, es ++ [], ?_, ht⟩
    rw [decode, htext]
    simp only [heq, Edit.done_bind]
    rfl
  · intro t h
    refine ⟨fun hw => ?_, fun s hs => ?_⟩
    · obtain ⟨s, es, heq, -⟩ := insertMany_spec h.sound hw ps
      exact ⟨s, es, heq⟩
    · obtain ⟨hsound, -, hs⟩ := h.sound.of_insertMany hs
      -- the map is what its own pairs would make
      have hown : Association.insertMany (t.toList.map Entry.toPair) [] = t.toList := by
        have hasc : Ascending ([] ++ t.toList) := h.sound.ascending
        exact Association.insertMany_toPair hasc
      have hgathers : s.Gathers (t.entries.map Entry.toPair ++ ps) := by
        apply hsound.gathers
        rw [hs, Association.insertMany_append, h.sound.entries_eq, hown]
      refine ⟨hgathers, fun e he => ?_⟩
      rw [h.sound.entries_eq] at he
      rw [hsound.entries_eq, hs]
      exact Association.exists_mem_insertMany ps he
  · intro qs hqs s t hs ht
    rw [hs.entries_eq, ht.entries_eq, Association.insertMany_reorder hqs]

/-- Four pairs of two keys leave two entries, each with the value that came last, however they are
loaded.  Where four keys fill a root, the one that comes last decides on the tree, but not on its
entries. -/
theorem bulk_gathers_of_swaps :
    (∃ s t r : Tree Caseless Scalar,
      (ofList [(⟨"b"⟩, .int 1), (⟨"A"⟩, .int 2), (⟨"B"⟩, .int 3), (⟨"a"⟩, .int 4)]).Yields s ∧
      ((Tree.empty ⟨2, by decide⟩).insertMany
        [(⟨"A"⟩, .int 2), (⟨"b"⟩, .int 1), (⟨"B"⟩, .int 3), (⟨"a"⟩, .int 4)]).Yields t ∧
      (ofJson (Json.writePairs [((⟨"b"⟩ : Caseless), Scalar.int 1), (⟨"A"⟩, .int 2),
        (⟨"B"⟩, .int 3), (⟨"a"⟩, .int 4)])).Yields (.ok r) ∧
      s.entries = [⟨⟨"A"⟩, .int 4⟩, ⟨⟨"b"⟩, .int 3⟩] ∧ t.entries = s.entries ∧
      r.entries = s.entries) ∧
    ∃ s t : Tree Nat Char,
      ((Tree.empty ⟨2, by decide⟩).insertMany [(2, 'b'), (3, 'c'), (1, 'a'), (4, 'd')]).Yields s ∧
      ((Tree.empty ⟨2, by decide⟩).insertMany [(2, 'b'), (3, 'c'), (4, 'd'), (1, 'a')]).Yields t ∧
      s.entries = t.entries ∧
      s.root = some (.binary (.leaf ⟨1, 'a'⟩) ⟨2, 'b'⟩ ⟨[⟨3, 'c'⟩, ⟨4, 'd'⟩], []⟩) ∧
      t.root = some (.binary ⟨[⟨1, 'a'⟩, ⟨2, 'b'⟩], []⟩ ⟨3, 'c'⟩ (.leaf ⟨4, 'd'⟩)) := by
  constructor
  · have hAb : compare (⟨"A"⟩ : Caseless) ⟨"b"⟩ = .lt :=
      (Caseless.compare_eq (a := "a") (b := "b") (by decide) (by decide)).trans (by decide)
    have hAB : compare (⟨"A"⟩ : Caseless) ⟨"B"⟩ = .lt :=
      (Caseless.compare_eq (a := "a") (b := "b") (by decide) (by decide)).trans (by decide)
    have hBb : compare (⟨"B"⟩ : Caseless) ⟨"b"⟩ = .eq :=
      (Caseless.compare_eq (a := "b") (b := "b") (by decide) (by decide)).trans (by decide)
    have haA : compare (⟨"a"⟩ : Caseless) ⟨"A"⟩ = .eq :=
      (Caseless.compare_eq (a := "a") (b := "a") (by decide) (by decide)).trans (by decide)
    have hbA : compare (⟨"b"⟩ : Caseless) ⟨"A"⟩ ≠ .eq := by simp [Std.OrientedCmp.gt_of_lt hAb]
    obtain ⟨⟨s, es, heq, hs⟩, -, hread, -, hreorder⟩ :=
      bulk_gathers [((⟨"b"⟩ : Caseless), Scalar.int 1), (⟨"A"⟩, .int 2), (⟨"B"⟩, .int 3),
        (⟨"a"⟩, .int 4)]
    obtain ⟨r, fs, heq', hr⟩ := hread Json.codec _ (Json.lawful_codec _)
    obtain ⟨-, hload, -, -, -⟩ :=
      bulk_gathers [((⟨"A"⟩ : Caseless), Scalar.int 2), (⟨"b"⟩, .int 1), (⟨"B"⟩, .int 3),
        (⟨"a"⟩, .int 4)]
    obtain ⟨hloads, hload⟩ := hload ⟨2, by decide⟩
    obtain ⟨t, ht'⟩ := hloads (by decide)
    obtain ⟨-, ht⟩ := hload t ht'
    refine ⟨s, t, r, ⟨es, heq⟩, ht', ⟨fs, heq'⟩, hs.entries_eq.trans ?_,
      (hreorder _ (fun k => occurrences_swap k [] _ hbA) s t hs ht).symm,
      hreorder _ (fun _ => rfl) r s hr hs⟩
    have hfirst : Association.insert (⟨"b"⟩ : Caseless) (.int 1) [] = [⟨⟨"b"⟩, Scalar.int 1⟩] := rfl
    have hsecond : Association.insert (⟨"A"⟩ : Caseless) (.int 2) [⟨⟨"b"⟩, .int 1⟩] =
        [⟨⟨"A"⟩, .int 2⟩, ⟨⟨"b"⟩, Scalar.int 1⟩] := by rw [Association.insert, hAb]
    have hbelow : Brackets [⟨(⟨"A"⟩ : Caseless), Scalar.int 2⟩] [] ⟨"B"⟩ :=
      ⟨by simpa using hAB, by simp⟩
    have hthird : Association.insert (⟨"B"⟩ : Caseless) (.int 3) [⟨⟨"A"⟩, .int 2⟩, ⟨⟨"b"⟩, .int 1⟩] =
        [⟨⟨"A"⟩, .int 2⟩, ⟨⟨"b"⟩, Scalar.int 3⟩] := Association.insert_at hbelow hBb
    rw [Association.insertMany_cons, hfirst, Association.insertMany_cons, hsecond,
      Association.insertMany_cons, hthird, Association.insertMany_cons,
      Association.insert_cons_of_eq haA]
    rfl
  · have hs : (Tree.empty ⟨2, by decide⟩).insertMany [(2, 'b'), (3, 'c'), (1, 'a'), (4, 'd')] =
        .done (⟨some (.binary (.leaf ⟨1, 'a'⟩) ⟨2, 'b'⟩ ⟨[⟨3, 'c'⟩, ⟨4, 'd'⟩], []⟩),
          ⟨2, by decide⟩, 4⟩ : Tree Nat Char) [.splitRoot 3] := by cbv
    have ht : (Tree.empty ⟨2, by decide⟩).insertMany [(2, 'b'), (3, 'c'), (4, 'd'), (1, 'a')] =
        .done (⟨some (.binary ⟨[⟨1, 'a'⟩, ⟨2, 'b'⟩], []⟩ ⟨3, 'c'⟩ (.leaf ⟨4, 'd'⟩)),
          ⟨2, by decide⟩, 4⟩ : Tree Nat Char) [.splitRoot 3] := by cbv
    obtain ⟨-, hload, -, -, hreorder⟩ := bulk_gathers [(2, 'b'), (3, 'c'), (1, 'a'), (4, 'd')]
    obtain ⟨-, hload', -, -, -⟩ := bulk_gathers [(2, 'b'), (3, 'c'), (4, 'd'), (1, 'a')]
    obtain ⟨-, hgathers⟩ := (hload ⟨2, by decide⟩).2 _ ⟨_, hs⟩
    obtain ⟨-, hgathers'⟩ := (hload' ⟨2, by decide⟩).2 _ ⟨_, ht⟩
    refine ⟨_, _, ⟨_, hs⟩, ⟨_, ht⟩, hreorder _ (fun k => ?_) _ _ hgathers hgathers', rfl, rfl⟩
    exact occurrences_swap k [(2, 'b'), (3, 'c')] [] (by decide)

end Tree

end BTree
