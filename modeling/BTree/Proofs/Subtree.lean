import BTree.Proofs.Insertion
import BTree.Proofs.Removal

/-!
# Updates below a sound node

A node is sound when it could be the root of a tree: it has entries, none too many, and all below it
is in order.  An insertion below such a node puts its pair in one place of what the node reads as,
and a removal takes one entry out.  The levels stay, and the node itself gains or loses one entry at
most, so that a removal can leave it without entries, over a single child:

    n.insert t k v = done (o, m) es, where Adds k v n.toList o m.toList and m is sound   (insertion_law)
    n.remove t k   = done (o, m) es, where Drops k n.toList o m.toList and n.Loses t h m (removal_law)
-/

namespace BTree

variable {κ ν : Type} [Ord κ]

/-! ## What a list gains or loses -/

namespace Association

/-- `Adds k v es o fs`: with `v` put under `k`, the entries `es` become `fs`; the value before was
`o`. -/
inductive Adds (k : κ) (v : ν) : List (Entry κ ν) → Option ν → List (Entry κ ν) → Prop
  /-- The key is present, and keeps its spelling. -/
  | replace {l r : List (Entry κ ν)} {e : Entry κ ν} (he : compare k e.key = .eq) :
      Adds k v (l ++ e :: r) (some e.value) (l ++ { e with value := v } :: r)
  /-- The key is absent, and comes between the keys below it and those above. -/
  | add {l r : List (Entry κ ν)} (hb : Brackets l r k) :
      Adds k v (l ++ r) none (l ++ ⟨k, v⟩ :: r)

/-- `Drops k es o fs`: without the key `k`, the entries `es` become `fs`; the entry `o` held it. -/
inductive Drops (k : κ) : List (Entry κ ν) → Option (Entry κ ν) → List (Entry κ ν) → Prop
  | take {l r : List (Entry κ ν)} {e : Entry κ ν} (he : compare k e.key = .eq) :
      Drops k (l ++ e :: r) (some e) (l ++ r)
  /-- The key is absent, and all entries stay. -/
  | keep {es : List (Entry κ ν)} (hne : ∀ e ∈ es, compare k e.key ≠ .eq) : Drops k es none es

variable [Std.TransOrd κ] {es : List (Entry κ ν)}

theorem adds_insert (hasc : Ascending es) (k : κ) (v : ν) :
    Adds k v es ((find? k es).map Entry.value) (insert k v es) := by
  have hloc := search_located hasc k
  generalize search Entry.key es k = pos at hloc
  cases hloc with
  | found hes hi he =>
    subst hes
    have hb := brackets_of_eq hasc he
    rw [find?_at hb he, insert_at hb he]
    exact .replace he
  | gap hes hi hb =>
    subst hes
    rw [find?_eq_none_of_brackets hb, insert_of_brackets hb]
    exact .add hb

theorem drops_erase (hasc : Ascending es) (k : κ) : Drops k es (find? k es) (erase k es) := by
  have hloc := search_located hasc k
  generalize search Entry.key es k = pos at hloc
  cases hloc with
  | found hes hi he =>
    subst hes
    have hb := brackets_of_eq hasc he
    rw [find?_at hb he, erase_at hb he]
    exact .take he
  | gap hes hi hb =>
    subst hes
    have hnone := find?_eq_none_of_brackets hb
    rw [hnone, erase_eq_self_of_brackets hb]
    refine .keep fun e hmem he => ?_
    rw [(find?_eq_some_iff hasc).2 ⟨hmem, he⟩] at hnone
    cases hnone

/-- An insertion answers a value just if the key was present with that value. -/
theorem map_value_find?_eq_some_iff (hasc : Ascending es) {k : κ} {w : ν} :
    (find? k es).map Entry.value = some w ↔ ∃ e ∈ es, compare k e.key = .eq ∧ e.value = w := by
  rw [Option.map_eq_some_iff]
  constructor
  · rintro ⟨e, he, hw⟩
    obtain ⟨hmem, hkey⟩ := (find?_eq_some_iff hasc).1 he
    exact ⟨e, hmem, hkey, hw⟩
  · rintro ⟨e, hmem, hkey, hw⟩
    exact ⟨e, (find?_eq_some_iff hasc).2 ⟨hmem, hkey⟩, hw⟩

end Association

namespace Node

/-! ## Sound nodes -/

/-- The node could be the root of a tree of minimum degree `t` and `h` levels. -/
structure Sound (t h : Nat) (n : Node κ ν) : Prop where
  nonempty : 1 ≤ n.entries.length
  length_le : n.entries.length ≤ 2 * t - 1
  /-- The nodes below hold `t - 1` to `2t - 1` entries; inner nodes have one child more than entries,
  and all leaves lie `h` levels deep. -/
  levelled : n.Levelled (Occupied t) h
  ascending : Ascending n.toList

/-- `n.Loses t h m`: once an entry is taken out below `n`, or none was there to be taken, `m` may be
left of it. -/
structure Loses (t h : Nat) (n m : Node κ ν) : Prop where
  /-- All leaves still lie `h` levels deep, and the nodes below are as they have to be. -/
  levelled : m.Levelled (Occupied t) h
  length_eq : m.entries.length = n.entries.length ∨ m.entries.length + 1 = n.entries.length
  /-- Only a single entry can be used up; what it stood between has become one child. -/
  emptied : m.entries = [] →
    n.entries.length = 1 ∧ if n.isLeaf then m.children = [] else ∃ c, m.children = [c]
  /-- A node that was entered with an entry to spare can stand below another. -/
  fits : t ≤ n.entries.length → m.Fits (Occupied t) h

namespace Sound

variable {t h : Nat} {n : Node κ ν}

theorem loses (hn : n.Sound t h) {m : Node κ ν} (hm : m.Levelled (Occupied t) h)
    (hlen : m.entries.length = n.entries.length ∨ m.entries.length + 1 = n.entries.length) :
    n.Loses t h m where
  levelled := hm
  length_eq := hlen
  emptied := by
    intro hnil
    have hpos := hn.nonempty
    rw [hnil, List.length_nil] at hlen
    refine ⟨by omega, ?_⟩
    rcases hn.levelled.cases with ⟨rfl, hleaf⟩ | ⟨g, rfl, hchildren, -⟩
    · have hisLeaf : n.isLeaf = true := by rw [isLeaf, hleaf]; rfl
      rw [if_pos hisLeaf]
      exact levelled_one_iff.1 hm
    · have hisLeaf : n.isLeaf = false := by
        rw [isLeaf, List.isEmpty_eq_false_iff, ← List.length_pos_iff]
        omega
      rw [if_neg (by simp [hisLeaf])]
      have hsingle := (levelled_add_two_iff.1 hm).1
      rw [hnil] at hsingle
      exact List.length_eq_one_iff.1 hsingle
  fits := by
    intro hspare
    have hmax := hn.length_le
    exact ⟨⟨by omega, by omega⟩, hm⟩

/-- At either end there is an entry to be taken. -/
theorem pop_law (hn : n.Sound t h) (ht : 2 ≤ t) (s : End) :
    ∃ e m es, n.pop s t = .done (some e, m) es ∧ n.toList = s.put e m.toList ∧ n.Loses t h m := by
  obtain ⟨e, m, es, hp, heq⟩ := pop_eq_done ht s hn.levelled hn.nonempty
  obtain ⟨hm, hlen⟩ := hp.levelled hn.levelled
  exact ⟨e, m, es, heq, hp.toList_eq hn.levelled, hn.loses hm hlen⟩

variable [Std.TransOrd κ]

theorem remove_law (hn : n.Sound t h) (ht : 2 ≤ t) (k : κ) :
    ∃ o m es, n.remove t k = .done (o, m) es ∧
      (∀ e, o = some e ↔ e ∈ n.toList ∧ compare k e.key = .eq) ∧
      Association.Drops k n.toList o m.toList ∧ n.Loses t h m := by
  obtain ⟨o, m, es, hr, heq⟩ := remove_eq_done ht k hn.levelled hn.ascending hn.nonempty
  obtain ⟨hm, hlen⟩ := hr.levelled hn.levelled
  obtain ⟨rfl, hlist⟩ := hr.answer_eq hn.levelled hn.ascending
  refine ⟨_, m, es, heq, fun e => Association.find?_eq_some_iff hn.ascending, ?_, hn.loses hm hlen⟩
  rw [hlist]
  exact Association.drops_erase hn.ascending k

/-! ## Removal -/

/-- Three levels with a single entry in each node. -/
def sparse : Node Nat Nat :=
  .binary (.binary (.leaf ⟨1, 10⟩) ⟨2, 20⟩ (.leaf ⟨3, 30⟩)) ⟨4, 40⟩
    (.binary (.leaf ⟨5, 50⟩) ⟨6, 60⟩ (.leaf ⟨7, 70⟩))

theorem toList_sparse :
    sparse.toList = [⟨1, 10⟩, ⟨2, 20⟩, ⟨3, 30⟩, ⟨4, 40⟩, ⟨5, 50⟩, ⟨6, 60⟩, ⟨7, 70⟩] := by
  simp [sparse, toList_binary, toList_leaf]

theorem sparse_sound : sparse.Sound 2 3 where
  nonempty := by decide
  length_le := by decide
  levelled := by
    have hleaf (e : Entry Nat Nat) : (leaf e).Fits (Occupied 2) 1 :=
      ⟨show Occupied 2 1 by decide, .leaf [e]⟩
    have hbinary (d e f : Entry Nat Nat) : (binary (leaf d) e (leaf f)).Fits (Occupied 2) 2 :=
      ⟨show Occupied 2 1 by decide, levelled_binary e (hleaf d) (hleaf f)⟩
    exact levelled_binary _ (hbinary _ _ _) (hbinary _ _ _)
  ascending := by
    rw [toList_sparse]
    decide

/-- A removal below a sound node answers the entry that holds the key, if there is one, and takes
just that entry out; at the ends it is the first or the last entry.  The levels and the numbers of
entries below stay in order, and the node loses one entry at most. -/
theorem removal_law (hn : n.Sound t h) (ht : 2 ≤ t) :
    (∀ k, ∃ o m es, n.remove t k = .done (o, m) es ∧
      (∀ e, o = some e ↔ e ∈ n.toList ∧ compare k e.key = .eq) ∧
      Association.Drops k n.toList o m.toList ∧ n.Loses t h m) ∧
    (∃ e m es, n.popFirst t = .done (some e, m) es ∧ n.toList = e :: m.toList ∧ n.Loses t h m) ∧
    (∃ e m es, n.popLast t = .done (some e, m) es ∧ n.toList = m.toList ++ [e] ∧ n.Loses t h m) :=
  ⟨hn.remove_law ht, hn.pop_law ht .front, hn.pop_law ht .back⟩

/-- The entry between two children that have none to spare goes down as they are joined. -/
theorem removal_law_of_sparse :
    sparse.Sound 2 3 ∧
      (∃ m es, sparse.remove 2 4 = .done (some ⟨4, 40⟩, m) es ∧
        Association.Drops 4 sparse.toList (some ⟨4, 40⟩) m.toList ∧ sparse.Loses 2 3 m) ∧
      (∃ m es, sparse.remove 2 8 = .done (none, m) es ∧ sparse.Loses 2 3 m) ∧
      (∃ e m es, sparse.popFirst 2 = .done (some e, m) es ∧ sparse.toList = e :: m.toList ∧
        sparse.Loses 2 3 m) ∧
      ∃ e m es, sparse.popLast 2 = .done (some e, m) es ∧ sparse.toList = m.toList ++ [e] ∧
        sparse.Loses 2 3 m := by
  obtain ⟨hremove, hfirst, hlast⟩ := removal_law sparse_sound (Nat.le_refl 2)
  refine ⟨sparse_sound, ?_, ?_, hfirst, hlast⟩
  · obtain ⟨o, m, es, heq, hanswer, hdrops, hloses⟩ := hremove 4
    obtain rfl : o = some ⟨4, 40⟩ := (hanswer ⟨4, 40⟩).2 ⟨by simp [toList_sparse], rfl⟩
    exact ⟨m, es, heq, hdrops, hloses⟩
  · obtain ⟨o, m, es, heq, hanswer, -, hloses⟩ := hremove 8
    have habsent : ∀ e ∈ sparse.toList, compare 8 e.key ≠ .eq := by
      rw [toList_sparse]
      decide
    have hnone : o = none := by
      rw [Option.eq_none_iff_forall_ne_some]
      intro e he
      obtain ⟨hmem, hkey⟩ := (hanswer e).1 he
      exact habsent e hmem hkey
    subst hnone
    exact ⟨m, es, heq, hloses⟩

/-! ## Insertion -/

/-- A node with room over a leaf that is full. -/
def crowded : Node Nat Nat := .binary (.leaf ⟨1, 10⟩) ⟨2, 20⟩ ⟨[⟨3, 30⟩, ⟨4, 40⟩, ⟨5, 50⟩], []⟩

theorem toList_crowded :
    crowded.toList = [⟨1, 10⟩, ⟨2, 20⟩, ⟨3, 30⟩, ⟨4, 40⟩, ⟨5, 50⟩] := by
  simp [crowded, toList_binary, toList_leaf, toList_childless]

theorem crowded_sound : crowded.Sound 2 2 where
  nonempty := by decide
  length_le := by decide
  levelled := levelled_binary _ ⟨show Occupied 2 1 by decide, .leaf _⟩
    ⟨show Occupied 2 3 by decide, .leaf _⟩
  ascending := by
    rw [toList_crowded]
    decide

/-- An insertion below a sound node with room answers the value that the key had, if it was present,
and changes just that value, or else adds the pair at its place.  The node stays sound at the same
number of levels, and gains one entry at most.  The insertion ends as long as the double of the degree
fits a word, if the node has children; were it greater, each of them would hold `2 ^ 63 - 1` entries
at least. -/
theorem insertion_law (hn : n.Sound t h) (ht : 2 ≤ t) (hroom : n.entries.length < 2 * t - 1) (k : κ)
    (v : ν) :
    ((n.isLeaf = false → InWord t) → ∃ o m es, n.insert t k v = .done (o, m) es) ∧
    ∀ o m es, n.insert t k v = .done (o, m) es →
      (∀ w, o = some w ↔ ∃ e ∈ n.toList, compare k e.key = .eq ∧ e.value = w) ∧
      Association.Adds k v n.toList o m.toList ∧ m.Sound t h ∧
      n.entries.length ≤ m.entries.length ∧ m.entries.length ≤ n.entries.length + 1 := by
  rcases insert_cases ht k v hn.levelled hn.ascending with
    ⟨o, m, es, hi, heq⟩ | ⟨⟨hleaf, hw⟩, heq⟩
  · refine ⟨fun _ => ⟨o, m, es, heq⟩, fun o' m' es' heq' => ?_⟩
    obtain ⟨hpair, -⟩ := Edit.done.inj (heq.symm.trans heq')
    obtain ⟨rfl, rfl⟩ := Prod.mk.inj hpair
    obtain ⟨hm, hle, hle'⟩ := hi.levelled ht hn.levelled
    obtain ⟨rfl, hlist⟩ := hi.answer_eq ht hn.levelled hn.ascending
    have hmin : 1 ≤ m.entries.length := Nat.le_trans hn.nonempty hle
    have hmax : m.entries.length ≤ 2 * t - 1 := by omega
    have hasc : Ascending m.toList := by
      rw [hlist]
      exact Association.ascending_insert hn.ascending
    refine ⟨fun w => ?_, ?_, ⟨hmin, hmax, hm, hasc⟩, hle, hle'⟩
    · exact Association.map_value_find?_eq_some_iff hn.ascending
    · rw [hlist]
      exact Association.adds_insert hn.ascending k v
  · refine ⟨fun hfits => absurd (hfits hleaf) hw, fun o m es heq' => ?_⟩
    rw [heq] at heq'
    cases heq'

/-- The full right child is split before it is entered, and its median turns out to hold the key. -/
theorem insertion_law_at_median :
    crowded.Sound 2 2 ∧ crowded.entries.length < 3 ∧
      ∃ m es, crowded.insert 2 4 0 = .done (some 40, m) es ∧
        Association.Adds 4 0 crowded.toList (some 40) m.toList ∧ m.Sound 2 2 ∧
        1 ≤ m.entries.length ∧ m.entries.length ≤ 2 := by
  have hroom : crowded.entries.length < 2 * 2 - 1 := by decide
  obtain ⟨hends, hlaw⟩ := insertion_law crowded_sound (Nat.le_refl 2) hroom 4 0
  obtain ⟨o, m, es, heq⟩ := hends fun _ => by decide
  obtain ⟨hanswer, hadds, hm, hle, hle'⟩ := hlaw o m es heq
  obtain rfl : o = some 40 := (hanswer 40).2 ⟨⟨4, 40⟩, by simp [toList_crowded], rfl, rfl⟩
  exact ⟨crowded_sound, hroom, m, es, heq, hadds, hm, hle, hle'⟩

end Sound

end Node

end BTree
