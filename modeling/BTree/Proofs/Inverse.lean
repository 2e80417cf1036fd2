import BTree.Proofs.Restructuring

/-!
# Splitting and merging as inverses

A split cuts a node at its median and a merge joins two nodes around an entry; neither asks for an
order of the keys, or for a number of entries but the one that is the median.  What was split can be
merged back.  What was merged is split back only if the median of the whole is the entry that stood
between, which the rounding of an even number of entries to the left allows for two sizes of the right
node:

    (a.append e b).split = ok (a, e, b)  ↔  b has as many entries as a, or one more     (split_append_iff)
    n.splitChild i = done m es  →  m.toList = n.toList, m.mergeChildren i = done n fs       (split_merge)
-/

namespace BTree

variable {κ ν : Type}

namespace Node

/-- All leaves lie at the depth `h` and inner nodes have one child more than entries; nothing is asked
of the keys or of the numbers of entries. -/
def Shaped (h : Nat) (n : Node κ ν) : Prop := n.Levelled (fun _ => True) h

/-! ## Lemmas -/

/-- Two nodes of the same levels are the halves of their join if the first is no larger than the second
and smaller by one entry at most. -/
theorem split_append_iff {ok : Nat → Prop} {h : Nat} {a b : Node κ ν} (e : Entry κ ν)
    (ha : a.Levelled ok h) (hb : b.Levelled ok h) :
    (a.append e b).split = .ok (a, e, b) ↔
      b.entries.length = a.entries.length ∨ b.entries.length = a.entries.length + 1 := by
  have hlen := length_entries_append a b e
  have hmedian : (a.append e b).entries[a.entries.length]? = some e := by simp [append]
  constructor
  · intro hs
    obtain ⟨m, hm, -, -, ha', -⟩ := split_eq_ok_iff.1 hs
    have hlen' := congrArg (fun c : Node κ ν => c.entries.length) ha'
    simp only [List.length_take] at hlen'
    omega
  · intro hsizes
    have hm : a.entries.length = ((a.append e b).entries.length - 1) / 2 := by omega
    rw [split_eq_ok_iff]
    refine ⟨a.entries.length, hm, hmedian, ?_⟩
    obtain ⟨les, lcs⟩ := a
    obtain ⟨res, rcs⟩ := b
    rcases ha.cases with ⟨rfl, hnil⟩ | ⟨g, rfl, hchildren, -⟩
    · obtain rfl : lcs = [] := hnil
      obtain rfl : rcs = [] := levelled_one_iff.1 hb
      simp [append, isLeaf]
    · have hchildren : lcs.length = les.length + 1 := hchildren
      refine ⟨.inr ?_, ?_, ?_⟩
      · simp only [append, List.length_append]
        omega
      · simp [append, ← hchildren]
      · have hentries : (les ++ e :: res).drop (les.length + 1) = res := by
          rw [List.drop_length_add_append, List.drop_one, List.tail_cons]
        simp only [append, hentries]
        rw [← hchildren, List.drop_left]

/-- A pair of children with an entry between is not the same as another at its place. -/
theorem pair_inj {x : Context κ ν} {a b c d : Node κ ν} {e f : Entry κ ν} :
    x.pair a e b = x.pair c f d ↔ a = c ∧ e = f ∧ b = d := by
  simp only [Context.pair, Node.mk.injEq, List.append_cancel_left_eq, List.cons.injEq]
  constructor
  · rintro ⟨⟨rfl, -⟩, rfl, rfl, -⟩
    exact ⟨rfl, rfl, rfl⟩
  · rintro ⟨rfl, rfl, rfl⟩
    simp

section
variable {h : Nat} {n : Node κ ν}

/-- A child that has entries can be split; this is not seen in the reading, and a merge undoes it. -/
theorem Shaped.splitChild_law (hn : n.Shaped h) {i : Nat} {c : Node κ ν}
    (hc : n.children[i]? = some c) (hne : c.entries ≠ []) :
    ∃ m es fs, n.splitChild i = .done m es ∧ m.toList = n.toList ∧ m.Shaped h ∧
      m.mergeChildren i = .done n fs := by
  obtain ⟨g, x, rfl, rfl, rfl, hx, hc⟩ := Levelled.exists_plug hn hc
  obtain ⟨a, e, b, hs, rfl, ha, hb, -⟩ := exists_split hc.levelled hne
  refine ⟨_, _, _, splitChild_plug x hs, ?_, ?_, mergeChildren_pair x a b e⟩
  · exact (toList_plug_append x e ha hb).symm
  · exact Context.levelled_pair_iff.2 ⟨g, rfl, hx, ⟨trivial, ha⟩, ⟨trivial, hb⟩⟩

/-- Two neighbours can be merged; this is not seen in the reading, and a split undoes it if their sizes
are those of halves. -/
theorem Shaped.mergeChildren_law (hn : n.Shaped h) {i : Nat} {a b : Node κ ν}
    (ha : n.children[i]? = some a) (hb : n.children[i + 1]? = some b) :
    ∃ m r es fs, n.mergeChildren i = .done m es ∧ m.toList = n.toList ∧ m.Shaped h ∧
      m.splitChild i = .done r fs ∧
      (r = n ↔ b.entries.length = a.entries.length ∨
        b.entries.length = a.entries.length + 1) := by
  obtain ⟨g, x, e, rfl, rfl, rfl, hx, ⟨-, ha⟩, ⟨-, hb⟩⟩ := Levelled.exists_pair hn ha hb
  have hab := levelled_append e ha hb
  have hne : (a.append e b).entries ≠ [] := by simp [append]
  obtain ⟨c, f, d, hs, -⟩ := exists_split hab hne
  refine ⟨_, _, _, _, mergeChildren_pair x a b e, toList_plug_append x e ha hb, ?_,
    splitChild_plug x hs, ?_⟩
  · exact Context.levelled_plug_iff.2 ⟨g, rfl, hx, trivial, hab⟩
  · rw [← split_append_iff e ha hb, hs, pair_inj]
    simp

/-- A root that has entries can be split under a new one; this is not seen in the reading. -/
theorem Shaped.binary_law (hn : n.Shaped h) (hne : n.entries ≠ []) :
    ∃ a e b, n.split = .ok (a, e, b) ∧ (binary a e b).toList = n.toList ∧
      (binary a e b).Shaped (h + 1) := by
  obtain ⟨a, e, b, hs, rfl, ha, hb, -⟩ := exists_split hn hne
  obtain ⟨g, rfl⟩ := hn.exists_height
  refine ⟨a, e, b, hs, ?_, levelled_binary e ⟨trivial, ha⟩ ⟨trivial, hb⟩⟩
  rw [toList_binary, toList_append e ha hb]

/-- In a node of level leaves a child with entries can be split and two neighbours can be merged; both
keep the entries in order, the depth of the leaves, and the numbers of children.  A merge undoes a
split.  A split undoes a merge just if the right child had as many entries as the left one, or one
more.  The halves of the root under a new one read as the root did. -/
theorem Shaped.split_merge (hn : n.Shaped h) :
    (∀ i c, n.children[i]? = some c → c.entries ≠ [] →
      ∃ m es fs, n.splitChild i = .done m es ∧ m.toList = n.toList ∧ m.Shaped h ∧
        m.mergeChildren i = .done n fs) ∧
    (∀ i a b, n.children[i]? = some a → n.children[i + 1]? = some b →
      ∃ m r es fs, n.mergeChildren i = .done m es ∧ m.toList = n.toList ∧ m.Shaped h ∧
        m.splitChild i = .done r fs ∧
        (r = n ↔ b.entries.length = a.entries.length ∨
          b.entries.length = a.entries.length + 1)) ∧
    (n.entries ≠ [] → ∃ a e b, n.split = .ok (a, e, b) ∧ (binary a e b).toList = n.toList ∧
      (binary a e b).Shaped (h + 1)) :=
  ⟨fun _ _ hc hne => hn.splitChild_law hc hne, fun _ _ _ ha hb => hn.mergeChildren_law ha hb,
    hn.binary_law⟩

/-- A node over leaves of one, two and one entries, in no order. -/
def uneven : Node Nat Nat :=
  ⟨[⟨9, 0⟩, ⟨2, 1⟩], [.leaf ⟨5, 2⟩, ⟨[⟨7, 3⟩, ⟨1, 4⟩], []⟩, .leaf ⟨6, 5⟩]⟩

/-- A child of one entry is split into halves of none and merged again.  The merge of the first two
children is undone by a split, that of the last two is not. -/
theorem split_merge_uneven :
    uneven.Shaped 2 ∧
      (∃ m es fs, uneven.splitChild 0 = .done m es ∧
        m.children.map (fun c => c.entries.length) = [0, 0, 2, 1] ∧
        m.mergeChildren 0 = .done uneven fs) ∧
      (∃ m es fs, uneven.mergeChildren 0 = .done m es ∧ m.splitChild 0 = .done uneven fs) ∧
      ∃ m r es fs, uneven.mergeChildren 1 = .done m es ∧ m.splitChild 1 = .done r fs ∧ r ≠ uneven := by
  have hshaped : uneven.Shaped 2 :=
    Levelled.inner rfl (fun _ _ => trivial) (by simp [levelled_one_iff, Node.leaf])
  obtain ⟨hsplit, hmerge, -⟩ := hshaped.split_merge
  refine ⟨hshaped, ?_, ?_, ?_⟩
  · obtain ⟨m, es, fs, hm, -, -, hback⟩ := hsplit 0 _ rfl (by decide)
    obtain rfl : _ = m := (Edit.done.inj ((show _ = uneven.splitChild 0 by cbv).trans hm)).1
    exact ⟨_, es, fs, hm, rfl, hback⟩
  · obtain ⟨m, r, es, fs, hm, -, -, hr, hiff⟩ := hmerge 0 _ _ rfl rfl
    obtain rfl : r = uneven := hiff.2 (by decide)
    exact ⟨m, es, fs, hm, hr⟩
  · obtain ⟨m, r, es, fs, hm, -, -, hr, hiff⟩ := hmerge 1 _ _ rfl rfl
    exact ⟨m, r, es, fs, hm, hr, mt hiff.1 (by decide)⟩

end

end Node

end BTree
