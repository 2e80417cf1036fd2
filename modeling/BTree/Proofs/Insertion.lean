import BTree.Node.Insertion
import BTree.Proofs.Association
import BTree.Proofs.Restructuring
import BTree.Proofs.Search

/-!
# What an insertion does

`Inserts t k v n o m es` derives an insertion below the node `n` that answers `o`, leaves `m` and
emits `es`: one rule for each way the descent can go on.  Below a sound node with room there always is
such a derivation, and whatever holds of all derivations holds of the insertion.  Only the descent to
a child computes `2t - 1`, so only an inner node needs the degree to be `InWord`:

    n.insert t k v = done (o, m) es, where Inserts t k v n o m es       (insert_cases)
    Inserts t k v n o m es  →  n.insert t k v = done (o, m) es          (insert_of_inserts)
    m has the levels of n, and at most one entry more                    (Inserts.levelled)
    m.toList = Association.insert k v n.toList                           (Inserts.answer_eq)
-/

namespace BTree

variable {κ ν : Type} [Ord κ]

/-- `Inserts t k v n o m es`: inserting `v` under `k` below `n` answers `o`, leaves `m` and emits
`es`. -/
inductive Inserts (t : Nat) (k : κ) (v : ν) :
    Node κ ν → Option ν → Node κ ν → List Event → Prop
  /-- An entry of the node holds the key. -/
  | replace {l r : List (Entry κ ν)} {e : Entry κ ν} {cs : List (Node κ ν)}
      (he : compare k e.key = .eq) :
      Inserts t k v ⟨l ++ e :: r, cs⟩ (some e.value) ⟨l ++ { e with value := v } :: r, cs⟩ []
  /-- The leaf for the key is reached. -/
  | leaf {l r : List (Entry κ ν)} (hb : Brackets l r k) :
      Inserts t k v ⟨l ++ r, []⟩ none ⟨l ++ ⟨k, v⟩ :: r, []⟩ []
  /-- The child in the gap has room. -/
  | descend {x : Context κ ν} {c d : Node κ ν} {o : Option ν} {es : List Event}
      (hb : Brackets x.leftEntries x.rightEntries k) (hc : c.entries.length < 2 * t - 1)
      (hi : Inserts t k v c o d es) : Inserts t k v (x.plug c) o (x.plug d) es
  /-- The child is full, and the key belongs into its left half. -/
  | splitLeft {x : Context κ ν} {c a b d : Node κ ν} {e : Entry κ ν} {o : Option ν}
      {es : List Event} (hb : Brackets x.leftEntries x.rightEntries k)
      (hc : 2 * t - 1 ≤ c.entries.length) (hs : c.split = .ok (a, e, b))
      (hk : compare k e.key = .lt) (hi : Inserts t k v a o d es) :
      Inserts t k v (x.plug c) o (x.pair d e b)
        (.splitChild x.index a.entries.length b.entries.length :: es)
  /-- The child is full, and its median holds the key. -/
  | splitMedian {x : Context κ ν} {c a b : Node κ ν} {e : Entry κ ν}
      (hb : Brackets x.leftEntries x.rightEntries k) (hc : 2 * t - 1 ≤ c.entries.length)
      (hs : c.split = .ok (a, e, b)) (hk : compare k e.key = .eq) :
      Inserts t k v (x.plug c) (some e.value) (x.pair a { e with value := v } b)
        [.splitChild x.index a.entries.length b.entries.length]
  /-- The child is full, and the key belongs into its right half. -/
  | splitRight {x : Context κ ν} {c a b d : Node κ ν} {e : Entry κ ν} {o : Option ν}
      {es : List Event} (hb : Brackets x.leftEntries x.rightEntries k)
      (hc : 2 * t - 1 ≤ c.entries.length) (hs : c.split = .ok (a, e, b))
      (hk : compare k e.key = .gt) (hi : Inserts t k v b o d es) :
      Inserts t k v (x.plug c) o (x.pair a e d)
        (.splitChild x.index a.entries.length b.entries.length :: es)

/-! ## Insertions and derivations -/

namespace Node

variable [Std.TransOrd κ] {t h : Nat} {k : κ} {v : ν}

/-- The descent enters the gap in which the key lies. -/
theorem insert_plug {x : Context κ ν} {c : Node κ ν} (ht : 1 ≤ t) (hw : InWord t)
    (hasc : Ascending (x.plug c).toList) (hb : Brackets x.leftEntries x.rightEntries k) :
    (x.plug c).insert t k v =
      if 2 * t - 1 ≤ c.entries.length then (do
        let m ← (x.plug c).splitChild x.index
        let median ← access m.entries x.index
        match compare k median.key with
        | .lt => m.atChild x.index fun c _ => c.insert t k v
        | .eq =>
          pure (some median.value,
            { m with entries := m.entries.set x.index { median with value := v } })
        | .gt => m.atChild (x.index + 1) fun c _ => c.insert t k v)
      else (x.plug c).atChild x.index fun c _ => c.insert t k v := by
  obtain ⟨i, hsearch, hi⟩ := search_gap (ascending_entries hasc) hb
  have hsearch : search Entry.key (x.plug c).entries k = .gap i := hsearch
  have hi : i.val = x.index := hi
  have hstep := insert_eq t k v (x.plug c)
  rw [hsearch] at hstep
  simp only [hi, Context.isLeaf_plug, Bool.false_eq_true, if_false, x.access_children_plug,
    Edit.liftM_ok, Edit.done_bind, Edit.after_nil, isFull_eq_ok ht hw,
    decide_eq_true_eq] at hstep
  exact hstep

/-- Where the double of the degree fits no word, there is no descent. -/
theorem insert_overflows {x : Context κ ν} {c : Node κ ν} (hw : ¬ InWord t)
    (hasc : Ascending (x.plug c).toList) (hb : Brackets x.leftEntries x.rightEntries k) :
    (x.plug c).insert t k v = .fault .overflow := by
  obtain ⟨i, hsearch, hi⟩ := search_gap (ascending_entries hasc) hb
  have hsearch : search Entry.key (x.plug c).entries k = .gap i := hsearch
  have hi : i.val = x.index := hi
  have hstep := insert_eq t k v (x.plug c)
  rw [hsearch] at hstep
  simp only [hi, Context.isLeaf_plug, Bool.false_eq_true, if_false, x.access_children_plug,
    Edit.liftM_ok, Edit.done_bind, Edit.after_nil, isFull_eq_error hw, Edit.liftM_error,
    Edit.fault_bind] at hstep
  exact hstep

/-- An entry that holds the key takes the value over. -/
theorem insert_replace {l r : List (Entry κ ν)} {e : Entry κ ν} {cs : List (Node κ ν)}
    (hasc : Ascending (toList ⟨l ++ e :: r, cs⟩)) (he : compare k e.key = .eq) :
    insert t k v ⟨l ++ e :: r, cs⟩ =
      .done (some e.value, ⟨l ++ { e with value := v } :: r, cs⟩) [] := by
  obtain ⟨i, hsearch, hi⟩ := search_found (ascending_entries hasc) he
  rw [insert_eq, hsearch]
  simp [hi]

/-- A full child is split, and its median compared with the key. -/
theorem insert_plug_of_split {x : Context κ ν} {c a b : Node κ ν} {e : Entry κ ν} (ht : 1 ≤ t)
    (hw : InWord t) (hasc : Ascending (x.plug c).toList)
    (hb : Brackets x.leftEntries x.rightEntries k) (hc : 2 * t - 1 ≤ c.entries.length)
    (hs : c.split = .ok (a, e, b)) :
    (x.plug c).insert t k v =
      (match compare k e.key with
        | .lt => (x.pair a e b).atChild x.index fun c _ => c.insert t k v
        | .eq => pure (some e.value, x.pair a { e with value := v } b)
        | .gt => (x.pair a e b).atChild (x.index + 1) fun c _ => c.insert t k v).after
        [.splitChild x.index a.entries.length b.entries.length] := by
  have hset : (x.pair a e b).entries.set x.index { e with value := v } =
      (x.pair a { e with value := v } b).entries := by
    simp [Context.pair, Context.index]
  rw [insert_plug ht hw hasc hb, if_pos hc, splitChild_plug x hs, Edit.done_bind]
  simp only [x.access_entries_pair, Edit.liftM_ok, Edit.done_bind, Edit.after_nil, hset]
  rfl

/-- What is derived below a sound node is what the insertion does. -/
theorem insert_of_inserts {n m : Node κ ν} {o : Option ν} {es : List Event}
    (hi : Inserts t k v n o m es) (ht : 2 ≤ t) (hw : n.isLeaf = false → InWord t)
    (hn : n.Levelled (Occupied t) h) (hasc : Ascending n.toList) :
    n.insert t k v = .done (o, m) es := by
  induction hi generalizing h with
  | replace he => exact insert_replace hasc he
  | @leaf l r hb =>
    obtain ⟨i, hsearch, hi⟩ := search_gap (ascending_entries hasc) hb
    rw [insert_eq, hsearch]
    simp [isLeaf, hi, insertIdx_length_append]
  | @descend x c d o es hb hc hi ih =>
    obtain ⟨g, rfl, -, hcf⟩ := Context.levelled_plug_iff.1 hn
    have hw : InWord t := hw (Context.isLeaf_plug _ _)
    rw [insert_plug (by omega) hw hasc hb, if_neg (Nat.not_le.2 hc)]
    exact Context.atChild_plug (ih (fun _ => hw) hcf.levelled (Context.ascending_child hasc))
  | @splitLeft x c a b d e o es hb hc hs hk hi ih =>
    obtain ⟨g, rfl, -, hcf⟩ := Context.levelled_plug_iff.1 hn
    obtain ⟨rfl, ha, hbf, -, -⟩ := split_full (by omega) hcf hc hs
    have hasc' := Context.ascending_child hasc
    rw [toList_append e ha.levelled hbf.levelled, ascending_append] at hasc'
    have hw : InWord t := hw (Context.isLeaf_plug _ _)
    rw [insert_plug_of_split (by omega) hw hasc hb hc hs, hk]
    simp only [Context.atChild_pair_left (ih (fun _ => hw) ha.levelled hasc'.1), Edit.done_after]
    rfl
  | @splitMedian x c a b e hb hc hs hk =>
    have hw : InWord t := hw (Context.isLeaf_plug _ _)
    rw [insert_plug_of_split (by omega) hw hasc hb hc hs, hk]
    rfl
  | @splitRight x c a b d e o es hb hc hs hk hi ih =>
    obtain ⟨g, rfl, -, hcf⟩ := Context.levelled_plug_iff.1 hn
    obtain ⟨rfl, ha, hbf, -, -⟩ := split_full (by omega) hcf hc hs
    have hasc' := Context.ascending_child hasc
    rw [toList_append e ha.levelled hbf.levelled, ascending_append, ascending_cons] at hasc'
    have hw : InWord t := hw (Context.isLeaf_plug _ _)
    rw [insert_plug_of_split (by omega) hw hasc hb hc hs, hk]
    simp only [Context.atChild_pair_right (ih (fun _ => hw) hbf.levelled hasc'.2.1.2),
      Edit.done_after]
    rfl

/-- Below a sound node there is a derivation for every key. -/
theorem exists_inserts (ht : 2 ≤ t) (k : κ) (v : ν) {n : Node κ ν}
    (hn : n.Levelled (Occupied t) h) (hasc : Ascending n.toList) :
    ∃ o m es, Inserts t k v n o m es := by
  induction h generalizing n with
  | zero => cases hn
  | succ h ih =>
    have hreach := search_reached hn hasc k
    generalize search Entry.key n.entries k = pos at hreach
    cases hreach with
    | @hit _ _ l r e i hes hi he =>
      obtain ⟨es, cs⟩ := n
      obtain rfl : es = l ++ e :: r := hes
      exact ⟨_, _, _, .replace he⟩
    | miss hi hb => exact ⟨_, _, _, .leaf hb⟩
    | @child g x c i hi hb hx hc =>
      have hasc' := Context.ascending_child hasc
      by_cases hfull : 2 * t - 1 ≤ c.entries.length
      · obtain ⟨a, e, b, hs, rfl, ha, hb', -, -⟩ := exists_split_full (by omega) hc hfull
        rw [toList_append e ha.levelled hb'.levelled, ascending_append, ascending_cons] at hasc'
        cases hk : compare k e.key with
        | lt =>
          obtain ⟨o, d, es, hd⟩ := ih ha.levelled hasc'.1
          exact ⟨o, _, _, .splitLeft hb hfull hs hk hd⟩
        | eq => exact ⟨_, _, _, .splitMedian hb hfull hs hk⟩
        | gt =>
          obtain ⟨o, d, es, hd⟩ := ih hb'.levelled hasc'.2.1.2
          exact ⟨o, _, _, .splitRight hb hfull hs hk hd⟩
      · obtain ⟨o, d, es, hd⟩ := ih hc.levelled hasc'
        exact ⟨o, _, _, .descend hb (Nat.not_le.1 hfull) hd⟩

/-- An insertion below a sound node is one of those derived, or would have to go down while the double
of the degree fits no word. -/
theorem insert_cases (ht : 2 ≤ t) (k : κ) (v : ν) {n : Node κ ν} (hn : n.Levelled (Occupied t) h)
    (hasc : Ascending n.toList) :
    (∃ o m es, Inserts t k v n o m es ∧ n.insert t k v = .done (o, m) es) ∨
      ((n.isLeaf = false ∧ ¬ InWord t) ∧ n.insert t k v = .fault .overflow) := by
  obtain ⟨o, m, es, hi⟩ := exists_inserts ht k v hn hasc
  by_cases hfits : n.isLeaf = false → InWord t
  · exact .inl ⟨o, m, es, hi, insert_of_inserts hi ht hfits hn hasc⟩
  · obtain ⟨hleaf, hw⟩ := Classical.not_imp.1 hfits
    cases hi with
    | replace he => exact .inl ⟨_, _, _, .replace he, insert_replace hasc he⟩
    | leaf hb => cases hleaf
    | descend hb hc hi => exact .inr ⟨⟨hleaf, hw⟩, insert_overflows hw hasc hb⟩
    | splitLeft hb hc hs hk hi => exact .inr ⟨⟨hleaf, hw⟩, insert_overflows hw hasc hb⟩
    | splitMedian hb hc hs hk => exact .inr ⟨⟨hleaf, hw⟩, insert_overflows hw hasc hb⟩
    | splitRight hb hc hs hk hi => exact .inr ⟨⟨hleaf, hw⟩, insert_overflows hw hasc hb⟩

end Node

/-! ## What every insertion keeps -/

namespace Inserts

variable {t h : Nat} {k : κ} {v : ν} {n m : Node κ ν} {o : Option ν} {es : List Event}

/-- The node gains at most one entry, and only if it has room no node gets too many. -/
theorem levelled (hi : Inserts t k v n o m es) (ht : 2 ≤ t) (hn : n.Levelled (Occupied t) h) :
    m.Levelled (Occupied t) h ∧
      n.entries.length ≤ m.entries.length ∧ m.entries.length ≤ n.entries.length + 1 := by
  induction hi generalizing h with
  | @replace l r e cs he =>
    exact ⟨hn.exchange _, by simp, by simp⟩
  | @leaf l r hb =>
    have hbefore : (l ++ r).length = l.length + r.length := List.length_append
    have hafter : (l ++ ⟨k, v⟩ :: r).length = l.length + (r.length + 1) := List.length_append
    refine ⟨?_, ?_⟩
    · rcases hn.cases with ⟨rfl, -⟩ | ⟨g, rfl, hlen, -⟩
      · exact Node.levelled_one_iff.2 rfl
      · simp at hlen
    · rw [hbefore, hafter]
      omega
  | @descend x c d o es hb hc hi ih =>
    obtain ⟨g, rfl, hx, hcf⟩ := Context.levelled_plug_iff.1 hn
    obtain ⟨hd, hle, hle'⟩ := ih hcf.levelled
    have hbefore := x.length_entries_plug c
    have hafter := x.length_entries_plug d
    refine ⟨?_, by omega, by omega⟩
    exact Context.levelled_plug_iff.2 ⟨g, rfl, hx, hcf.of_gain hc hd hle hle'⟩
  | @splitLeft x c a b d e o es hb hc hs hk hi ih =>
    obtain ⟨g, rfl, hx, hcf⟩ := Context.levelled_plug_iff.1 hn
    obtain ⟨-, ha, hb, halen, -⟩ := Node.split_full (by omega) hcf hc hs
    obtain ⟨hd, hle, hle'⟩ := ih ha.levelled
    have hbefore := x.length_entries_plug c
    have hafter := x.length_entries_pair d b e
    refine ⟨?_, by omega, by omega⟩
    exact Context.levelled_pair_iff.2 ⟨g, rfl, hx, ha.of_gain (by omega) hd hle hle', hb⟩
  | @splitMedian x c a b e hb hc hs hk =>
    obtain ⟨g, rfl, hx, hcf⟩ := Context.levelled_plug_iff.1 hn
    obtain ⟨-, ha, hb, -, -⟩ := Node.split_full (by omega) hcf hc hs
    have hbefore := x.length_entries_plug c
    have hafter := x.length_entries_pair a b { e with value := v }
    refine ⟨?_, by omega, by omega⟩
    exact Context.levelled_pair_iff.2 ⟨g, rfl, hx, ha, hb⟩
  | @splitRight x c a b d e o es hb hc hs hk hi ih =>
    obtain ⟨g, rfl, hx, hcf⟩ := Context.levelled_plug_iff.1 hn
    obtain ⟨-, ha, hb, -, hblen⟩ := Node.split_full (by omega) hcf hc hs
    obtain ⟨hd, hle, hle'⟩ := ih hb.levelled
    have hbefore := x.length_entries_plug c
    have hafter := x.length_entries_pair a d e
    refine ⟨?_, by omega, by omega⟩
    exact Context.levelled_pair_iff.2 ⟨g, rfl, hx, ha, hb.of_gain (by omega) hd hle hle'⟩

/-- The answer is the value that the key had, and the entries are those of the list model. -/
theorem answer_eq [Std.TransOrd κ] (hi : Inserts t k v n o m es) (ht : 2 ≤ t)
    (hn : n.Levelled (Occupied t) h) (hasc : Ascending n.toList) :
    o = (Association.find? k n.toList).map Entry.value ∧
      m.toList = Association.insert k v n.toList := by
  induction hi generalizing h with
  | @replace l r e cs he =>
    obtain ⟨p, q, hpq⟩ := hn.exists_toList_eq
    have hb : Brackets p q k := brackets_of_eq (hpq e ▸ hasc) he
    rw [hpq, hpq, Association.find?_at hb he, Association.insert_at hb he]
    exact ⟨rfl, rfl⟩
  | leaf hb =>
    rw [Node.toList_childless, Node.toList_childless, Association.find?_eq_none_of_brackets hb,
      Association.insert_of_brackets hb]
    exact ⟨rfl, rfl⟩
  | @descend x c d o es hb hc hi ih =>
    obtain ⟨g, rfl, hx, hcf⟩ := Context.levelled_plug_iff.1 hn
    have hb' : Brackets x.before x.after k := Context.brackets hasc hb
    obtain ⟨ho, hd⟩ := ih hcf.levelled (Context.ascending_child hasc)
    rw [Association.find?_plug hb']
    exact ⟨ho, Association.insert_plug hb' hd⟩
  | @splitLeft x c a b d e o es hb hc hs hk hi ih =>
    obtain ⟨g, rfl, hx, hcf⟩ := Context.levelled_plug_iff.1 hn
    obtain ⟨rfl, ha, hbf, -, -⟩ := Node.split_full (by omega) hcf hc hs
    -- the median and the right half read as if they stood right of the gap from the start
    rw [Node.toList_plug_append x e ha.levelled hbf.levelled, ← x.hold_plug] at hasc ⊢
    have hb' : Brackets (x.hold e b).before (x.hold e b).after k :=
      Context.brackets hasc (hb.hold hk)
    obtain ⟨ho, hd⟩ := ih ha.levelled (Context.ascending_child hasc)
    rw [Association.find?_plug hb', ← x.hold_plug]
    exact ⟨ho, Association.insert_plug hb' hd⟩
  | @splitMedian x c a b e hb hc hs hk =>
    obtain ⟨g, rfl, hx, hcf⟩ := Context.levelled_plug_iff.1 hn
    obtain ⟨rfl, ha, hbf, -, -⟩ := Node.split_full (by omega) hcf hc hs
    rw [Node.toList_plug_append x e ha.levelled hbf.levelled] at hasc ⊢
    rw [Association.find?_pair hasc hk]
    exact ⟨rfl, Association.insert_pair hasc hk⟩
  | @splitRight x c a b d e o es hb hc hs hk hi ih =>
    obtain ⟨g, rfl, hx, hcf⟩ := Context.levelled_plug_iff.1 hn
    obtain ⟨rfl, ha, hbf, -, -⟩ := Node.split_full (by omega) hcf hc hs
    rw [Node.toList_plug_append x e ha.levelled hbf.levelled, ← x.skip_plug] at hasc ⊢
    have hb' : Brackets (x.skip a e).before (x.skip a e).after k :=
      Context.brackets hasc (hb.skip (Std.OrientedCmp.lt_of_gt hk))
    obtain ⟨ho, hd⟩ := ih hbf.levelled (Context.ascending_child hasc)
    rw [Association.find?_plug hb', ← x.skip_plug]
    exact ⟨ho, Association.insert_plug hb' hd⟩

end Inserts

end BTree
