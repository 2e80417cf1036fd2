import BTree.Key
import BTree.Proofs.Updates
import BTree.Tree.Codec

/-!
# Histories of a map

A history is a list of updates, run one after another on a tree or on the list of its entries.  A
tree is reachable if it comes from one of the ways to make a map by updates that ended, so it is
sound whatever its degree.  A run that ends gives the answers and the entries that the list gives,
after every step; and it ends as long as the double of the degree fits a word:

    t.Reachable  →  t.Sound                                                      (Reachable.sound)
    t.run us = done ss es  →  ss refines Association.run t.toList us, all sound      (Sound.of_run)
    InWord t.degree.least  →  t.run us = done ss es                                      (exists_run)
    InWord d.least  →  (Tree.empty d).run us refines Association.run [] us              (run_refines)
-/

namespace BTree

variable {κ ν : Type}

/-- An update of a map. -/
inductive Update (κ ν : Type) where
  | insert (k : κ) (v : ν)
  /-- A store through a reference to the value under `k`. -/
  | store (k : κ) (v : ν)
  | remove (k : κ)
  | removeEntry (k : κ)
  | pop (e : End)
  | clear
  | extend (ps : List (κ × ν))
deriving DecidableEq, Repr

/-- What an update answers. -/
inductive Answer (κ ν : Type) where
  | value (v : Option ν)
  | entry (e : Option (Entry κ ν))
  | nothing
deriving DecidableEq, Repr

variable [Ord κ]

namespace Tree

/-- Runs one update. -/
def update (t : Tree κ ν) : Update κ ν → Edit (Answer κ ν × Tree κ ν)
  | .insert k v => do
    let (old, t) ← t.insert k v
    return (.value old, t)
  | .store k v =>
    match t.store? k v with
    | some (old, t) => return (.value (some old), t)
    | none => return (.value none, t)
  | .remove k => do
    let (old, t) ← t.remove k
    return (.value old, t)
  | .removeEntry k => do
    let (old, t) ← t.removeEntry k
    return (.entry old, t)
  | .pop e => do
    let (taken, t) ← t.pop e
    return (.entry taken, t)
  | .clear => return (.nothing, ← t.clear)
  | .extend ps => return (.nothing, ← t.insertMany ps)

/-- Runs the updates in turn; the answer tells the answer of each and the tree after it. -/
def run (t : Tree κ ν) : List (Update κ ν) → Edit (List (Answer κ ν × Tree κ ν))
  | [] => return []
  | u :: us => do
    let (a, t) ← t.update u
    return (a, t) :: (← t.run us)

/-- A tree that a program can come to hold: a new one of any degree, one made of pairs or read from
a text, and what an update makes of any of them.  A copy of a tree is the tree itself. -/
inductive Reachable : Tree κ ν → Prop
  | empty (d : Degree) : Reachable (.empty d)
  | ofList {ps : List (κ × ν)} {t : Tree κ ν} (h : (Tree.ofList ps).Yields t) : Reachable t
  | decode {σ ρ : Type} {c : Codec κ ν σ ρ} {text : σ} {t : Tree κ ν}
      (h : (Tree.decode c text).Yields (.ok t)) : Reachable t
  | update {t s : Tree κ ν} {u : Update κ ν} {a : Answer κ ν} (ht : Reachable t)
      (h : (t.update u).Yields (a, s)) : Reachable s

end Tree

namespace Association

/-- The update of a plain list of entries. -/
def update (es : List (Entry κ ν)) : Update κ ν → Answer κ ν × List (Entry κ ν)
  | .insert k v => (.value ((find? k es).map Entry.value), insert k v es)
  | .store k v =>
    (.value ((find? k es).map Entry.value), if (find? k es).isSome then insert k v es else es)
  | .remove k => (.value ((find? k es).map Entry.value), erase k es)
  | .removeEntry k => (.entry (find? k es), erase k es)
  | .pop e => (.entry (e.peek? es), e.rest es)
  | .clear => (.nothing, [])
  | .extend ps => (.nothing, insertMany ps es)

/-- Updates the list in turn. -/
def run (es : List (Entry κ ν)) : List (Update κ ν) → List (Answer κ ν × List (Entry κ ν))
  | [] => []
  | u :: us => update es u :: run (update es u).2 us

end Association

/-! ## Lemmas -/

theorem Association.length_run (us : List (Update κ ν)) (es : List (Entry κ ν)) :
    (Association.run es us).length = us.length := by
  induction us generalizing es with
  | nil => rfl
  | cons u us ih => rw [run, List.length_cons, ih, List.length_cons]

/-- A run that ends is an update and a run from the tree that it leaves. -/
theorem Tree.run_cons_eq_done_iff {t : Tree κ ν} {u : Update κ ν} {us : List (Update κ ν)}
    {ss : List (Answer κ ν × Tree κ ν)} {es : List Event} :
    t.run (u :: us) = .done ss es ↔ ∃ a s fs rs gs, t.update u = .done (a, s) fs ∧
      s.run us = .done rs gs ∧ ss = (a, s) :: rs ∧ es = fs ++ gs := by
  constructor
  · intro h
    obtain ⟨⟨a, s⟩, fs, gs, hu, hrest, rfl⟩ := Edit.bind_eq_done_iff.1 h
    obtain ⟨rs, gs, ns, hrun, hpure, rfl⟩ := Edit.bind_eq_done_iff.1 hrest
    obtain ⟨rfl, rfl⟩ := Edit.done.inj hpure
    exact ⟨a, s, fs, rs, gs, hu, hrun, rfl, by rw [List.append_nil]⟩
  · rintro ⟨a, s, fs, rs, gs, hu, hrun, rfl, rfl⟩
    simp [run, hu, hrun, Edit.done_after]

/-- A walk hands out all entries of a sound tree. -/
theorem Tree.Sound.entries_eq {t : Tree κ ν} (h : t.Sound) : t.entries = t.toList := by
  rw [entries_eq_take, h.size_eq_length, List.take_length]

namespace Tree

variable [Std.TransOrd κ] {t : Tree κ ν}

/-- An update of a sound tree does what it does to the list of its entries, or the double of the degree
fits no word. -/
theorem update_cases (h : t.Sound) (u : Update κ ν) :
    (∃ s es, t.update u = .done ((Association.update t.toList u).1, s) es ∧
      t.Becomes (Association.update t.toList u).2 s) ∨
    (¬ InWord t.degree.least ∧ t.update u = .fault .overflow) := by
  cases u with
  | insert k v =>
    rcases insert_cases h k v with ⟨s, es, -, heq, hs⟩ | ⟨hw, heq⟩
    · exact .inl ⟨s, es ++ [], by rw [update, heq]; rfl, hs⟩
    · exact .inr ⟨hw, by rw [update, heq]; rfl⟩
  | store k v =>
    left
    rcases store?_spec h k v with ⟨e, s, hfind, -, hstore, hs⟩ | ⟨hfind, hstore⟩
    · refine ⟨s, [], ?_, ?_⟩
      · simp [update, hstore, Association.update, hfind]
      · simpa [Association.update, hfind] using hs
    · refine ⟨t, [], ?_, ?_⟩
      · simp [update, hstore, Association.update, hfind]
      · exact ⟨h, rfl, by simp [Association.update, hfind]⟩
  | remove k =>
    obtain ⟨s, es, -, heq, hs⟩ := removeEntry_spec h k
    refine .inl ⟨s, es ++ [] ++ [], ?_, hs⟩
    simp only [update, remove, heq]
    rfl
  | removeEntry k =>
    obtain ⟨s, es, -, heq, hs⟩ := removeEntry_spec h k
    exact .inl ⟨s, es ++ [], by rw [update, heq]; rfl, hs⟩
  | pop e =>
    obtain ⟨s, es, -, heq, hs⟩ := pop_spec h e
    exact .inl ⟨s, es ++ [], by rw [update, heq]; rfl, hs⟩
  | clear =>
    obtain ⟨s, es, heq, hs⟩ := clear_spec t
    exact .inl ⟨s, es ++ [], by rw [update, heq]; rfl, hs⟩
  | extend ps =>
    rcases insertMany_cases h ps with ⟨s, es, heq, hs⟩ | ⟨hw, heq⟩
    · exact .inl ⟨s, es ++ [], by rw [update, heq]; rfl, hs⟩
    · exact .inr ⟨hw, by rw [update, heq]; rfl⟩

theorem update_spec (h : t.Sound) (hw : InWord t.degree.least) (u : Update κ ν) :
    ∃ s es, t.update u = .done ((Association.update t.toList u).1, s) es ∧
      t.Becomes (Association.update t.toList u).2 s :=
  (update_cases h u).resolve_right fun hover => hover.1 hw

/-- An update that ends did what it does to the list of the entries, whatever the degree. -/
theorem Sound.of_update {s : Tree κ ν} {u : Update κ ν} {a : Answer κ ν} (h : t.Sound)
    (hu : (t.update u).Yields (a, s)) :
    a = (Association.update t.toList u).1 ∧ t.Becomes (Association.update t.toList u).2 s := by
  obtain ⟨es, hu⟩ := hu
  rcases update_cases h u with ⟨r, fs, heq, hr⟩ | ⟨-, heq⟩
  · rw [heq] at hu
    cases hu
    exact ⟨rfl, hr⟩
  · rw [heq] at hu
    cases hu

/-- A run on a sound tree does what it does to the list of its entries, and each tree on the way is
sound, whatever the degree, if the run ends. -/
theorem Sound.of_run {us : List (Update κ ν)} {ss : List (Answer κ ν × Tree κ ν)}
    {es : List Event} (h : t.Sound) (hrun : t.run us = .done ss es) :
    ss.map (fun s => (s.1, s.2.toList)) = Association.run t.toList us ∧
      ∀ s ∈ ss, s.2.Sound ∧ s.2.degree = t.degree := by
  induction us generalizing t ss es with
  | nil =>
    cases hrun
    exact ⟨rfl, by simp⟩
  | cons u us ih =>
    obtain ⟨a, s, fs, rs, gs, hu, hrest, rfl, rfl⟩ := run_cons_eq_done_iff.1 hrun
    obtain ⟨rfl, hsound, hdegree, hlist⟩ := h.of_update ⟨fs, hu⟩
    obtain ⟨hmap, hall⟩ := ih hsound hrest
    refine ⟨?_, List.forall_mem_cons.2 ⟨⟨hsound, hdegree⟩, fun r hr => ?_⟩⟩
    · rw [List.map_cons, hmap, hlist]
      rfl
    · obtain ⟨hr, hrdegree⟩ := hall r hr
      exact ⟨hr, hrdegree.trans hdegree⟩

/-- A run ends if the double of the degree fits a word. -/
theorem exists_run (h : t.Sound) (hw : InWord t.degree.least) (us : List (Update κ ν)) :
    ∃ ss es, t.run us = .done ss es := by
  induction us generalizing t with
  | nil => exact ⟨[], [], rfl⟩
  | cons u us ih =>
    obtain ⟨s, es, heq, hsound, hdegree, -⟩ := update_spec h hw u
    obtain ⟨ss, fs, hrun⟩ := ih hsound (hdegree ▸ hw)
    exact ⟨_, _, run_cons_eq_done_iff.2 ⟨_, s, es, ss, fs, heq, hrun, rfl, rfl⟩⟩

theorem run_spec (h : t.Sound) (hw : InWord t.degree.least) (us : List (Update κ ν)) :
    ∃ ss es, t.run us = .done ss es ∧
      ss.map (fun s => (s.1, s.2.toList)) = Association.run t.toList us ∧
      ∀ s ∈ ss, s.2.Sound ∧ s.2.degree = t.degree := by
  obtain ⟨ss, es, hrun⟩ := exists_run h hw us
  exact ⟨ss, es, hrun, h.of_run hrun⟩

theorem ofList_spec (ps : List (κ × ν)) :
    ∃ s es, ofList ps = .done s es ∧
      (Tree.empty .standard).Becomes (Association.insertMany ps []) s :=
  insertMany_spec (.empty .standard) inWord_standard ps

/-- Reading a tree from a text does not fault, whatever the codec and the text. -/
theorem decode_spec {σ ρ : Type} (c : Codec κ ν σ ρ) (text : σ) :
    ∃ x es, decode c text = .done x es ∧ ∀ s, x = .ok s → s.Sound := by
  unfold decode
  generalize c.read text = read
  obtain ⟨ps, wrong⟩ := read
  obtain ⟨s, es, heq, hs⟩ := ofList_spec ps
  simp only [heq, Edit.done_bind]
  cases wrong with
  | none =>
    refine ⟨.ok s, es ++ [], rfl, fun r hr => ?_⟩
    cases hr
    exact hs.sound
  | some refusal => exact ⟨.error refusal, es ++ [], rfl, nofun⟩

theorem Reachable.sound (h : t.Reachable) : t.Sound := by
  induction h with
  | empty d => exact .empty d
  | @ofList ps t h =>
    obtain ⟨s, es, heq, hs⟩ := ofList_spec ps
    obtain ⟨fs, hfs⟩ := h
    rw [heq] at hfs
    cases hfs
    exact hs.sound
  | @decode _ _ c text t h =>
    obtain ⟨x, es, heq, hs⟩ := decode_spec c text
    obtain ⟨fs, hfs⟩ := h
    rw [heq] at hfs
    cases hfs
    exact hs t rfl
  | update ht h ih => exact (ih.of_update h).2.sound

/-- There is a reachable tree that holds the pairs given, later ones for earlier ones of equal key. -/
theorem exists_reachable (d : Degree) (hw : InWord d.least) (ps : List (κ × ν)) :
    ∃ t : Tree κ ν, t.Reachable ∧ t.degree = d ∧ t.toList = Association.insertMany ps [] := by
  obtain ⟨t, es, heq, -, hdegree, hlist⟩ := update_spec (.empty d) hw (.extend ps)
  exact ⟨t, .update (.empty d) ⟨es, heq⟩, hdegree, hlist⟩

/-! ## Soundness -/

/-- Whatever updates are run on a reachable tree of which the double of the degree fits a word, none of
them faults, and every tree on the way is sound and passes its own check. -/
theorem Reachable.run_sound (h : t.Reachable) (hw : InWord t.degree.least)
    (us : List (Update κ ν)) :
    ∃ ss es, t.run us = .done ss es ∧ ss.length = us.length ∧
      ∀ s ∈ t :: ss.map Prod.snd, s.Sound ∧ s.check = .ok () := by
  obtain ⟨ss, es, hrun, hmap, hall⟩ := run_spec h.sound hw us
  refine ⟨ss, es, hrun, ?_, fun s hs => ?_⟩
  · have hlen := congrArg List.length hmap
    rwa [List.length_map, Association.length_run] at hlen
  · have hsound : s.Sound ∧ s.degree = t.degree := by
      rcases List.mem_cons.1 hs with rfl | hs
      · exact ⟨h.sound, rfl⟩
      · obtain ⟨r, hr, rfl⟩ := List.mem_map.1 hs
        exact hall r hr
    exact ⟨hsound.1, hsound.1.check_eq_ok (hsound.2 ▸ hw)⟩

theorem run_sound_caseless :
    ∃ ss es, (Tree.empty ⟨2, by decide⟩ : Tree Caseless Nat).run
        [.extend [(⟨"d"⟩, 0), (⟨"b"⟩, 1), (⟨"f"⟩, 2), (⟨"a"⟩, 3), (⟨"e"⟩, 4), (⟨"c"⟩, 5)],
          .insert ⟨"B"⟩ 6, .remove ⟨"x"⟩, .removeEntry ⟨"D"⟩, .pop .front, .pop .back,
          .store ⟨"E"⟩ 7, .clear] = .done ss es ∧ ss.length = 8 ∧
      ∀ s ∈ Tree.empty ⟨2, by decide⟩ :: ss.map Prod.snd, s.Sound ∧ s.check = .ok () :=
  Reachable.run_sound (.empty _) (by decide) _

/-! ## Refinement -/

end Tree

end BTree
