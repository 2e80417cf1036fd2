import BTree.Proofs.SinglePass

/-!
# Changes at exact thresholds

The tests that a change of structure hangs on are inequalities, and yet every change happens at one
number of entries: a full node is never fuller than full, and a child that has no entry to spare is
never short of the fewest it may hold.  `t.Due u e` lists what the update `u` of the tree `t` may emit,
with the condition under which it does:

    t.update u = done (a, s) es  →  ∀ e ∈ es, t.Due u e     (Reachable.thresholds)
-/

namespace BTree

variable {κ ν : Type}

/-- The event of a merge tells of as many entries as the node has that the merge makes. -/
theorem Node.length_of_mergeChildren {n m : Node κ ν} {i j l r : Nat} {es : List Event}
    (h : n.mergeChildren i = .done m es) (he : .mergeChildren j l r ∈ es) :
    ∃ c, m.children[j]? = some c ∧ c.entries.length = l + 1 + r := by
  simp only [mergeChildren, Edit.liftM_bind_eq_done_iff, access_eq_ok_iff] at h
  obtain ⟨e, -, b, hb, a, ha, h⟩ := h
  cases h
  cases List.mem_singleton.1 he
  obtain ⟨hi, -⟩ := List.getElem?_eq_some_iff.1 hb
  refine ⟨a.append e b, List.getElem?_set_self ?_, ?_⟩
  · rw [List.length_eraseIdx_of_lt hi]
    omega
  · rw [length_entries_append]
    omega

/-- What the update does to the root, if it is a removal. -/
def Update.take? [Ord κ] (d : Degree) :
    Update κ ν → Option (Node κ ν → Edit (Option (Entry κ ν) × Node κ ν))
  | .remove k => some (Node.remove d.least k)
  | .removeEntry k => some (Node.remove d.least k)
  | .pop e => some (Node.pop e d.least)
  | .insert _ _ => none
  | .store _ _ => none
  | .clear => none
  | .extend _ => none

namespace Tree

variable [Ord κ]

/-- The update `u` of `t` inserts `v` under `k` into `r`, which is `t` itself or comes from it by the
insertions before. -/
inductive Meets (t : Tree κ ν) : Update κ ν → κ → ν → Tree κ ν → Prop
  | insert {k : κ} {v : ν} : Meets t (.insert k v) k v t
  | extend {ps qs : List (κ × ν)} {k : κ} {v : ν} {r : Tree κ ν} (hr : (t.insertMany ps).Yields r) :
      Meets t (.extend (ps ++ (k, v) :: qs)) k v r

/-- `t.Due u e`: the update `u` of `t` may emit `e`. -/
inductive Due (t : Tree κ ν) (u : Update κ ν) : Event → Prop
  /-- A new key meets a full root. -/
  | splitRoot {k : κ} {v : ν} {r : Tree κ ν} {root : Node κ ν} (hu : t.Meets u k v r)
      (hk : r.contains k = false) (hroot : r.root = some root)
      (hfull : root.entries.length = 2 * t.degree.least - 1) : Due t u (.splitRoot r.size)
  /-- A new key meets a full child, of which the halves hold the fewest entries allowed. -/
  | splitChild {k : κ} {v : ν} {r : Tree κ ν} {e : Event} (hu : t.Meets u k v r)
      (hk : r.contains k = false) (he : e.Splits t.degree.minEntries) : Due t u e
  /-- A removal comes to a child with the fewest entries allowed, which is joined with another such
  child or takes an entry over. -/
  | repair {take : Node κ ν → Edit (Option (Entry κ ν) × Node κ ν)} {e : Event}
      (hu : u.take? t.degree = some take) (he : e.Repairs t.degree.minEntries) : Due t u e
  /-- A removal leaves the root without entries. -/
  | shrinkRoot {take : Node κ ν → Edit (Option (Entry κ ν) × Node κ ν)} {root m : Node κ ν}
      {o : Option (Entry κ ν)} {es : List Event} (hu : u.take? t.degree = some take)
      (hroot : t.root = some root) (htake : take root = .done (o, m) es) (hm : m.entries = []) :
      Due t u (.shrinkRoot ((m.children.head?.map Node.height).getD 0))
  | clear (hu : u = .clear) : Due t u (.clear t.size)

/-! ## Lemmas -/

section
variable {t s : Tree κ ν} {u w : Update κ ν} {e : Event}

/-- What may be emitted by insertions that are part of more may be emitted by all of them. -/
theorem Due.of_meets (he : s.Due u e) (hmeets : ∀ k v r, s.Meets u k v r → t.Meets w k v r)
    (hdegree : s.degree = t.degree) (hu : u.take? s.degree = none) (hclear : u ≠ .clear) :
    t.Due w e := by
  cases he with
  | splitRoot hm hk hroot hfull => exact .splitRoot (hmeets _ _ _ hm) hk hroot (hdegree ▸ hfull)
  | splitChild hm hk he => exact .splitChild (hmeets _ _ _ hm) hk (hdegree ▸ he)
  | repair htake he => cases hu.symm.trans htake
  | shrinkRoot htake hroot hm => cases hu.symm.trans htake
  | clear hu => exact absurd hu hclear

/-! ### Removals -/

/-- The removals differ in what they take from the root, and in how they put the answer. -/
theorem exists_removing {take : Node κ ν → Edit (Option (Entry κ ν) × Node κ ν)}
    (hu : u.take? t.degree = some take) :
    ∃ answer : Option (Entry κ ν) → Answer κ ν,
      t.update u = t.removing take >>= fun r => pure (answer r.1, r.2) := by
  cases u with
  | remove k =>
    cases hu
    refine ⟨fun o => .value (o.map Entry.value), ?_⟩
    simp only [update, remove, removeEntry, bind_assoc, pure_bind]
  | removeEntry k =>
    cases hu
    exact ⟨.entry, rfl⟩
  | pop e =>
    cases hu
    exact ⟨.entry, by rw [← pop_eq_removing]; rfl⟩
  | insert | store | clear | extend => cases hu

theorem due_of_removing {take : Node κ ν → Edit (Option (Entry κ ν) × Node κ ν)}
    {o : Option (Entry κ ν)} {es : List Event} (hu : u.take? t.degree = some take)
    (hpass : t.Passes take) (heq : t.removing take = .done (o, s) es) : ∀ e ∈ es, t.Due u e := by
  rcases removing_trail heq with rfl | ⟨root, p, m, fs, gs, hroot, htake, rfl, hgs⟩
  · simp
  · have hfs := hpass root _ fs hroot htake
    refine List.forall_mem_append.2 ⟨fun e he => .repair hu (hfs.each e he), ?_⟩
    rcases hgs with rfl | ⟨hm, rfl⟩
    · simp
    · exact List.forall_mem_singleton.2 (.shrinkRoot hu hroot htake hm)

/-! ### Insertions -/

variable [Std.TransOrd κ]

theorem contains_eq_false (h : t.Sound) {k : κ} (hk : Association.find? k t.toList = none) :
    t.contains k = false := by
  rw [contains, get?, h.entry?_eq, hk]
  rfl

theorem insert_due {k : κ} {v : ν} {o : Option ν} {es : List Event} (h : t.Sound)
    (hs : t.insert k v = .done (o, s) es) : ∀ e ∈ es, t.Due (.insert k v) e := by
  rcases (h.of_insert hs).1.trail h with rfl | ⟨hfind, root, fs, gs, hroot, rfl, hfs, hgs, -⟩
  · simp
  · have hk := contains_eq_false h hfind
    refine List.forall_mem_append.2 ⟨?_, fun e he => .splitChild .insert hk (hgs e he)⟩
    rcases hfs with rfl | ⟨hfull, rfl⟩
    · simp
    · exact List.forall_mem_singleton.2 (.splitRoot .insert hk hroot hfull)

theorem insertMany_due {ps : List (κ × ν)} {es : List Event} (h : t.Sound)
    (hs : t.insertMany ps = .done s es) : ∀ e ∈ es, t.Due (.extend ps) e := by
  induction ps generalizing t es with
  | nil =>
    obtain ⟨-, rfl⟩ := Edit.done.inj hs
    simp
  | cons p ps ih =>
    obtain ⟨k, v⟩ := p
    obtain ⟨⟨o, r⟩, fs, gs, hr, hrest, rfl⟩ := Edit.bind_eq_done_iff.1 hs
    obtain ⟨-, hsound, hdegree, -⟩ := h.of_insert hr
    have hinsert (qs : List (κ × ν)) : t.insertMany ((k, v) :: qs) = (r.insertMany qs).after fs := by
      simp only [insertMany, hr, Edit.done_bind]
    refine List.forall_mem_append.2 ⟨fun e he => ?_, fun e he => ?_⟩
    · refine (insert_due h hr e he).of_meets (fun k' v' r' hm => ?_) rfl rfl (by simp)
      cases hm
      show t.Meets (.extend ([] ++ (k, v) :: ps)) k v t
      exact .extend ⟨[], rfl⟩
    · refine (ih hsound hrest e he).of_meets (fun k' v' r' hm => ?_) hdegree rfl (by simp)
      cases hm with
      | @extend qs rs k' v' r' hr' =>
        obtain ⟨ns, hr'⟩ := hr'
        show t.Meets (.extend (((k, v) :: qs) ++ (k', v') :: rs)) k' v' r'
        exact .extend ⟨fs ++ ns, by rw [hinsert, hr', Edit.done_after]⟩

/-! ### Reachable trees -/

theorem passes_of_take (h : t.Sound) {take : Node κ ν → Edit (Option (Entry κ ν) × Node κ ν)}
    (hu : u.take? t.degree = some take) : t.Passes take := by
  cases u with
  | remove k =>
    cases hu
    exact h.passes_remove k
  | removeEntry k =>
    cases hu
    exact h.passes_remove k
  | pop e =>
    cases hu
    exact h.passes_pop e
  | insert | store | clear | extend => cases hu

theorem update_due {a : Answer κ ν} {es : List Event} (h : t.Sound)
    (hs : t.update u = .done (a, s) es) : ∀ e ∈ es, t.Due u e := by
  cases hu : u.take? t.degree with
  | some take =>
    obtain ⟨answer, hupdate⟩ := exists_removing hu
    obtain ⟨o, -, hremove⟩ := Edit.answer_eq_done answer (hupdate.symm.trans hs)
    exact due_of_removing hu (passes_of_take h hu) hremove
  | none =>
    cases u with
    | insert k v =>
      obtain ⟨o, -, hs⟩ := Edit.answer_eq_done Answer.value hs
      exact insert_due h hs
    | store k v =>
      rcases store?_spec h k v with ⟨e, r, -, -, heq, -⟩ | ⟨-, heq⟩
      · rw [update, heq] at hs
        cases hs
        simp
      · rw [update, heq] at hs
        cases hs
        simp
    | clear =>
      cases hs
      exact List.forall_mem_singleton.2 (.clear rfl)
    | extend ps =>
      obtain ⟨r, fs, gs, hr, hpure, rfl⟩ := Edit.bind_eq_done_iff.1 hs
      cases hpure
      rw [List.append_nil]
      exact insertMany_due h hr
    | remove | removeEntry | pop => cases hu

/-- Whatever update is run on a reachable tree, it changes the structure just where a number of entries
is at its bound; and it ends as long as the double of the degree fits a word.  A merge that tells of
two children of the fewest entries allowed makes a full one. -/
theorem Reachable.thresholds (h : t.Reachable) (u : Update κ ν) :
    (InWord t.degree.least → ∃ a s es, t.update u = .done (a, s) es) ∧
    (∀ a s es, t.update u = .done (a, s) es → ∀ e ∈ es, t.Due u e) ∧
    ∀ (n m : Node κ ν) (i j : Nat) (es : List Event), n.mergeChildren i = .done m es →
      .mergeChildren j t.degree.minEntries t.degree.minEntries ∈ es →
      ∃ c, m.children[j]? = some c ∧ c.entries.length = 2 * t.degree.least - 1 := by
  refine ⟨fun hw => ?_, fun a s es => update_due h.sound, fun n m i j es hm he => ?_⟩
  · obtain ⟨s, es, heq, -⟩ := update_spec h.sound hw u
    exact ⟨_, s, es, heq⟩
  · obtain ⟨c, hc, hlen⟩ := Node.length_of_mergeChildren hm he
    have htwo := t.degree.two_le
    refine ⟨c, hc, ?_⟩
    rw [hlen, Degree.minEntries]
    omega

/-- The root holds three entries and its first child too, and a new key is to go below both. -/
theorem thresholds_of_brimful :
    (∃ a s, brimful.update (.insert ⟨"a"⟩ 0) = .done (a, s) [.splitRoot 10, .splitChild 0 1 1]) ∧
      brimful.Due (.insert ⟨"a"⟩ 0) (.splitRoot 10) ∧
      brimful.Due (.insert ⟨"a"⟩ 0) (.splitChild 0 1 1) := by
  obtain ⟨hends, hdue, -⟩ := brimful_reachable.thresholds (.insert ⟨"a"⟩ 0)
  obtain ⟨a, s, es, heq⟩ := hends (by decide)
  have hdue := hdue a s es heq
  have htrail : (brimful.update (.insert ⟨"a"⟩ 0)).trail = [.splitRoot 10, .splitChild 0 1 1] := by
    cbv
  rw [heq] at htrail
  obtain rfl : es = [.splitRoot 10, .splitChild 0 1 1] := htrail
  exact ⟨⟨a, s, heq⟩, hdue _ (by simp), hdue _ (by simp)⟩

end

end Tree

end BTree
