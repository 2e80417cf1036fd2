import BTree.Proofs.Context

/-!
# Sorted association lists

The plain form of a sorted map: its entries in ascending order, one for each class of equal keys.  A
key that is present keeps its spelling when a new value is put under it.  Between a list below the
key and one above it, each operation works on what lies between, so that on the entries of a node it
works on those of the child in one gap:

    Brackets l r k  →  insert k v (l ++ (m ++ r)) = l ++ (insert k v m ++ r)     (insert_append)
    Brackets x.before x.after k, d.toList = insert k v c.toList
                    →  (x.plug d).toList = insert k v (x.plug c).toList          (insert_plug)
-/

namespace BTree.Association

variable {κ ν : Type} [Ord κ]

/-! ## Operations -/

/-- The entry that holds `k`. -/
def find? (k : κ) (es : List (Entry κ ν)) : Option (Entry κ ν) :=
  es.find? fun e => (compare k e.key).isEq

/-- Puts `v` under `k`: in the entry that holds `k`, or else in a new one at its place. -/
def insert (k : κ) (v : ν) : List (Entry κ ν) → List (Entry κ ν)
  | [] => [⟨k, v⟩]
  | e :: es =>
    match compare k e.key with
    | .lt => ⟨k, v⟩ :: e :: es
    | .eq => { e with value := v } :: es
    | .gt => e :: insert k v es

/-- Inserts the pairs one after another. -/
def insertMany (ps : List (κ × ν)) (es : List (Entry κ ν)) : List (Entry κ ν) :=
  ps.foldl (fun es p => insert p.1 p.2 es) es

/-- Takes out the entry that holds `k`. -/
def erase (k : κ) (es : List (Entry κ ν)) : List (Entry κ ν) :=
  es.eraseP fun e => (compare k e.key).isEq

/-! ## Lemmas -/

variable {k : κ} {v : ν} {e : Entry κ ν} {l m r es : List (Entry κ ν)}

theorem find?_cons_of_eq (he : compare k e.key = .eq) : find? k (e :: es) = some e :=
  List.find?_cons_of_pos (by rw [he]; rfl)

theorem find?_cons_of_ne (he : compare k e.key ≠ .eq) : find? k (e :: es) = find? k es := by
  simp [find?, he]

theorem find?_eq_none_iff : find? k es = none ↔ ∀ e ∈ es, compare k e.key ≠ .eq := by
  simp [find?]

theorem insert_cons_of_eq (he : compare k e.key = .eq) :
    insert k v (e :: es) = { e with value := v } :: es := by
  rw [insert, he]

theorem erase_cons_of_eq (he : compare k e.key = .eq) : erase k (e :: es) = es :=
  List.eraseP_cons_of_pos (by rw [he]; rfl)

theorem erase_cons_of_ne (he : compare k e.key ≠ .eq) : erase k (e :: es) = e :: erase k es := by
  simp [erase, he]

theorem erase_sublist (k : κ) (es : List (Entry κ ν)) : (erase k es).Sublist es :=
  List.eraseP_sublist

theorem ascending_erase (h : Ascending es) : Ascending (erase k es) :=
  h.sublist (erase_sublist k es)

theorem not_isEq_of_above {b : Entry κ ν} (hb : compare k b.key = .lt) :
    ¬ (compare k b.key).isEq := by
  rw [hb]
  decide

/-- An erased entry is counted with those that are left. -/
theorem length_erase (k : κ) (es : List (Entry κ ν)) :
    (erase k es).length + (if (find? k es).isSome then 1 else 0) = es.length := by
  induction es with
  | nil => rfl
  | cons e es ih =>
    by_cases he : compare k e.key = .eq
    · rw [erase_cons_of_eq he, find?_cons_of_eq he]
      rfl
    · rw [erase_cons_of_ne he, find?_cons_of_ne he, List.length_cons, List.length_cons]
      omega

theorem length_insert_of_absent (h : find? k es = none) :
    (insert k v es).length = es.length + 1 := by
  induction es with
  | nil => rfl
  | cons e es ih =>
    rw [insert]
    cases he : compare k e.key with
    | lt => rfl
    | eq =>
      rw [find?_cons_of_eq he] at h
      cases h
    | gt =>
      rw [find?_cons_of_ne (by simp [he])] at h
      simp only [List.length_cons, ih h]

/-- Every key after an insertion is the one put in or one that was there. -/
theorem key_of_mem_insert {b : Entry κ ν} (hb : b ∈ insert k v es) :
    b.key = k ∨ ∃ e ∈ es, b.key = e.key := by
  induction es with
  | nil =>
    rw [insert, List.mem_singleton] at hb
    exact .inl (congrArg Entry.key hb)
  | cons f es ih =>
    rw [insert] at hb
    cases hf : compare k f.key with
    | lt =>
      rw [hf] at hb
      rcases List.mem_cons.1 hb with rfl | hb
      · exact .inl rfl
      · exact .inr ⟨b, hb, rfl⟩
    | eq =>
      rw [hf] at hb
      rcases List.mem_cons.1 hb with rfl | hb
      · exact .inr ⟨f, List.mem_cons_self, rfl⟩
      · exact .inr ⟨b, List.mem_cons_of_mem _ hb, rfl⟩
    | gt =>
      rw [hf] at hb
      rcases List.mem_cons.1 hb with rfl | hb
      · exact .inr ⟨b, List.mem_cons_self, rfl⟩
      · rcases ih hb with hbk | ⟨e, he, hbe⟩
        · exact .inl hbk
        · exact .inr ⟨e, List.mem_cons_of_mem _ he, hbe⟩

/-- The keys that are there keep their spelling. -/
theorem exists_mem_insert (he : e ∈ es) : ∃ f ∈ insert k v es, f.key = e.key := by
  induction es with
  | nil => cases he
  | cons b es ih =>
    rw [insert]
    cases compare k b.key with
    | lt => exact ⟨e, List.mem_cons_of_mem _ he, rfl⟩
    | eq =>
      rcases List.mem_cons.1 he with rfl | he
      · exact ⟨_, List.mem_cons_self, rfl⟩
      · exact ⟨e, List.mem_cons_of_mem _ he, rfl⟩
    | gt =>
      rcases List.mem_cons.1 he with rfl | he
      · exact ⟨e, List.mem_cons_self, rfl⟩
      · obtain ⟨f, hf, hfe⟩ := ih he
        exact ⟨f, List.mem_cons_of_mem _ hf, hfe⟩

theorem insert_append_right (hr : ∀ b ∈ r, compare k b.key = .lt) :
    insert k v (m ++ r) = insert k v m ++ r := by
  induction m with
  | nil =>
    cases r with
    | nil => rfl
    | cons b r =>
      have hb : compare k b.key = .lt := hr b List.mem_cons_self
      rw [List.nil_append, insert, insert]
      simp only [hb]
      rfl
  | cons e m ih =>
    rw [List.cons_append, insert, insert]
    cases compare k e.key with
    | lt => rfl
    | eq => rfl
    | gt =>
      simp only [List.cons_append]
      rw [ih]

theorem insertMany_cons (k : κ) (v : ν) (ps : List (κ × ν)) (es : List (Entry κ ν)) :
    insertMany ((k, v) :: ps) es = insertMany ps (insert k v es) := rfl

theorem insertMany_append (ps qs : List (κ × ν)) (es : List (Entry κ ν)) :
    insertMany (ps ++ qs) es = insertMany qs (insertMany ps es) := List.foldl_append

theorem exists_mem_insertMany (ps : List (κ × ν)) (he : e ∈ es) :
    ∃ f ∈ insertMany ps es, f.key = e.key := by
  induction ps generalizing es e with
  | nil => exact ⟨e, he, rfl⟩
  | cons p ps ih =>
    obtain ⟨f, hf, hfe⟩ := exists_mem_insert (k := p.1) (v := p.2) he
    obtain ⟨g, hg, hgf⟩ := ih hf
    exact ⟨g, hg, hgf.trans hfe⟩

section
variable [Std.TransOrd κ]

theorem not_isEq_of_below {a : Entry κ ν} (ha : compare a.key k = .lt) :
    ¬ (compare k a.key).isEq := by
  have hgt : compare k a.key = .gt := Std.OrientedCmp.gt_of_lt ha
  rw [hgt]
  decide

theorem find?_key_cons (e : Entry κ ν) (es : List (Entry κ ν)) :
    find? e.key (e :: es) = some e :=
  find?_cons_of_eq Std.ReflCmp.compare_self

theorem find?_append (h : Brackets l r k) : find? k (l ++ (m ++ r)) = find? k m := by
  have hl : find? k l = none := List.find?_eq_none.2 fun a ha => not_isEq_of_below (h.below a ha)
  have hr : find? k r = none := List.find?_eq_none.2 fun b hb => not_isEq_of_above (h.above b hb)
  simp only [find?] at hl hr ⊢
  rw [List.find?_append, List.find?_append, hl, hr, Option.none_or, Option.or_none]

theorem find?_eq_none_of_brackets (h : Brackets l r k) : find? k (l ++ r) = none := by
  have := find?_append (m := []) h
  rwa [List.nil_append] at this

theorem find?_eq_none_of_above (h : ∀ b ∈ es, compare k b.key = .lt) : find? k es = none :=
  find?_eq_none_of_brackets (l := []) ⟨by simp, h⟩

theorem erase_append (h : Brackets l r k) : erase k (l ++ (m ++ r)) = l ++ (erase k m ++ r) := by
  unfold erase
  rw [List.eraseP_append_right _ fun a ha => not_isEq_of_below (h.below a ha)]
  by_cases hm : m.any fun e => (compare k e.key).isEq
  · obtain ⟨e, he, heq⟩ := List.any_eq_true.1 hm
    rw [List.eraseP_append_left (p := fun e => (compare k e.key).isEq) heq _ he]
  · have hm' : ∀ e ∈ m, ¬ (compare k e.key).isEq := by simpa using hm
    rw [List.eraseP_append_right _ hm', List.eraseP_of_forall_not hm',
      List.eraseP_of_forall_not fun b hb => not_isEq_of_above (h.above b hb)]

theorem erase_eq_self_of_brackets (h : Brackets l r k) : erase k (l ++ r) = l ++ r := by
  have := erase_append (m := []) h
  rwa [List.nil_append] at this

theorem insert_append_left (hl : ∀ a ∈ l, compare a.key k = .lt) :
    insert k v (l ++ m) = l ++ insert k v m := by
  induction l with
  | nil => rfl
  | cons a l ih =>
    have ha : compare k a.key = .gt := Std.OrientedCmp.gt_of_lt (hl a List.mem_cons_self)
    rw [List.cons_append, insert, ha]
    simp only [List.cons_append]
    rw [ih fun b hb => hl b (List.mem_cons_of_mem _ hb)]

theorem insert_append (h : Brackets l r k) :
    insert k v (l ++ (m ++ r)) = l ++ (insert k v m ++ r) := by
  rw [insert_append_left h.below, insert_append_right h.above]

/-- A key that is absent gets a new entry at its place. -/
theorem insert_of_brackets (h : Brackets l r k) : insert k v (l ++ r) = l ++ ⟨k, v⟩ :: r := by
  have := insert_append (m := []) (v := v) h
  rwa [List.nil_append] at this

section
variable {p : Entry κ ν} (hb : Brackets l r k) (hp : compare k p.key = .eq)
include hb hp

theorem find?_at : find? k (l ++ p :: r) = some p := by
  have := find?_append (m := [p]) hb
  rwa [List.singleton_append, find?_cons_of_eq hp] at this

/-- A key that is present gets the new value in place. -/
theorem insert_at : insert k v (l ++ p :: r) = l ++ { p with value := v } :: r := by
  have := insert_append (m := [p]) (v := v) hb
  rwa [List.singleton_append, insert_cons_of_eq hp, List.singleton_append] at this

theorem erase_at : erase k (l ++ p :: r) = l ++ r := by
  have := erase_append (m := [p]) hb
  rwa [List.singleton_append, erase_cons_of_eq hp, List.nil_append] at this

end

/-- In ascending entries there is no second one that could be found. -/
theorem find?_eq_some_iff (hasc : Ascending es) :
    find? k es = some e ↔ e ∈ es ∧ compare k e.key = .eq := by
  constructor
  · intro h
    have he : compare k e.key = .eq := by simpa using List.find?_some h
    exact ⟨List.mem_of_find?_eq_some h, he⟩
  · rintro ⟨hmem, he⟩
    obtain ⟨l, r, rfl⟩ := List.append_of_mem hmem
    exact find?_at (brackets_of_eq hasc he) he

theorem length_insert_of_present {p : Entry κ ν} (hasc : Ascending es) (h : find? k es = some p) :
    (insert k v es).length = es.length := by
  obtain ⟨hp, l, r, rfl, -⟩ := List.find?_eq_some_iff_append.1 h
  have hp : compare k p.key = .eq := by simpa using hp
  rw [insert_at (brackets_of_eq hasc hp) hp]
  simp

theorem ascending_insert (h : Ascending es) : Ascending (insert k v es) := by
  induction es with
  | nil => exact ascending_cons.2 ⟨by simp, ascending_nil⟩
  | cons e es ih =>
    obtain ⟨he, hes⟩ := ascending_cons.1 h
    rw [insert]
    cases hk : compare k e.key with
    | lt => exact ascending_cons.2 ⟨above_cons h hk, h⟩
    | eq => exact ascending_cons.2 ⟨he, hes⟩
    | gt =>
      refine ascending_cons.2 ⟨fun b hb => ?_, ih hes⟩
      rcases key_of_mem_insert hb with hbk | ⟨f, hf, hbf⟩
      · rw [hbk]
        exact Std.OrientedCmp.lt_of_gt hk
      · rw [hbf]
        exact he f hf

/-- An insertion decides what its own key finds, and nothing else. -/
theorem find?_insert (j k : κ) (v : ν) (h : Ascending es) :
    find? k (insert j v es) =
      if compare k j = .eq then some ⟨((find? j es).map Entry.key).getD j, v⟩ else find? k es := by
  induction es with
  | nil => cases hk : compare k j <;> simp [insert, find?, hk]
  | cons e es ih =>
    rw [insert]
    cases hj : compare j e.key with
    | lt =>
      rw [find?_eq_none_of_above (above_cons h hj)]
      by_cases hk : compare k j = .eq
      · rw [if_pos hk]
        exact find?_cons_of_eq hk
      · rw [if_neg hk]
        exact find?_cons_of_ne hk
    | eq =>
      have hkj : compare k j = compare k e.key := Std.TransCmp.congr_right hj
      rw [hkj, find?_cons_of_eq hj]
      by_cases hk : compare k e.key = .eq
      · rw [if_pos hk]
        exact find?_cons_of_eq hk
      · rw [if_neg hk, find?_cons_of_ne hk]
        exact find?_cons_of_ne hk
    | gt =>
      rw [find?_cons_of_ne (k := j) (by simp [hj])]
      by_cases hk : compare k e.key = .eq
      · have hkj : compare k j ≠ .eq := by
          rw [Std.TransCmp.congr_left hk, Std.OrientedCmp.lt_of_gt hj]
          decide
        rw [if_neg hkj, find?_cons_of_eq hk, find?_cons_of_eq hk]
      · rw [find?_cons_of_ne hk, find?_cons_of_ne hk]
        exact ih (ascending_cons.1 h).2

/-- Ascending entries are told by what their keys find. -/
theorem eq_of_find? {fs : List (Entry κ ν)} (hes : Ascending es) (hfs : Ascending fs)
    (h : ∀ k, find? k es = find? k fs) : es = fs := by
  have hnodup {es : List (Entry κ ν)} (hes : Ascending es) : es.Nodup :=
    hes.imp fun {a b} hab => by
      rintro rfl
      have hself : compare a.key a.key = .eq := Std.ReflCmp.compare_self
      rw [hself] at hab
      cases hab
  have hmem (e : Entry κ ν) : e ∈ es ↔ e ∈ fs := by
    have hself : compare e.key e.key = .eq := Std.ReflCmp.compare_self
    have hes' := find?_eq_some_iff (k := e.key) (e := e) hes
    have hfs' := find?_eq_some_iff (k := e.key) (e := e) hfs
    rw [h] at hes'
    simpa [hself] using hes'.symm.trans hfs'
  refine List.Perm.eq_of_pairwise (fun a b _ _ hab hba => ?_) hes hfs
    ((List.perm_ext_iff_of_nodup (hnodup hes) (hnodup hfs)).2 hmem)
  rw [Std.OrientedCmp.gt_of_lt hab] at hba
  cases hba

theorem ascending_insertMany (ps : List (κ × ν)) (h : Ascending es) :
    Ascending (insertMany ps es) := by
  induction ps generalizing es with
  | nil => exact h
  | cons p ps ih => exact ih (ascending_insert h)

/-- Ascending entries, inserted behind those below them, are appended. -/
theorem insertMany_toPair {fs : List (Entry κ ν)} (h : Ascending (es ++ fs)) :
    insertMany (fs.map Entry.toPair) es = es ++ fs := by
  induction fs generalizing es with
  | nil => exact (List.append_nil es).symm
  | cons f fs ih =>
    have hb : Brackets es [] f.key := by
      refine ⟨fun a ha => ?_, by simp⟩
      exact (ascending_append.1 h).2.2 a ha f List.mem_cons_self
    have hinsert : insert f.key f.value es = es ++ [f] := by
      have := insert_of_brackets (v := f.value) hb
      rwa [List.append_nil] at this
    rw [List.append_cons] at h ⊢
    rw [← ih h, ← hinsert]
    rfl

/-! ### Around a gap -/

section
variable {x : Context κ ν} {a b c d : Node κ ν} (hb : Brackets x.before x.after k)
include hb

theorem find?_plug : find? k (x.plug c).toList = find? k c.toList := by
  rw [Context.toList_plug, find?_append hb]

theorem insert_plug (hd : d.toList = insert k v c.toList) :
    (x.plug d).toList = insert k v (x.plug c).toList := by
  rw [Context.toList_plug, Context.toList_plug, insert_append hb, hd]

theorem erase_plug (hd : d.toList = erase k c.toList) :
    (x.plug d).toList = erase k (x.plug c).toList := by
  rw [Context.toList_plug, Context.toList_plug, erase_append hb, hd]

end

section
variable {x : Context κ ν} {a b : Node κ ν} (hasc : Ascending (x.pair a e b).toList)
  (he : compare k e.key = .eq)
include hasc he

theorem find?_pair : find? k (x.pair a e b).toList = some e := by
  rw [Context.toList_pair, ← List.append_assoc, find?_at (Context.brackets_pair hasc he) he]

theorem insert_pair :
    (x.pair a { e with value := v } b).toList = insert k v (x.pair a e b).toList := by
  rw [Context.toList_pair, Context.toList_pair, ← List.append_assoc, ← List.append_assoc,
    insert_at (Context.brackets_pair hasc he) he]

theorem erase_pair :
    erase k (x.pair a e b).toList = (x.before ++ a.toList) ++ (b.toList ++ x.after) := by
  rw [Context.toList_pair, ← List.append_assoc, erase_at (Context.brackets_pair hasc he) he]

end

end

end BTree.Association
