import BTree.Proofs.Insertion
import BTree.Proofs.Removal
import BTree.Proofs.Sound
import BTree.Tree.Update

/-!
# Updates of sound trees

`Puts k v t o s es` derives an insertion into the tree `t` that answers `o`, leaves `s` and emits
`es`, and `Takes P t o s es` a removal, where `P` is what it does to the root.  An update of a sound
tree does not fault, is one of those derived, leaves a sound tree of the same degree, and answers and
leaves what the list model does.  The exception is a new key for a tree that has a root, where the
degree is not `InWord`:

    Puts k v t o s es  →  t.insert k v = done (o, s) es                              (insert_of_puts)
    t.insert k v    = done (o, s) es,  s.toList = Association.insert k v t.toList    (insert_spec)
    t.insert k v    = fault overflow                                                 (insert_overflows)
    t.removeEntry k = done (o, s) es,  s.toList = Association.erase k t.toList       (removeEntry_spec)
    t.pop e         = done (o, s) es,  s.toList = e.rest t.toList                    (pop_spec)
-/

namespace BTree.Tree

variable {κ ν : Type}

/-! ## Derivations -/

/-- `Opens t size n m es`: making room in the root `n` of a tree of degree `t` with `size` entries
leaves the root `m`, and emits `es`. -/
inductive Opens (t size : Nat) : Node κ ν → Node κ ν → List Event → Prop
  | room {n : Node κ ν} (hn : n.entries.length < 2 * t - 1) : Opens t size n n []
  | split {n a b : Node κ ν} {e : Entry κ ν} (hn : n.entries.length = 2 * t - 1)
      (hs : n.split = .ok (a, e, b)) : Opens t size n (.binary a e b) [.splitRoot size]

/-- `Puts k v t o s es`: inserting `v` under `k` into `t` answers `o`, leaves `s` and emits `es`. -/
inductive Puts [Ord κ] (k : κ) (v : ν) : Tree κ ν → Option ν → Tree κ ν → List Event → Prop
  /-- The key is present. -/
  | store {root m : Node κ ν} {d : Degree} {n : Nat} {e : Entry κ ν} (hs : Stores k v root e m) :
      Puts k v ⟨some root, d, n⟩ (some e.value) ⟨some m, d, n⟩ []
  /-- The tree gets a root. -/
  | create {d : Degree} : Puts k v (.empty d) none ⟨some (.leaf ⟨k, v⟩), d, 1⟩ []
  /-- The key is new, and the root is split if it is full. -/
  | descend {root m r : Node κ ν} {d : Degree} {n : Nat} {es fs : List Event}
      (hk : Association.find? k root.toList = none) (ho : Opens d.least n root m es)
      (hi : Inserts d.least k v m none r fs) :
      Puts k v ⟨some root, d, n⟩ none ⟨some r, d, n + 1⟩ (es ++ fs)

/-- `Takes P t o s es`: a removal that does `P` to the root of `t` answers `o`, leaves `s` and emits
`es`. -/
inductive Takes (P : Node κ ν → Option (Entry κ ν) → Node κ ν → List Event → Prop) :
    Tree κ ν → Option (Entry κ ν) → Tree κ ν → List Event → Prop
  /-- There is nothing to take. -/
  | empty {d : Degree} : Takes P (.empty d) none (.empty d) []
  /-- The root is left with entries. -/
  | keep {root m : Node κ ν} {d : Degree} {size n : Nat} {o : Option (Entry κ ν)} {es : List Event}
      (hp : P root o m es) (hne : m.entries ≠ []) (hn : n + (if o.isSome then 1 else 0) = size) :
      Takes P ⟨some root, d, size⟩ o ⟨some m, d, n⟩ es
  /-- The root was a leaf of one entry. -/
  | vanish {root : Node κ ν} {d : Degree} {size n : Nat} {o : Option (Entry κ ν)} {es : List Event}
      (hp : P root o ⟨[], []⟩ es) (hn : n + (if o.isSome then 1 else 0) = size) :
      Takes P ⟨some root, d, size⟩ o ⟨none, d, n⟩ (es ++ [.shrinkRoot 0])
  /-- The root is left without entries, and gives way to its child. -/
  | shrink {root c : Node κ ν} {d : Degree} {size n : Nat} {o : Option (Entry κ ν)}
      {es : List Event} (hp : P root o ⟨[], [c]⟩ es)
      (hn : n + (if o.isSome then 1 else 0) = size) :
      Takes P ⟨some root, d, size⟩ o ⟨some c, d, n⟩ (es ++ [.shrinkRoot c.height])

/-! ## The root -/

namespace Opens

variable {t size : Nat} {n m : Node κ ν} {es : List Event}

/-- A full root gives way to one of a single entry, a level higher. -/
theorem levelled {h : Nat} (ho : Opens t size n m es) (ht : 2 ≤ t)
    (hn : n.Levelled (Occupied t) h) (hmin : 1 ≤ n.entries.length) :
    m.Levelled (Occupied t) (h + es.length) ∧ 1 ≤ m.entries.length ∧
      m.entries.length < 2 * t - 1 ∧ m.toList = n.toList := by
  cases ho with
  | room hroom => exact ⟨hn, hmin, hroom, rfl⟩
  | @split a b e hfull hs =>
    have hfits : n.Fits (Occupied t) h := ⟨⟨by omega, by omega⟩, hn⟩
    obtain ⟨rfl, ha, hb, -, -⟩ := Node.split_full (by omega) hfits (by omega) hs
    obtain ⟨g, rfl⟩ := hn.exists_height
    refine ⟨Node.levelled_binary e ha hb, Nat.le_refl 1, ?_, ?_⟩
    · show 1 < 2 * t - 1
      omega
    · rw [Node.toList_binary, Node.toList_append e ha.levelled hb.levelled]

end Opens

theorem openRoot_of_opens {t : Tree κ ν} {root m : Node κ ν} {es : List Event}
    (ho : Opens t.degree.least t.size root m es) (hw : InWord t.degree.least) :
    t.openRoot root = .done m es := by
  have ht := t.degree.two_le
  simp only [openRoot, Node.isFull_eq_ok (show 1 ≤ t.degree.least by omega) hw, Edit.liftM_ok,
    Edit.done_bind, Edit.after_nil]
  cases ho with
  | room hn => simp [Nat.not_le.2 hn]
  | split hn hs =>
    simp only [hn, Nat.le_refl, decide_true, if_true, hs, Edit.liftM_ok, Edit.done_bind,
      Edit.after_nil]
    rfl

theorem exists_opens {t size h : Nat} {root : Node κ ν} (ht : 2 ≤ t)
    (hn : root.Levelled (Occupied t) h) (hmax : root.entries.length ≤ 2 * t - 1) :
    ∃ m es, Opens t size root m es := by
  by_cases hfull : 2 * t - 1 ≤ root.entries.length
  · have hfits : root.Fits (Occupied t) h := ⟨⟨by omega, hmax⟩, hn⟩
    obtain ⟨a, e, b, hs, -⟩ := Node.exists_split_full (by omega) hfits hfull
    exact ⟨_, _, .split (Nat.le_antisymm hmax hfull) hs⟩
  · exact ⟨_, _, .room (Nat.not_le.1 hfull)⟩

/-- What settling does, with the size that is left. -/
theorem settle_eq_done {t : Tree κ ν} {removed : Option (Entry κ ν)} {n : Nat}
    (hsize : n + (if removed.isSome then 1 else 0) = t.size) (root : Node κ ν) :
    t.settle removed root =
      if root.entries.isEmpty then
        .done (removed, ⟨root.children.head?, t.degree, n⟩)
          [.shrinkRoot ((root.children.head?.map Node.height).getD 0)]
      else .done (removed, ⟨some root, t.degree, n⟩) [] := by
  cases removed with
  | none =>
    obtain rfl : n = t.size := hsize
    unfold settle
    simp only [Option.isSome_none, Bool.false_eq_true, if_false]
    split <;> rfl
  | some e =>
    have hdec : decrement t.size = .ok n := decrement_eq_ok_iff.2 hsize.symm
    unfold settle
    simp only [hdec, Option.isSome_some, if_true]
    split <;> rfl

theorem Takes.mono {P Q : Node κ ν → Option (Entry κ ν) → Node κ ν → List Event → Prop}
    {t s : Tree κ ν} {o : Option (Entry κ ν)} {es : List Event} (hp : Takes P t o s es)
    (h : ∀ n m es, P n o m es → Q n o m es) : Takes Q t o s es := by
  cases hp with
  | empty => exact .empty
  | keep hp hne hn => exact .keep (h _ _ _ hp) hne hn
  | vanish hp hn => exact .vanish (h _ _ _ hp) hn
  | shrink hp hn => exact .shrink (h _ _ _ hp) hn

/-- What is derived is what the removal does, if it is so for the root. -/
theorem removing_of_takes {P : Node κ ν → Option (Entry κ ν) → Node κ ν → List Event → Prop}
    {take : Node κ ν → Edit (Option (Entry κ ν) × Node κ ν)} {t s : Tree κ ν}
    {o : Option (Entry κ ν)} {es : List Event} (hp : Takes P t o s es)
    (htake : ∀ n m es, P n o m es → take n = .done (o, m) es) :
    t.removing take = .done (o, s) es := by
  cases hp with
  | empty => rfl
  | @keep root m d size n o es hp hne hn =>
    simp only [removing, htake _ _ _ hp, Edit.done_bind]
    rw [settle_eq_done hn, if_neg (by simpa using hne), Edit.done_after, List.append_nil]
  | @vanish root d size n o es hp hn =>
    simp only [removing, htake _ _ _ hp, Edit.done_bind]
    rw [settle_eq_done hn]
    rfl
  | @shrink root c d size n o es hp hn =>
    simp only [removing, htake _ _ _ hp, Edit.done_bind]
    rw [settle_eq_done hn]
    rfl

/-- Takes out the entry at an end. -/
def pop (e : End) (t : Tree κ ν) : Edit (Option (Entry κ ν) × Tree κ ν) :=
  match e with
  | .front => t.popFirst
  | .back => t.popLast

theorem pop_eq_removing (e : End) (t : Tree κ ν) :
    t.pop e = t.removing (Node.pop e t.degree.least) := by
  cases e <;> rfl

variable [Ord κ]

/-- The tree `s` that comes from `t` is sound, has the same degree, and holds the entries `es`. -/
structure Becomes (t : Tree κ ν) (es : List (Entry κ ν)) (s : Tree κ ν) : Prop where
  sound : s.Sound
  degree_eq : s.degree = t.degree
  toList_eq : s.toList = es

/-! ## Removal -/

section
variable {t : Tree κ ν} {P : Node κ ν → Option (Entry κ ν) → Node κ ν → List Event → Prop}

/-- A root without entries gives way to its child, and an entry taken is counted off. -/
theorem exists_takes {root m : Node κ ν} {n : Nat} {removed : Option (Entry κ ν)} {es : List Event}
    (hroot : t.root = some root) (hp : P root removed m es)
    (hm : m.Levelled (Occupied t.degree.least) n) (hmax : m.entries.length ≤ 2 * t.degree.least - 1)
    (hasc : Ascending m.toList)
    (hsize : m.toList.length + (if removed.isSome then 1 else 0) = t.size) :
    ∃ s es, Takes P t removed s es ∧ t.Becomes m.toList s := by
  have ht := t.degree.two_le
  obtain ⟨_, d, size⟩ := t
  obtain rfl : _ = some root := hroot
  obtain ⟨es', cs⟩ := m
  by_cases hempty : es' = []
  · subst hempty
    rcases hm.cases with ⟨-, hnil⟩ | ⟨g, -, hlen, hcs⟩
    · obtain rfl : cs = [] := hnil
      have hlist : (⟨[], []⟩ : Node κ ν).toList = [] := by rw [Node.toList_eq]; rfl
      refine ⟨_, _, .vanish hp hsize, ?_, rfl, hlist.symm⟩
      exact .of_absent rfl (by rw [hlist]; rfl)
    · obtain ⟨c, rfl⟩ : ∃ c, cs = [c] := List.length_eq_one_iff.1 hlen
      have hfits := hcs c List.mem_cons_self
      obtain ⟨hcmin, hcmax⟩ := hfits.size
      have hlist : (⟨[], [c]⟩ : Node κ ν).toList = c.toList := by rw [Node.toList_eq]; rfl
      refine ⟨_, _, .shrink hp hsize, ?_, rfl, hlist.symm⟩
      exact .of_root rfl hfits.levelled (by omega) hcmax (hlist ▸ hasc) (by rw [hlist])
  · refine ⟨_, _, .keep hp hempty hsize, ?_, rfl, rfl⟩
    exact .of_root rfl hm (List.length_pos_iff.2 hempty) hmax hasc rfl

/-- A removal that is right on the root is right on the tree. -/
theorem removing_spec (h : t.Sound) {take : Node κ ν → Edit (Option (Entry κ ν) × Node κ ν)}
    {answer : List (Entry κ ν) → Option (Entry κ ν)} {rest : List (Entry κ ν) → List (Entry κ ν)}
    (htake : ∀ root, t.root = some root → ∃ m n es, P root (answer root.toList) m es ∧
      take root = .done (answer root.toList, m) es ∧
      m.Levelled (Occupied t.degree.least) n ∧ m.entries.length ≤ root.entries.length ∧
      m.toList = rest root.toList) (hnil : answer [] = none ∧ rest [] = [])
    (hasc : Ascending (rest t.toList))
    (hsize : (rest t.toList).length + (if (answer t.toList).isSome then 1 else 0) =
      t.toList.length) :
    ∃ s es, Takes P t (answer t.toList) s es ∧ t.removing take = .done (answer t.toList, s) es ∧
      t.Becomes (rest t.toList) s := by
  obtain ⟨root, d, size⟩ := t
  cases root with
  | none =>
    obtain rfl : size = 0 := h.absent_iff.1 rfl
    have hanswer : answer (Tree.toList ⟨none, d, 0⟩) = none := hnil.1
    refine ⟨⟨none, d, 0⟩, [], ?_, ?_, h, rfl, hnil.2.symm⟩
    · rw [hanswer]
      exact .empty
    · rw [hanswer]
      rfl
  | some root =>
    obtain ⟨m, n, es, hp, heq, hm, hle, hlist⟩ := htake root rfl
    obtain ⟨-, hmax⟩ := h.root_size root rfl
    have hsize' : m.toList.length + (if (answer root.toList).isSome then 1 else 0) = size := by
      rw [hlist]
      exact hsize.trans h.size_eq_length.symm
    -- along with what it does to the root, the derivation keeps that `take` does just this
    have hboth : P root (answer root.toList) m es ∧ take root = .done (answer root.toList, m) es :=
      ⟨hp, heq⟩
    obtain ⟨s, fs, ht, hs⟩ := exists_takes (t := ⟨some root, d, size⟩)
      (P := fun n o m es => P n o m es ∧ take n = .done (o, m) es) rfl hboth hm
      (Nat.le_trans hle hmax) (hlist ▸ hasc) hsize'
    exact ⟨s, fs, ht.mono fun _ _ _ hp => hp.1, removing_of_takes ht fun _ _ _ hp => hp.2,
      hlist ▸ hs⟩

theorem pop_spec (h : t.Sound) (e : End) :
    ∃ s es, Takes (fun n o m es => ∃ p, o = some p ∧ Pops e t.degree.least n p m es) t
        (e.peek? t.toList) s es ∧
      t.pop e = .done (e.peek? t.toList, s) es ∧ t.Becomes (e.rest t.toList) s := by
  rw [pop_eq_removing]
  refine removing_spec h (fun root hroot => ?_) (by cases e <;> exact ⟨rfl, rfl⟩)
    (h.ascending.sublist (e.rest_sublist _)) (e.length_rest t.toList)
  have hlev := h.levelled root hroot
  obtain ⟨p, m, es, hp, heq⟩ :=
    Node.pop_eq_done t.degree.two_le e hlev (h.root_size root hroot).1
  obtain ⟨hm, hlen⟩ := hp.levelled hlev
  have hlist := hp.toList_eq hlev
  refine ⟨m, _, es, ⟨p, ?_, hp⟩, ?_, hm, by omega, ?_⟩
  · rw [hlist, End.peek?_put]
  · rw [heq, hlist, End.peek?_put]
  · rw [hlist, End.rest_put]

theorem clear_spec (t : Tree κ ν) :
    ∃ s es, t.clear = .done s es ∧ t.Becomes [] s :=
  ⟨{ t with root := none, size := 0 }, [.clear t.size], rfl, .of_absent rfl rfl, rfl, rfl⟩

end

/-! ## Stores -/

section
variable [Std.TransOrd κ] {t : Tree κ ν}

/-- A store of a key that is present changes its value, and one of an absent key is refused. -/
theorem store?_spec (h : t.Sound) (k : κ) (v : ν) :
    (∃ e s, Association.find? k t.toList = some e ∧ Puts k v t (some e.value) s [] ∧
      t.store? k v = some (e.value, s) ∧ t.Becomes (Association.insert k v t.toList) s) ∨
    (Association.find? k t.toList = none ∧ t.store? k v = none) := by
  obtain ⟨root, d, size⟩ := t
  cases root with
  | none => exact .inr ⟨rfl, rfl⟩
  | some root =>
    have hasc : Ascending root.toList := h.ascending
    obtain ⟨hmin, hmax⟩ := h.root_size root rfl
    have hroot := h.levelled root rfl
    rcases Node.store?_cases k v hroot hasc with ⟨e, m, hs, hstore⟩ | ⟨hfind, hstore⟩
    · obtain ⟨hlev, hlen⟩ := hs.levelled hroot
      obtain ⟨hfind, hlist⟩ := hs.toList_eq hroot hasc
      refine .inl ⟨e, ⟨some m, d, size⟩, hfind, .store hs, by simp [store?, hstore], ?_, rfl, hlist⟩
      refine .of_root rfl hlev (hlen ▸ hmin) (hlen ▸ hmax) ?_ ?_
      · rw [hlist]
        exact Association.ascending_insert hasc
      · rw [hlist, Association.length_insert_of_present hasc hfind]
        exact h.size_eq_length
    · exact .inr ⟨hfind, by simp [store?, hstore]⟩

end

/-! ## Insertion -/

variable {t : Tree κ ν}

/-- A new key for a root of a degree whose double fits no word is refused. -/
theorem insert_overflows {root : Node κ ν} {k : κ} {v : ν} (hroot : t.root = some root)
    (hstore : t.store? k v = none) (hw : ¬ InWord t.degree.least) :
    t.insert k v = .fault .overflow := by
  have hopen : t.openRoot root = .fault .overflow := by
    rw [openRoot, Node.isFull_eq_error hw]
    rfl
  simp only [insert, hstore, hroot, hopen]
  rfl

variable [Std.TransOrd κ]

/-- What is derived of a sound tree is what the insertion does.  Only a new key for a tree that has a
root needs the double of the degree. -/
theorem insert_of_puts {k : κ} {v : ν} {o : Option ν} {s : Tree κ ν} {es : List Event}
    (hp : Puts k v t o s es) (h : t.Sound)
    (hw : t.root ≠ none → Association.find? k t.toList = none → InWord t.degree.least) :
    t.insert k v = .done (o, s) es := by
  cases hp with
  | @store root m d n e hs =>
    have hstore := Node.store?_of_stores hs h.ascending
    simp only [insert, store?, Option.bind_some, hstore, Option.map_some]
    rfl
  | create => rfl
  | @descend root m r d n es fs hk ho hi =>
    have hw : InWord d.least := hw (Option.some_ne_none root) hk
    obtain ⟨hmin, -⟩ := h.root_size root rfl
    have hroot := h.levelled root rfl
    obtain ⟨hm, -, -, hlist⟩ := ho.levelled d.two_le hroot hmin
    have hasc : Ascending m.toList := hlist ▸ h.ascending
    have hstore : (⟨some root, d, n⟩ : Tree κ ν).store? k v = none := by
      rcases store?_spec h k v with ⟨e, s, hfind, -⟩ | ⟨-, hstore⟩
      · cases hk.symm.trans hfind
      · exact hstore
    have hopen := openRoot_of_opens (t := ⟨some root, d, n⟩) ho hw
    rw [insert, hstore]
    simp only [hopen, Edit.done_bind,
      Node.insert_of_inserts hi d.two_le (fun _ => hw) hm hasc]
    simp [Edit.done_after]

/-- A sound tree can take any key, and is sound with it. -/
theorem exists_puts (h : t.Sound) (k : κ) (v : ν) :
    ∃ s es, Puts k v t ((Association.find? k t.toList).map Entry.value) s es ∧
      t.Becomes (Association.insert k v t.toList) s := by
  rcases store?_spec h k v with ⟨e, s, hfind, hp, -, hs⟩ | ⟨hfind, -⟩
  · rw [hfind]
    exact ⟨s, [], hp, hs⟩
  · have ht := t.degree.two_le
    obtain ⟨root, d, size⟩ := t
    cases root with
    | none =>
      obtain rfl : size = 0 := h.absent_iff.1 rfl
      refine ⟨⟨some (.leaf ⟨k, v⟩), d, 1⟩, [], .create, .leaf d ⟨k, v⟩, rfl, ?_⟩
      simp [toList, Node.toList_leaf, Association.insert]
    | some root =>
      have hasc : Ascending root.toList := h.ascending
      obtain ⟨hmin, hmax⟩ := h.root_size root rfl
      have hroot := h.levelled root rfl
      obtain ⟨m, es, hopens⟩ := exists_opens ht hroot hmax
      obtain ⟨hm, hmin', hroom, hlist⟩ := hopens.levelled ht hroot hmin
      rw [← hlist] at hasc
      obtain ⟨o, n, fs, hi⟩ := Node.exists_inserts ht k v hm hasc
      obtain ⟨hn, hle, hle'⟩ := hi.levelled ht hm
      obtain ⟨ho, hn'⟩ := hi.answer_eq ht hm hasc
      rw [hlist] at ho hn'
      have hnone : o = none := by
        rw [ho]
        exact Option.map_eq_none_iff.2 hfind
      subst hnone
      rw [hfind]
      refine ⟨⟨some n, d, size + 1⟩, es ++ fs, .descend hfind hopens hi, ?_, rfl, hn'⟩
      refine .of_root rfl hn (Nat.le_trans hmin' hle) (Nat.le_trans hle' hroom) ?_ ?_
      · rw [hn', ← hlist]
        exact Association.ascending_insert hasc
      · have hfind' : Association.find? k root.toList = none := hfind
        rw [hn', Association.length_insert_of_absent hfind']
        exact congrArg (· + 1) h.size_eq_length

theorem insert_spec (h : t.Sound) (hw : InWord t.degree.least) (k : κ) (v : ν) :
    ∃ s es, Puts k v t ((Association.find? k t.toList).map Entry.value) s es ∧
      t.insert k v = .done ((Association.find? k t.toList).map Entry.value, s) es ∧
      t.Becomes (Association.insert k v t.toList) s := by
  obtain ⟨s, es, hp, hs⟩ := exists_puts h k v
  exact ⟨s, es, hp, insert_of_puts hp h fun _ _ => hw, hs⟩

/-- An insertion into a sound tree of any degree is one of those derived, or the double of the degree
fits no word. -/
theorem insert_cases (h : t.Sound) (k : κ) (v : ν) :
    (∃ s es, Puts k v t ((Association.find? k t.toList).map Entry.value) s es ∧
      t.insert k v = .done ((Association.find? k t.toList).map Entry.value, s) es ∧
      t.Becomes (Association.insert k v t.toList) s) ∨
    (¬ InWord t.degree.least ∧ t.insert k v = .fault .overflow) := by
  obtain ⟨s, es, hp, hs⟩ := exists_puts h k v
  by_cases hover : t.root ≠ none ∧ Association.find? k t.toList = none ∧ ¬ InWord t.degree.least
  · obtain ⟨hroot, hfind, hw⟩ := hover
    obtain ⟨root, hroot⟩ := Option.ne_none_iff_exists'.1 hroot
    rcases store?_spec h k v with ⟨e, s, hfind', -⟩ | ⟨-, hstore⟩
    · cases hfind.symm.trans hfind'
    · exact .inr ⟨hw, insert_overflows hroot hstore hw⟩
  · refine .inl ⟨s, es, hp, insert_of_puts hp h fun hroot hfind => ?_, hs⟩
    exact Decidable.byContradiction fun hw => hover ⟨hroot, hfind, hw⟩

/-- An insertion that ends is one of those derived, whatever the degree. -/
theorem Sound.of_insert {s : Tree κ ν} {k : κ} {v : ν} {o : Option ν} {es : List Event}
    (h : t.Sound) (hs : t.insert k v = .done (o, s) es) :
    Puts k v t o s es ∧ t.Becomes (Association.insert k v t.toList) s := by
  rcases insert_cases h k v with ⟨r, fs, hp, heq, hr⟩ | ⟨-, heq⟩
  · rw [heq] at hs
    cases hs
    exact ⟨hp, hr⟩
  · rw [heq] at hs
    cases hs

/-- Many insertions go through one after another, or the double of the degree fits no word. -/
theorem insertMany_cases (h : t.Sound) (ps : List (κ × ν)) :
    (∃ s es, t.insertMany ps = .done s es ∧
      t.Becomes (Association.insertMany ps t.toList) s) ∨
    (¬ InWord t.degree.least ∧ t.insertMany ps = .fault .overflow) := by
  induction ps generalizing t with
  | nil => exact .inl ⟨t, [], rfl, h, rfl, rfl⟩
  | cons p ps ih =>
    rcases insert_cases h p.1 p.2 with ⟨s, es, -, hs, hsound, hdegree, hlist⟩ | ⟨hw, hs⟩
    · rcases ih hsound with ⟨r, fs, hr, hr'⟩ | ⟨hw, hr⟩
      · refine .inl ⟨r, es ++ fs, ?_, hr'.sound, hr'.degree_eq.trans hdegree, ?_⟩
        · simp only [insertMany, hs, Edit.done_bind, hr, Edit.done_after]
        · rw [hr'.toList_eq, hlist]
          rfl
      · refine .inr ⟨hdegree ▸ hw, ?_⟩
        simp only [insertMany, hs, Edit.done_bind, hr]
        rfl
    · refine .inr ⟨hw, ?_⟩
      simp only [insertMany, hs, Edit.fault_bind]

theorem insertMany_spec (h : t.Sound) (hw : InWord t.degree.least) (ps : List (κ × ν)) :
    ∃ s es, t.insertMany ps = .done s es ∧ t.Becomes (Association.insertMany ps t.toList) s :=
  (insertMany_cases h ps).resolve_right fun hover => hover.1 hw

/-- Many insertions that end did what they do to the list of the entries, whatever the degree. -/
theorem Sound.of_insertMany {s : Tree κ ν} {ps : List (κ × ν)} (h : t.Sound)
    (hs : (t.insertMany ps).Yields s) : t.Becomes (Association.insertMany ps t.toList) s := by
  obtain ⟨es, hs⟩ := hs
  rcases insertMany_cases h ps with ⟨r, fs, heq, hr⟩ | ⟨-, heq⟩
  · rw [heq] at hs
    cases hs
    exact hr
  · rw [heq] at hs
    cases hs

theorem removeEntry_spec (h : t.Sound) (k : κ) :
    ∃ s es, Takes (Removes t.degree.least k) t (Association.find? k t.toList) s es ∧
      t.removeEntry k = .done (Association.find? k t.toList, s) es ∧
      t.Becomes (Association.erase k t.toList) s := by
  refine removing_spec h (fun root hroot => ?_) ⟨rfl, rfl⟩
    (Association.ascending_erase h.ascending) (Association.length_erase k t.toList)
  have hlev := h.levelled root hroot
  have hasc := h.ascending_root hroot
  obtain ⟨o, m, es, hr, heq⟩ :=
    Node.remove_eq_done t.degree.two_le k hlev hasc (h.root_size root hroot).1
  obtain ⟨hm, hlen⟩ := hr.levelled hlev
  obtain ⟨rfl, hm'⟩ := hr.answer_eq hlev hasc
  exact ⟨m, _, es, hr, heq, hm, by omega, hm'⟩

end BTree.Tree
