import BTree.Proofs.History
import BTree.Proofs.NodeCount
import Mathlib

/-!
# The trail accounts for every change of structure

The events of an update tell by how many nodes and levels the tree grew or fell.  A split brings a
node, and at the root another one above it, which is a level; a merge costs a node, and a root that
gives way a node and a level.  An empty tree gets its root without an event, so that is counted apart:

    t.insert k v = done (o, s) es  →  t.Grows s es                          (insert_grows)
    t.removeEntry k = done (o, s) es, t.Falls s es                          (removeEntry_falls)
    t.run us = done ss es  →  the trail es accounts for the last tree       (run_accounts)
-/

namespace BTree.Tree

variable {κ ν : Type}

/-! ## Updates of a tree -/

theorem Opens.nodeCount_eq {t size : Nat} {n m : Node κ ν} {es : List Event}
    (ho : Opens t size n m es) : m.nodeCount = n.nodeCount + 2 * es.length := by
  cases ho with
  | room hn => rfl
  | @split a b e hn hs =>
    have hsplit := Node.nodeCount_split hs
    rw [Node.nodeCount_binary, List.length_singleton]
    omega

theorem Opens.kind_mem {t size : Nat} {n m : Node κ ν} {es : List Event}
    (ho : Opens t size n m es) : ∀ e ∈ es, e.kind ∈ [.splitRoot] := by
  cases ho <;> simp [Event.kind]

/-- The trail `es` accounts for what an insertion made of the tree `t`: a root split brings two nodes
and a level, a child split a node, and the first entry of all a node and a level. -/
structure Grows (t s : Tree κ ν) (es : List Event) : Prop where
  nodeCount_eq : s.nodeCount = t.nodeCount + 2 * number .splitRoot es + number .splitChild es +
    (if t.isEmpty then 1 else 0)
  height_eq : s.height = t.height + number .splitRoot es + (if t.isEmpty then 1 else 0)
  kind_mem : ∀ e ∈ es, e.kind ∈ [.splitRoot, .splitChild]

/-- The trail `es` accounts for what a removal left of the tree `t`: a merge costs a node, a root that
gives way costs a node and a level and tells the height that is left, and a rotation costs nothing. -/
structure Falls (t s : Tree κ ν) (es : List Event) : Prop where
  nodeCount_eq : s.nodeCount + number .mergeChildren es + number .shrinkRoot es = t.nodeCount
  height_eq : s.height + number .shrinkRoot es = t.height
  reported : ∀ h, .shrinkRoot h ∈ es → h = s.height
  kind_mem : ∀ e ∈ es, e.kind ∈ [.mergeChildren, .rotate, .shrinkRoot]

/-- The trail `es` and the number of roots created account for the nodes and levels of the tree `s`
that came from `t`. -/
structure Accounts (t s : Tree κ ν) (es : List Event) (created : Nat) : Prop where
  nodeCount_eq : s.nodeCount + number .mergeChildren es + number .shrinkRoot es =
    t.nodeCount + 2 * number .splitRoot es + number .splitChild es + created
  height_eq : s.height + number .shrinkRoot es = t.height + number .splitRoot es + created

/-- One if the tree `t` is empty and `s` is not, and zero otherwise. -/
def created (t s : Tree κ ν) : Nat := if t.isEmpty && !s.isEmpty then 1 else 0

/-- The number of times, from `t` through the trees `ss`, that an empty tree gets a root. -/
def creations (t : Tree κ ν) : List (Tree κ ν) → Nat
  | [] => 0
  | s :: ss => t.created s + s.creations ss

theorem isEmpty_iff (t : Tree κ ν) : t.isEmpty = true ↔ t.nodeCount = 0 := by
  rw [isEmpty, nodeCount]
  cases t.root with
  | none => simp
  | some root => simpa using Nat.ne_of_gt root.nodeCount_pos

theorem isEmpty_eq_false_iff (t : Tree κ ν) : t.isEmpty = false ↔ 0 < t.nodeCount := by
  rw [← Bool.not_eq_true, isEmpty_iff, Nat.pos_iff_ne_zero]

@[simp]
theorem created_self (t : Tree κ ν) : t.created t = 0 := by
  simp [created]

theorem created_of_isEmpty_eq_false {t : Tree κ ν} (h : t.isEmpty = false) (s : Tree κ ν) :
    t.created s = 0 := by
  simp [created, h]

namespace Accounts

variable {t s r : Tree κ ν} {es fs : List Event} {a b : Nat}

theorem refl (t : Tree κ ν) : t.Accounts t [] 0 := ⟨rfl, rfl⟩

theorem trans (h : t.Accounts s es a) (h' : s.Accounts r fs b) :
    t.Accounts r (es ++ fs) (a + b) := by
  have hnodes := h.nodeCount_eq
  have hnodes' := h'.nodeCount_eq
  have hheight := h.height_eq
  have hheight' := h'.height_eq
  constructor
  · simp only [number_append]
    omega
  · simp only [number_append]
    omega

end Accounts

section
variable {t s : Tree κ ν} {es : List Event}

theorem Grows.isEmpty_eq_false (h : t.Grows s es) : s.isEmpty = false := by
  have hnodes := h.nodeCount_eq
  rw [isEmpty_eq_false_iff, hnodes]
  by_cases he : t.isEmpty = true
  · rw [if_pos he]
    omega
  · have hpos := (isEmpty_eq_false_iff t).1 (Bool.not_eq_true _ ▸ he)
    omega

theorem Grows.accounts (h : t.Grows s es) : t.Accounts s es (t.created s) := by
  have hcreated : t.created s = if t.isEmpty then 1 else 0 := by
    simp [created, h.isEmpty_eq_false]
  have hmerges : number .mergeChildren es = 0 := number_eq_zero h.kind_mem (by decide)
  have hshrinks : number .shrinkRoot es = 0 := number_eq_zero h.kind_mem (by decide)
  rw [hcreated]
  constructor
  · rw [hmerges, hshrinks]
    exact h.nodeCount_eq
  · rw [hshrinks]
    exact h.height_eq

theorem Falls.accounts (h : t.Falls s es) : t.Accounts s es (t.created s) := by
  have hsplits : number .splitRoot es = 0 := number_eq_zero h.kind_mem (by decide)
  have hchildren : number .splitChild es = 0 := number_eq_zero h.kind_mem (by decide)
  have hcreated : t.created s = 0 := by
    by_cases he : t.isEmpty = true
    · -- an empty tree has no node to lose
      have hnodes := h.nodeCount_eq
      rw [(isEmpty_iff t).1 he] at hnodes
      have hs : s.isEmpty = true := (isEmpty_iff s).2 (by omega)
      simp [created, hs]
    · exact created_of_isEmpty_eq_false (Bool.not_eq_true _ ▸ he) s
  rw [hcreated]
  constructor
  · rw [hsplits, hchildren]
    exact h.nodeCount_eq
  · rw [hsplits]
    exact h.height_eq

end

/-- `P` keeps the levels of a node in a tree of degree `t`, and its trail accounts for the nodes. -/
structure Thins (t : Nat) (P : Node κ ν → Option (Entry κ ν) → Node κ ν → List Event → Prop) :
    Prop where
  levelled : ∀ {n o m es h}, P n o m es → n.Levelled (Occupied t) h → m.Levelled (Occupied t) h
  nodeCount_eq : ∀ {n o m es}, P n o m es → m.nodeCount + number .mergeChildren es = n.nodeCount
  kind_mem : ∀ {n o m es}, P n o m es → ∀ e ∈ es, e.kind ∈ [.mergeChildren, .rotate]

theorem thins_pops (s : End) (t : Nat) :
    Thins t fun (n : Node κ ν) o m es => ∃ e, o = some e ∧ Pops s t n e m es where
  levelled := fun ⟨_, _, hp⟩ hn => (hp.levelled hn).1
  nodeCount_eq := fun ⟨_, _, hp⟩ => hp.nodeCount_eq
  kind_mem := fun ⟨_, _, hp⟩ => hp.kind_mem

namespace Thins

variable {P : Node κ ν → Option (Entry κ ν) → Node κ ν → List Event → Prop} {root m : Node κ ν}
  {o : Option (Entry κ ν)} {es : List Event} {d : Nat} (hP : Thins d P) (hp : P root o m es)
include hP hp

theorem number_shrinkRoot : number .shrinkRoot es = 0 :=
  number_eq_zero (hP.kind_mem hp) (by decide)

theorem not_mem_shrinkRoot (g : Nat) : .shrinkRoot g ∉ es := by
  intro hg
  have hmem := hP.kind_mem hp _ hg
  simp [Event.kind] at hmem

theorem kind_mem_append : ∀ e ∈ es, e.kind ∈ [.mergeChildren, .rotate, .shrinkRoot] := by
  intro e he
  exact List.mem_append_left [.shrinkRoot] (hP.kind_mem hp e he)

end Thins

variable [Ord κ]

theorem thins_removes (t : Nat) (k : κ) : Thins t (Removes (ν := ν) t k) where
  levelled hr hn := (hr.levelled hn).1
  nodeCount_eq hr := hr.nodeCount_eq
  kind_mem hr := hr.kind_mem

variable {t s : Tree κ ν} {es : List Event}

theorem Puts.grows {k : κ} {v : ν} {o : Option ν} (hp : Puts k v t o s es) (h : t.Sound) :
    t.Grows s es := by
  cases hp with
  | @store root m d n e hs =>
    have hroot := h.levelled root rfl
    have hheight : m.height = root.height := by
      rw [(hs.levelled hroot).1.height_eq, hroot.height_eq]
    exact ⟨hs.nodeCount_eq, hheight, by simp⟩
  | create => exact ⟨Node.nodeCount_eq_nodes _, rfl, by simp⟩
  | @descend root m r d n es fs hk ho hi =>
    have hroot := h.levelled root rfl
    obtain ⟨hm, -⟩ := ho.levelled d.two_le hroot (h.root_size root rfl).1
    have hheight : r.height = root.height + es.length := by
      rw [(hi.levelled d.two_le hm).1.height_eq, hroot.height_eq]
    have hopen := ho.nodeCount_eq
    have hinsert := hi.nodeCount_eq
    have hsplits : number .splitRoot (es ++ fs) = es.length := by
      rw [number_append, number_eq_length ho.kind_mem, number_eq_zero hi.kind_mem (by decide)]
      rfl
    have hchildren : number .splitChild (es ++ fs) = number .splitChild fs := by
      rw [number_append, number_eq_zero ho.kind_mem (by decide), Nat.zero_add]
    refine ⟨?_, ?_, ?_⟩
    · show r.nodeCount = root.nodeCount + _ + _ + 0
      rw [hsplits, hchildren]
      omega
    · show r.height = root.height + _ + 0
      rw [hsplits, hheight, Nat.add_zero]
    · intro e he
      rcases List.mem_append.1 he with he | he
      · exact List.mem_cons.2 (.inl (List.mem_singleton.1 (ho.kind_mem e he)))
      · exact List.mem_cons_of_mem _ (hi.kind_mem e he)

section
variable {P : Node κ ν → Option (Entry κ ν) → Node κ ν → List Event → Prop} {root m : Node κ ν}
  {o : Option (Entry κ ν)} (hP : Thins t.degree.least P) (h : t.Sound) (hroot : t.root = some root)
  (hp : P root o m es)
include hP h hroot hp

theorem Thins.root_eq :
    m.height = t.height ∧ m.nodeCount + number .mergeChildren es = t.nodeCount := by
  rw [nodeCount_of_root hroot]
  exact ⟨(hP.levelled hp (h.levelled root hroot)).height_eq, hP.nodeCount_eq hp⟩

/-- The root stays where it is. -/
theorem Thins.falls_of_keep (hs : s.root = some m) : t.Falls s es := by
  obtain ⟨hheight, hnodes⟩ := hP.root_eq h hroot hp
  refine ⟨?_, ?_, ?_, hP.kind_mem_append hp⟩
  · rw [hP.number_shrinkRoot hp, nodeCount_of_root hs, hnodes, Nat.add_zero]
  · rw [hP.number_shrinkRoot hp, height_of_root hs, hheight, Nat.add_zero]
  · intro g hg
    exact absurd hg (hP.not_mem_shrinkRoot hp g)

/-- The root gives way to what is one level and one node less. -/
theorem Thins.falls_of_shrink (hheight : m.height = s.height + 1)
    (hnodes : m.nodeCount = s.nodeCount + 1) : t.Falls s (es ++ [.shrinkRoot s.height]) := by
  obtain ⟨hheight', hnodes'⟩ := hP.root_eq h hroot hp
  have hshrinks : number .shrinkRoot (es ++ [.shrinkRoot s.height]) = 1 := by
    rw [number_append, hP.number_shrinkRoot hp]
    rfl
  refine ⟨?_, ?_, ?_, ?_⟩
  · rw [hshrinks, number_append]
    show _ + (_ + 0) + 1 = _
    omega
  · rw [hshrinks]
    omega
  · intro g hg
    rcases List.mem_append.1 hg with hg | hg
    · exact absurd hg (hP.not_mem_shrinkRoot hp g)
    · cases List.mem_singleton.1 hg
      rfl
  · exact List.forall_mem_append.2 ⟨hP.kind_mem_append hp, by simp [Event.kind]⟩

end

theorem Takes.falls {P : Node κ ν → Option (Entry κ ν) → Node κ ν → List Event → Prop}
    {o : Option (Entry κ ν)} (ht : Takes P t o s es) (h : t.Sound)
    (hP : Thins t.degree.least P) : t.Falls s es := by
  cases ht with
  | empty => exact ⟨rfl, rfl, by simp, by simp⟩
  | keep hp hne hn => exact hP.falls_of_keep h rfl hp rfl
  | vanish hp hn => exact hP.falls_of_shrink h rfl hp rfl (Node.nodeCount_eq_nodes _)
  | @shrink root c d size n o es hp hn =>
    refine hP.falls_of_shrink h rfl hp rfl ?_
    rw [Node.nodeCount_eq_nodes]
    show 1 + (c.nodeCount + 0) = c.nodeCount + 1
    omega

/-! ## Runs -/

theorem pop_falls (h : t.Sound) (e : End) :
    ∃ o s es, t.pop e = .done (o, s) es ∧ t.Falls s es := by
  obtain ⟨s, es, ht, heq, -⟩ := pop_spec h e
  exact ⟨_, s, es, heq, ht.falls h (thins_pops e _)⟩

section
variable [Std.TransOrd κ]

theorem insert_grows {k : κ} {v : ν} {o : Option ν} {es : List Event} (h : t.Sound)
    (hs : t.insert k v = .done (o, s) es) : t.Grows s es :=
  (h.of_insert hs).1.grows h

theorem removeEntry_falls (h : t.Sound) (k : κ) :
    ∃ o s es, t.removeEntry k = .done (o, s) es ∧ t.Falls s es := by
  obtain ⟨s, es, ht, heq, -⟩ := removeEntry_spec h k
  exact ⟨_, s, es, heq, ht.falls h (thins_removes _ k)⟩

theorem remove_falls (h : t.Sound) (k : κ) :
    ∃ o s es, t.remove k = .done (o, s) es ∧ t.Falls s es := by
  obtain ⟨o, s, es, heq, hfalls⟩ := removeEntry_falls h k
  exact ⟨o.map Entry.value, s, es, by simp [remove, heq, Edit.done_after], hfalls⟩

theorem store?_accounts (h : t.Sound) (k : κ) (v : ν) :
    (∃ o s, t.store? k v = some (o, s) ∧ t.Accounts s [] (t.created s)) ∨
      t.store? k v = none := by
  rcases store?_spec h k v with ⟨e, s, -, hp, heq, -⟩ | ⟨-, heq⟩
  · exact .inl ⟨_, s, heq, (hp.grows h).accounts⟩
  · exact .inr heq

theorem insertMany_accounts {ps : List (κ × ν)} {es : List Event} (h : t.Sound)
    (hs : t.insertMany ps = .done s es) :
    t.Accounts s es (t.created s) ∧ (t.isEmpty = false → s.isEmpty = false) := by
  induction ps generalizing t es with
  | nil =>
    obtain ⟨rfl, rfl⟩ := Edit.done.inj hs
    exact ⟨(created_self t).symm ▸ .refl t, id⟩
  | cons p ps ih =>
    obtain ⟨k, v⟩ := p
    obtain ⟨⟨o, r⟩, fs, gs, hr, hrest, rfl⟩ := Edit.bind_eq_done_iff.1 hs
    have hgrows := insert_grows h hr
    obtain ⟨haccounts, hne⟩ := ih (h.of_insert hr).2.sound hrest
    have hrne := hgrows.isEmpty_eq_false
    -- if there is a root to be created, the first pair does it
    have hcreated : t.created r + r.created s = t.created s := by
      simp [created, hrne, hne hrne]
    exact ⟨hcreated ▸ hgrows.accounts.trans haccounts, fun _ => hne hrne⟩

/-- The trail of an update accounts for what it makes of a tree, unless it clears it. -/
theorem update_accounts {u : Update κ ν} {a : Answer κ ν} {es : List Event} (h : t.Sound)
    (hu : u ≠ .clear) (hs : t.update u = .done (a, s) es) : t.Accounts s es (t.created s) := by
  cases u with
  | insert k v =>
    obtain ⟨o, -, hs⟩ := Edit.answer_eq_done Answer.value hs
    exact (insert_grows h hs).accounts
  | store k v =>
    rcases store?_accounts h k v with ⟨o, r, heq, haccounts⟩ | heq
    · rw [update, heq] at hs
      cases hs
      exact haccounts
    · rw [update, heq] at hs
      cases hs
      exact (created_self t).symm ▸ .refl t
  | remove k =>
    obtain ⟨o, -, hs⟩ := Edit.answer_eq_done Answer.value hs
    obtain ⟨o', r, fs, heq, hfalls⟩ := remove_falls h k
    rw [heq] at hs
    cases hs
    exact hfalls.accounts
  | removeEntry k =>
    obtain ⟨o, -, hs⟩ := Edit.answer_eq_done Answer.entry hs
    obtain ⟨o', r, fs, heq, hfalls⟩ := removeEntry_falls h k
    rw [heq] at hs
    cases hs
    exact hfalls.accounts
  | pop e =>
    obtain ⟨o, -, hs⟩ := Edit.answer_eq_done Answer.entry hs
    obtain ⟨o', r, fs, heq, hfalls⟩ := pop_falls h e
    rw [heq] at hs
    cases hs
    exact hfalls.accounts
  | clear => exact absurd rfl hu
  | extend ps =>
    obtain ⟨r, fs, gs, hr, hpure, rfl⟩ := Edit.bind_eq_done_iff.1 hs
    cases hpure
    rw [List.append_nil]
    exact (insertMany_accounts h hr).1

theorem run_accounts {us : List (Update κ ν)} {ss : List (Answer κ ν × Tree κ ν)}
    {es : List Event} (h : t.Sound) (hus : ∀ u ∈ us, u ≠ .clear) (hs : t.run us = .done ss es) :
    t.Accounts ((ss.map Prod.snd).getLastD t) es (t.creations (ss.map Prod.snd)) := by
  induction us generalizing t ss es with
  | nil =>
    cases hs
    exact .refl t
  | cons u us ih =>
    obtain ⟨hu, hus⟩ := List.forall_mem_cons.1 hus
    obtain ⟨a, s, fs, rs, gs, heq, hrest, rfl, rfl⟩ := run_cons_eq_done_iff.1 hs
    have haccounts := update_accounts h hu heq
    obtain ⟨-, hsound, -⟩ := h.of_update ⟨fs, heq⟩
    rw [List.map_cons, List.getLastD_cons]
    exact haccounts.trans (ih hsound hus hrest)

end

/-- The trail accounts for every node and level that an update brings or takes, and so does the trail
of a whole run: levels come with splits of the root and with the first entry of an empty tree, they go
when the root gives way, and in no other manner.  An insertion, and so a run, ends as long as the
double of the degree fits a word. -/
theorem Reachable.trail_accounts [Std.TransOrd κ] (h : t.Reachable) :
    (∀ k v, (InWord t.degree.least → ∃ o s es, t.insert k v = .done (o, s) es) ∧
      ∀ o s es, t.insert k v = .done (o, s) es → t.Grows s es) ∧
    (∀ k, ∃ o s es, t.remove k = .done (o, s) es ∧ t.Falls s es) ∧
    (∀ k, ∃ o s es, t.removeEntry k = .done (o, s) es ∧ t.Falls s es) ∧
    (∀ e, ∃ o s es, t.pop e = .done (o, s) es ∧ t.Falls s es) ∧
    ∀ us : List (Update κ ν), (∀ u ∈ us, u ≠ .clear) →
      (InWord t.degree.least → ∃ ss es, t.run us = .done ss es) ∧
      ∀ ss es, t.run us = .done ss es →
        t.Accounts ((ss.map Prod.snd).getLastD t) es (t.creations (ss.map Prod.snd)) := by
  refine ⟨fun k v => ⟨fun hw => ?_, fun _ _ _ => insert_grows h.sound⟩, remove_falls h.sound,
    removeEntry_falls h.sound, pop_falls h.sound, fun us hus => ⟨fun hw => exists_run h.sound hw us,
      fun _ _ => run_accounts h.sound hus⟩⟩
  obtain ⟨s, es, -, heq, -⟩ := insert_spec h.sound hw k v
  exact ⟨_, s, es, heq⟩

/-- A map is emptied, filled until its root splits, and thinned out until the root gives way. -/
def riseAndFall : List (Update Nat Nat) :=
  [.insert 1 1, .pop .back, .extend [(1, 1), (2, 2), (3, 3), (4, 4), (5, 5), (6, 6)], .pop .front,
    .removeEntry 4, .remove 9, .remove 3, .remove 5]

/-- From the trail alone it is known that a single leaf is left. -/
theorem trail_accounts_of_riseAndFall :
    ∃ ss es, (Tree.empty ⟨2, by decide⟩).run riseAndFall = .done ss es ∧
      es = [.shrinkRoot 0, .splitRoot 3, .splitChild 1 1 1, .mergeChildren 0 1 1,
        .mergeChildren 0 1 1, .shrinkRoot 1] ∧
      ((ss.map Prod.snd).getLastD (Tree.empty ⟨2, by decide⟩)).nodeCount = 1 ∧
      ((ss.map Prod.snd).getLastD (Tree.empty ⟨2, by decide⟩)).height = 1 := by
  obtain ⟨-, -, -, -, hrun⟩ := Reachable.trail_accounts
    (.empty ⟨2, by decide⟩ : (Tree.empty ⟨2, by decide⟩ : Tree Nat Nat).Reachable)
  obtain ⟨hends, haccounts⟩ := hrun riseAndFall (by decide)
  obtain ⟨ss, es, heq⟩ := hends (by decide)
  have haccounts := haccounts ss es heq
  have htrail : (match (Tree.empty ⟨2, by decide⟩).run riseAndFall with
    | .done ss es => (es, (Tree.empty ⟨2, by decide⟩).creations (ss.map Prod.snd))
    | .fault _ => ([], 0)) = ([.shrinkRoot 0, .splitRoot 3, .splitChild 1 1 1,
      .mergeChildren 0 1 1, .mergeChildren 0 1 1, .shrinkRoot 1], 2) := by
    cbv
  rw [heq] at htrail
  obtain ⟨hes, hcreations⟩ := Prod.mk.inj htrail
  rw [hes, hcreations] at haccounts
  exact ⟨ss, es, heq, hes, Nat.add_right_cancel (m := 4) haccounts.nodeCount_eq,
    Nat.add_right_cancel (m := 2) haccounts.height_eq⟩

end BTree.Tree
