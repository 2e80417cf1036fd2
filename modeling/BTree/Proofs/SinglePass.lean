import BTree.Proofs.InPlace
import BTree.Proofs.NodeCount

/-!
# A single pass

An update goes down the tree once, and on the way from a level to the next it changes the structure at
most once.  `Pass P h es` tells this of the trail `es` of a descent through `h` levels, with `P` for
what each change is.  The root is apart: a split of it comes before the descent, and takes the place of
the first change of the descent; a root that gives way does so after it.

    Inserts t k v n o m es  →  Pass (Event.Splits (t - 1)) h es         (Inserts.pass)
    Removes t k n o m es    →  Pass (Event.Repairs (t - 1)) h es        (Removes.pass)
    t.insert k v = done (o, s) es  →  es has at most t.height splits    (Reachable.single_pass)
-/

namespace BTree

variable {κ ν : Type}

/-! ## Trails of a descent -/

/-- A child is split into halves of `m` entries. -/
inductive Event.Splits (m : Nat) : Event → Prop
  | splitChild (i : Nat) : Splits m (.splitChild i m m)

/-- A child comes by an entry to spare: it is joined with a sibling, where both hold `m` entries, or
takes an entry over from one. -/
inductive Event.Repairs (m : Nat) : Event → Prop
  | mergeChildren (i : Nat) : Repairs m (.mergeChildren i m m)
  | rotateLeft (i : Nat) : Repairs m (.rotateLeft i)
  | rotateRight (i : Nat) : Repairs m (.rotateRight i)

/-- `Pass P h es`: a descent through `h` levels emits `es`, at most one event on the way from a level
to the next, and each of them is as `P` tells. -/
inductive Pass (P : Event → Prop) : Nat → List Event → Prop
  /-- The descent ends on this level. -/
  | stop {h : Nat} : Pass P (h + 1) []
  | down {h : Nat} {es fs : List Event} (hes : ∀ e ∈ es, P e) (hle : es.length ≤ 1)
      (hp : Pass P h fs) : Pass P (h + 1) (es ++ fs)

namespace Pass

variable {P : Event → Prop} {h : Nat} {es : List Event}

/-- A level is passed without an event. -/
theorem skip (hp : Pass P h es) : Pass P (h + 1) es := by
  show Pass P (h + 1) ([] ++ es)
  exact .down (by simp) (Nat.zero_le 1) hp

/-- A level is passed with one event. -/
theorem step {e : Event} (he : P e) (hp : Pass P h es) : Pass P (h + 1) (e :: es) := by
  show Pass P (h + 1) ([e] ++ es)
  exact .down (List.forall_mem_singleton.2 he) (Nat.le_refl 1) hp

theorem each (hp : Pass P h es) : ∀ e ∈ es, P e := by
  induction hp with
  | stop => simp
  | down hes hle hp ih => exact List.forall_mem_append.2 ⟨hes, ih⟩

/-- On the last level there is nothing left to change. -/
theorem length_lt (hp : Pass P h es) : es.length < h := by
  induction hp with
  | stop => exact Nat.succ_pos _
  | down hes hle hp ih =>
    rw [List.length_append]
    omega

end Pass

/-! ## Below the root -/

theorem Event.Splits.kind_eq {m : Nat} {e : Event} (he : e.Splits m) : e.kind = .splitChild := by
  cases he
  rfl

theorem Event.Repairs.kind_mem {m : Nat} {e : Event} (he : e.Repairs m) :
    e.kind ∈ [.mergeChildren, .rotate] := by
  cases he <;> simp [Event.kind]

/-- A node below the root that has no entry to spare holds the fewest allowed. -/
theorem Node.Stands.length_of_short {ok : Nat → Prop} {t h : Nat} {n : Node κ ν}
    (hn : n.Stands (Occupied t) ok h)
    (hlt : n.entries.length < t) : n.entries.length = t - 1 := by
  have hmin : t - 1 ≤ n.entries.length := hn.size.1
  omega

/-- A child is filled with one change at most, and only children that hold the fewest entries allowed
are joined. -/
theorem Fills.repairs {t h : Nat} {x y : Context κ ν} {c d : Node κ ν} {es : List Event}
    (hf : Fills t x c y d es) (hx : x.Fits (Occupied t) h) (hc : c.Fits (Occupied t) h) :
    (∀ e ∈ es, e.Repairs (t - 1)) ∧ es.length ≤ 1 := by
  cases hf with
  | keep hle => exact ⟨by simp, Nat.zero_le 1⟩
  | borrowLeft hlt ha hg => exact ⟨List.forall_mem_singleton.2 (.rotateRight _), Nat.le_refl 1⟩
  | borrowRight hlt hl hb hg => exact ⟨List.forall_mem_singleton.2 (.rotateLeft _), Nat.le_refl 1⟩
  | @mergeRight x b c e hlt hl hb =>
    obtain ⟨-, hbf⟩ := Context.stands_hold_iff.1 hx
    rw [hc.length_of_short hlt, hbf.length_of_short hb]
    exact ⟨List.forall_mem_singleton.2 (.mergeChildren _), Nat.le_refl 1⟩
  | @mergeLeft x a c e hlt ha hr =>
    obtain ⟨-, haf⟩ := Context.stands_skip_iff.1 hx
    rw [hc.length_of_short hlt, haf.length_of_short ha]
    exact ⟨List.forall_mem_singleton.2 (.mergeChildren _), Nat.le_refl 1⟩

theorem Pops.pass {s : End} {t h : Nat} {n m : Node κ ν} {e : Entry κ ν} {es : List Event}
    (hp : Pops s t n e m es) (hn : n.Levelled (Occupied t) h) :
    Pass (Event.Repairs (t - 1)) h es := by
  induction hp generalizing h with
  | leaf =>
    obtain ⟨g, rfl⟩ := hn.exists_height
    exact .stop
  | @inner x y c d m e es fs hx hf hp ih =>
    obtain ⟨g, rfl, hxf, hc⟩ := Context.levelled_plug_iff.1 hn
    obtain ⟨-, hd, -⟩ := hf.stands hxf hc
    obtain ⟨heach, hle⟩ := hf.repairs hxf hc
    exact .down heach hle (ih hd.levelled)

section
variable [Ord κ] {t h : Nat} {k : κ} {v : ν} {n m : Node κ ν} {es : List Event}

/-- The neighbour of an entry is taken on the same descent, and what is joined over an entry is not
filled again. -/
theorem Removes.pass {o : Option (Entry κ ν)} (hr : Removes t k n o m es)
    (hn : n.Levelled (Occupied t) h) : Pass (Event.Repairs (t - 1)) h es := by
  induction hr generalizing h with
  | hit he =>
    obtain ⟨g, rfl⟩ := hn.exists_height
    exact .stop
  | miss hb =>
    obtain ⟨g, rfl⟩ := hn.exists_height
    exact .stop
  | predecessor he ha hp =>
    obtain ⟨g, rfl, -, haf, -⟩ := Context.levelled_pair_iff.1 hn
    exact (hp.pass haf.levelled).skip
  | successor he ha hb hp =>
    obtain ⟨g, rfl, -, -, hbf⟩ := Context.levelled_pair_iff.1 hn
    exact (hp.pass hbf.levelled).skip
  | @merge x a b m e o es he ha hb hr ih =>
    obtain ⟨g, rfl, -, haf, hbf⟩ := Context.levelled_pair_iff.1 hn
    obtain ⟨hab, -⟩ := Node.stands_append e haf hbf ha hb
    rw [haf.length_of_short ha, hbf.length_of_short hb]
    exact .step (.mergeChildren _) (ih hab.levelled)
  | descend hb hf hr ih =>
    obtain ⟨g, rfl, hx, hc⟩ := Context.levelled_plug_iff.1 hn
    obtain ⟨-, hd, -⟩ := hf.stands hx hc
    obtain ⟨heach, hle⟩ := hf.repairs hx hc
    exact .down heach hle (ih hd.levelled)

theorem Inserts.pass {o : Option ν} (hi : Inserts t k v n o m es) (ht : 1 ≤ t)
    (hn : n.Levelled (Occupied t) h) : Pass (Event.Splits (t - 1)) h es := by
  induction hi generalizing h with
  | replace he =>
    obtain ⟨g, rfl⟩ := hn.exists_height
    exact .stop
  | leaf hb =>
    obtain ⟨g, rfl⟩ := hn.exists_height
    exact .stop
  | descend hb hc hi ih =>
    obtain ⟨g, rfl, -, hcf⟩ := Context.levelled_plug_iff.1 hn
    exact (ih hcf.levelled).skip
  | splitLeft hb hc hs hk hi ih =>
    obtain ⟨g, rfl, -, hcf⟩ := Context.levelled_plug_iff.1 hn
    obtain ⟨-, ha, -, halen, hblen⟩ := Node.split_full ht hcf hc hs
    rw [halen, hblen]
    exact .step (.splitChild _) (ih ha.levelled)
  | splitMedian hb hc hs hk =>
    obtain ⟨g, rfl, -, hcf⟩ := Context.levelled_plug_iff.1 hn
    obtain ⟨-, -, -, halen, hblen⟩ := Node.split_full ht hcf hc hs
    rw [halen, hblen]
    exact .step (.splitChild _) .stop
  | splitRight hb hc hs hk hi ih =>
    obtain ⟨g, rfl, -, hcf⟩ := Context.levelled_plug_iff.1 hn
    obtain ⟨-, -, hb', halen, hblen⟩ := Node.split_full ht hcf hc hs
    rw [halen, hblen]
    exact .step (.splitChild _) (ih hb'.levelled)

/-- Where every child of a node has room, none of them is split. -/
theorem Inserts.pass_of_room {o : Option ν} (hi : Inserts t k v n o m es) (ht : 1 ≤ t)
    (hn : n.Levelled (Occupied t) (h + 2)) (hroom : ∀ c ∈ n.children, c.entries.length < 2 * t - 1) :
    Pass (Event.Splits (t - 1)) (h + 1) es := by
  have hgap (x : Context κ ν) (c : Node κ ν) : c ∈ (x.plug c).children := by simp [Context.plug]
  cases hi with
  | replace he => exact .stop
  | leaf hb => exact .stop
  | @descend x c d o es hb hc hi =>
    obtain ⟨g, hg, -, hcf⟩ := Context.levelled_plug_iff.1 hn
    obtain rfl : h = g := by omega
    exact hi.pass ht hcf.levelled
  | splitLeft hb hc hs hk hi => exact absurd (hroom _ (hgap _ _)) (Nat.not_lt.2 hc)
  | splitMedian hb hc hs hk => exact absurd (hroom _ (hgap _ _)) (Nat.not_lt.2 hc)
  | splitRight hb hc hs hk hi => exact absurd (hroom _ (hgap _ _)) (Nat.not_lt.2 hc)

end

/-! ## From the root -/

namespace Tree

/-- The trail of an insertion into a tree of `h` levels: at most `h` splits, and that of the root, if
there is one, before those of children. -/
def SplitTrail (h : Nat) (es : List Event) : Prop :=
  es.length ≤ h ∧ ∃ fs gs, es = fs ++ gs ∧ (fs = [] ∨ ∃ n, fs = [.splitRoot n]) ∧
    ∀ e ∈ gs, e.kind = .splitChild

/-- The trail of a removal from a tree of `h` levels: a merge or a rotation for each level but one at
most, and then at most that the root gives way. -/
def RepairTrail (h : Nat) (es : List Event) : Prop :=
  ∃ fs gs, es = fs ++ gs ∧ fs.length ≤ h - 1 ∧ (∀ e ∈ fs, e.kind ∈ [.mergeChildren, .rotate]) ∧
    (gs = [] ∨ ∃ g, gs = [.shrinkRoot g])

/-! ### Removals -/

section
variable {t s : Tree κ ν} {take : Node κ ν → Edit (Option (Entry κ ν) × Node κ ν)}
  {o : Option (Entry κ ν)} {es : List Event}

/-- After a removal nothing is emitted but that a root left without entries gives way. -/
theorem settle_trail {p : Option (Entry κ ν)} {m : Node κ ν}
    (heq : t.settle o m = .done (p, s) es) :
    es = [] ∨ m.entries = [] ∧ es = [.shrinkRoot ((m.children.head?.map Node.height).getD 0)] := by
  obtain ⟨n, hsize⟩ : ∃ n, n + (if o.isSome then 1 else 0) = t.size := by
    cases o with
    | none => exact ⟨t.size, rfl⟩
    | some e =>
      cases hdec : decrement t.size with
      | ok n => exact ⟨n, (decrement_eq_ok_iff.1 hdec).symm⟩
      | error f =>
        unfold settle at heq
        simp only [Option.isSome_some, if_true, hdec] at heq
        split at heq <;> cases heq
  rw [settle_eq_done hsize] at heq
  split at heq
  · next hm =>
    cases heq
    exact .inr ⟨List.isEmpty_iff.1 hm, rfl⟩
  · cases heq
    exact .inl rfl

/-- A removal emits what it does below the root, and then that the root gives way, if that is left
without entries. -/
theorem removing_trail (heq : t.removing take = .done (o, s) es) :
    es = [] ∨ ∃ root p m fs gs, t.root = some root ∧ take root = .done (p, m) fs ∧ es = fs ++ gs ∧
      (gs = [] ∨
        m.entries = [] ∧ gs = [.shrinkRoot ((m.children.head?.map Node.height).getD 0)]) := by
  unfold removing at heq
  split at heq
  · cases heq
    exact .inl rfl
  · next root hroot =>
    obtain ⟨⟨p, m⟩, fs, gs, htake, hsettle, rfl⟩ := Edit.bind_eq_done_iff.1 heq
    exact .inr ⟨root, p, m, fs, gs, hroot, htake, rfl, settle_trail hsettle⟩

/-- The operation `take` goes down from the root in a single pass, with all its changes repairs. -/
def Passes (t : Tree κ ν) (take : Node κ ν → Edit (Option (Entry κ ν) × Node κ ν)) : Prop :=
  ∀ root p fs, t.root = some root → take root = .done p fs →
    Pass (Event.Repairs t.degree.minEntries) t.height fs

theorem Passes.repairTrail (hpass : t.Passes take) (heq : t.removing take = .done (o, s) es) :
    RepairTrail t.height es := by
  rcases removing_trail heq with rfl | ⟨root, p, m, fs, gs, hroot, htake, rfl, hgs⟩
  · exact ⟨[], [], rfl, Nat.zero_le _, by simp, .inl rfl⟩
  · have hfs := hpass root _ fs hroot htake
    refine ⟨fs, gs, rfl, Nat.le_sub_one_of_lt hfs.length_lt,
      fun e he => (hfs.each e he).kind_mem, ?_⟩
    rcases hgs with rfl | ⟨-, rfl⟩
    · exact .inl rfl
    · exact .inr ⟨_, rfl⟩

variable [Ord κ]

theorem Sound.passes_pop (h : t.Sound) (e : End) : t.Passes (Node.pop e t.degree.least) := by
  intro root p fs hroot htake
  have hn := h.levelled root hroot
  obtain ⟨d, m, es, hp, heq⟩ :=
    Node.pop_eq_done t.degree.two_le e hn (h.root_size root hroot).1
  rw [htake] at heq
  cases heq
  exact hp.pass hn

theorem Sound.passes_remove [Std.TransOrd κ] (h : t.Sound) (k : κ) :
    t.Passes (Node.remove t.degree.least k) := by
  intro root p fs hroot htake
  have hn := h.levelled root hroot
  have hasc := h.ascending_root hroot
  obtain ⟨o, m, es, hr, heq⟩ :=
    Node.remove_eq_done t.degree.two_le k hn hasc (h.root_size root hroot).1
  rw [htake] at heq
  cases heq
  exact hr.pass hn

end

/-! ### Insertions -/

section
variable [Ord κ] {t s : Tree κ ν} {k : κ} {v : ν} {o : Option ν} {es : List Event}

/-- Where an insertion emits anything, the key is new.  The root is split if it is full, and as its
halves have room, they are not split again. -/
theorem Puts.trail (hp : Puts k v t o s es) (h : t.Sound) :
    es = [] ∨ Association.find? k t.toList = none ∧ ∃ root fs gs, t.root = some root ∧
      es = fs ++ gs ∧ (fs = [] ∨
        root.entries.length = 2 * t.degree.least - 1 ∧ fs = [.splitRoot t.size]) ∧
      (∀ e ∈ gs, e.Splits t.degree.minEntries) ∧ es.length ≤ t.height := by
  cases hp with
  | store hs => exact .inl rfl
  | create => exact .inl rfl
  | @descend root m r d n es fs hk ho hi =>
    have ht : 1 ≤ d.least := Nat.le_of_succ_le d.two_le
    have hn := h.levelled root rfl
    obtain ⟨hmin, hmax⟩ := h.root_size root rfl
    refine .inr ⟨hk, root, es, fs, rfl, rfl, ?_⟩
    cases ho with
    | room hroom =>
      have hpass := hi.pass ht hn
      exact ⟨.inl rfl, hpass.each, Nat.le_of_lt hpass.length_lt⟩
    | @split a b e hfull hs =>
      -- the new root is a level higher, and its level is the one that is passed without a split
      obtain ⟨g, hg⟩ := hn.exists_height
      have hfits : root.Fits (Occupied d.least) (g + 1) := ⟨⟨by omega, hmax⟩, hg ▸ hn⟩
      obtain ⟨-, ha, hb, halen, hblen⟩ := Node.split_full ht hfits (Nat.le_of_eq hfull.symm) hs
      have hroom : ∀ c ∈ (Node.binary a e b).children, c.entries.length < 2 * d.least - 1 :=
        List.forall_mem_cons.2 ⟨by omega, List.forall_mem_singleton.2 (by omega)⟩
      have hpass := hi.pass_of_room ht (Node.levelled_binary e ha hb) hroom
      refine ⟨.inr ⟨hfull, rfl⟩, hpass.each, ?_⟩
      rw [hg]
      exact hpass.length_lt

theorem Puts.splitTrail (hp : Puts k v t o s es) (h : t.Sound) : SplitTrail t.height es := by
  rcases hp.trail h with rfl | ⟨-, root, fs, gs, -, rfl, hfs, hgs, hle⟩
  · exact ⟨Nat.zero_le _, [], [], rfl, .inl rfl, by simp⟩
  · refine ⟨hle, fs, gs, rfl, ?_, fun e he => (hgs e he).kind_eq⟩
    rcases hfs with rfl | ⟨-, rfl⟩
    · exact .inl rfl
    · exact .inr ⟨_, rfl⟩

end

/-! ### Reachable trees -/

/-- Every update of a single key is a single pass: an insertion into a tree of `h` levels emits at most
`h` splits, and a removal at most `h - 1` merges and rotations before the root gives way.  An insertion
ends as long as the double of the degree fits a word. -/
theorem Reachable.single_pass [Ord κ] [Std.TransOrd κ] {t : Tree κ ν} (h : t.Reachable) :
    (∀ k v, (InWord t.degree.least → ∃ o s es, t.insert k v = .done (o, s) es) ∧
      ∀ o s es, t.insert k v = .done (o, s) es → SplitTrail t.height es) ∧
    (∀ k, ∃ o s es, t.remove k = .done (o, s) es ∧ RepairTrail t.height es) ∧
    (∀ k, ∃ o s es, t.removeEntry k = .done (o, s) es ∧ RepairTrail t.height es) ∧
    (∀ e, ∃ o s es, t.pop e = .done (o, s) es ∧ RepairTrail t.height es) := by
  have hremove (k : κ) :
      ∃ o s es, t.removeEntry k = .done (o, s) es ∧ RepairTrail t.height es := by
    obtain ⟨s, es, -, heq, -⟩ := removeEntry_spec h.sound k
    exact ⟨_, s, es, heq, (h.sound.passes_remove k).repairTrail heq⟩
  refine ⟨fun k v => ⟨fun hw => ?_, fun o s es heq => ?_⟩, fun k => ?_, hremove, fun e => ?_⟩
  · obtain ⟨s, es, -, heq, -⟩ := insert_spec h.sound hw k v
    exact ⟨_, s, es, heq⟩
  · exact (h.sound.of_insert heq).1.splitTrail h.sound
  · obtain ⟨o, s, es, heq, htrail⟩ := hremove k
    exact ⟨o.map Entry.value, s, es, by simp [remove, heq, Edit.done_after], htrail⟩
  · obtain ⟨s, es, -, heq, -⟩ := pop_spec h.sound e
    rw [pop_eq_removing] at heq
    exact ⟨_, s, es, pop_eq_removing e t ▸ heq, (h.sound.passes_pop e).repairTrail heq⟩

/-- Two levels take two splits, of the root and of its first child, and one rotation. -/
theorem single_pass_of_brimful :
    brimful.height = 2 ∧
      (∃ o s, brimful.insert ⟨"a"⟩ 0 = .done (o, s) [.splitRoot 10, .splitChild 0 1 1]) ∧
      SplitTrail 2 [.splitRoot 10, .splitChild 0 1 1] ∧
      (∃ o s, brimful.removeEntry ⟨"h"⟩ = .done (o, s) [.rotateRight 1]) ∧
      RepairTrail 2 [.rotateRight 1] := by
  have hheight : brimful.height = 2 := by cbv
  obtain ⟨hinsert, -, hremove, -⟩ := brimful_reachable.single_pass
  obtain ⟨hends, hsplits⟩ := hinsert ⟨"a"⟩ 0
  obtain ⟨o, s, es, heq⟩ := hends (by decide)
  have hes := hsplits o s es heq
  obtain ⟨p, r, fs, heq', hfs⟩ := hremove ⟨"h"⟩
  have htrail : (brimful.insert ⟨"a"⟩ 0).trail = [.splitRoot 10, .splitChild 0 1 1] := by cbv
  have htrail' : (brimful.removeEntry ⟨"h"⟩).trail = [.rotateRight 1] := by cbv
  rw [heq] at htrail
  rw [heq'] at htrail'
  obtain rfl : es = _ := htrail
  obtain rfl : fs = _ := htrail'
  exact ⟨hheight, ⟨o, s, heq⟩, hheight ▸ hes, ⟨p, r, heq'⟩, hheight ▸ hfs⟩

end Tree

end BTree
