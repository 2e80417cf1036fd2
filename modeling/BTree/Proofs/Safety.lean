import BTree.Proofs.Fetching
import BTree.Proofs.History
import BTree.Tree.Drain

/-!
# Freedom from faults

On a reachable tree nothing faults but a lookup that demands a key which is absent, as long as the
double of the degree fits a word.  The removal of a key that is present comes to its entry in a leaf,
or to a swap for a neighbour; it never comes back without that neighbour, so no tree is left half
changed.  A drain counts down along with what it hands out:

    d.remaining = d.pending.length  →  d.next? = ok (d.pending.head?, c)          (Drain.next?_eq_ok)
    InWord t.degree.least  →  every tree of t.run us is safe, if t is reachable   (Reachable.run_safe)
-/

namespace BTree

variable {κ ν : Type}

/-! ## Drains -/

namespace Drain

/-- `d.Leads c`: taking entries from the drain `d` leads to `c`. -/
inductive Leads (d : Drain κ ν) : Drain κ ν → Prop
  | start : Leads d d
  | next {c b : Drain κ ν} {o : Option (Entry κ ν)} (hc : Leads d c) (h : c.next? = .ok (o, b)) :
      Leads d b

theorem pending_eq_nil {ns : List (Node κ ν)} (h : step? ns = none) (r : Nat) :
    (⟨ns, r⟩ : Drain κ ν).pending = [] := by
  fun_induction step? ns with
  | case1 => rfl
  | case2 cs ns ih => simpa [pending] using ih h
  | case3 e es ns => cases h
  | case4 e es c cs ns => cases h

/-- A drain that counts right hands out the next entry, and counts right after it. -/
theorem next?_eq_ok {d : Drain κ ν} (hd : d.remaining = d.pending.length) :
    ∃ c, d.next? = .ok (d.pending.head?, c) ∧ c.pending = d.pending.tail ∧
      c.remaining = c.pending.length := by
  obtain ⟨ns, r⟩ := d
  cases hs : step? ns with
  | none =>
    have hnil := pending_eq_nil hs r
    refine ⟨⟨[], r⟩, ?_, ?_, ?_⟩
    · simp only [next?, hs, hnil]
      rfl
    · rw [hnil]
      rfl
    · rw [hnil] at hd
      exact hd
  | some p =>
    obtain ⟨e, ms⟩ := p
    have hp : (⟨ns, r⟩ : Drain κ ν).pending = e :: (⟨ms, r - 1⟩ : Drain κ ν).pending :=
      pending_step? hs r (r - 1)
    rw [hp] at hd ⊢
    have hdec : decrement r = .ok (r - 1) := by
      rw [decrement_eq_ok_iff]
      have hr : r = (⟨ms, r - 1⟩ : Drain κ ν).pending.length + 1 := hd
      omega
    refine ⟨⟨ms, r - 1⟩, ?_, rfl, ?_⟩
    · simp only [next?, hs, hdec]
      rfl
    · have hr : r = (⟨ms, r - 1⟩ : Drain κ ν).pending.length + 1 := hd
      show r - 1 = _
      omega

/-- Every drain that comes from one that counts right counts right. -/
theorem Leads.remaining_eq {d c : Drain κ ν} (h : d.Leads c)
    (hd : d.remaining = d.pending.length) : c.remaining = c.pending.length := by
  induction h with
  | start => exact hd
  | next hc h ih =>
    obtain ⟨b', heq, -, hb'⟩ := next?_eq_ok ih
    rw [heq] at h
    cases h
    exact hb'

end Drain

namespace Tree

theorem pending_drain (t : Tree κ ν) : t.drain.pending = t.toList := by
  obtain ⟨root, d, size⟩ := t
  cases root with
  | none => rfl
  | some root =>
    have hpending := Drain.pending_enter root [] size
    exact hpending.trans (List.append_nil _)

theorem remaining_drain (t : Tree κ ν) : t.drain.remaining = t.size := by
  obtain ⟨_ | root, d, size⟩ := t <;> rfl

variable [Ord κ]

/-- Nothing that is done with the tree faults, but for a lookup that demands an absent key. -/
structure Safe (t : Tree κ ν) : Prop where
  update : ∀ u : Update κ ν, ∃ a s es, t.update u = .done (a, s) es
  /-- The removal of a key that is present answers its entry, which it takes out of a leaf or swaps for
  a neighbour. -/
  removal : ∀ root ∈ t.root, ∀ k, ∀ e ∈ root.toList, compare k e.key = .eq →
    (∃ m es, root.remove t.degree.least k = .done (some e, m) es) ∧
      ((∃ n, Visits t.degree.least k root n ∧ Hits k n e) ∨
        ∃ s c, Fetches t.degree.least k root e s c)
  /-- A removal always gets the neighbour that it fetches, and then answers the entry found. -/
  neighbour : ∀ root ∈ t.root, ∀ k e s c, Fetches t.degree.least k root e s c →
    (∃ p d es, c.pop s t.degree.least = .done (some p, d) es) ∧
      ∃ m es, root.remove t.degree.least k = .done (some e, m) es
  /-- A lookup that demands its key faults just if the key is absent. -/
  fetch : ∀ k, (∃ e ∈ t.toList, compare k e.key = .eq ∧ t.fetch k = .ok e.value) ∨
    (∀ e ∈ t.toList, compare k e.key ≠ .eq) ∧ t.fetch k = .error .absentKey
  /-- A drain can be asked again and again. -/
  drain : ∀ d, t.drain.Leads d → ∃ c, d.next? = .ok (d.pending.head?, c)
  check : t.check = .ok ()

variable [Std.TransOrd κ] {t : Tree κ ν}

theorem Sound.fetch_cases (h : t.Sound) (k : κ) :
    (∃ e ∈ t.toList, compare k e.key = .eq ∧ t.fetch k = .ok e.value) ∨
    (∀ e ∈ t.toList, compare k e.key ≠ .eq) ∧ t.fetch k = .error .absentKey := by
  have hget : t.get? k = (Association.find? k t.toList).map Entry.value :=
    congrArg (Option.map Entry.value) (h.entry?_eq k)
  cases hfind : Association.find? k t.toList with
  | some e =>
    obtain ⟨hmem, he⟩ := (Association.find?_eq_some_iff h.ascending).1 hfind
    rw [hfind, Option.map_some] at hget
    exact .inl ⟨e, hmem, he, by rw [fetch, hget]⟩
  | none =>
    rw [hfind, Option.map_none] at hget
    exact .inr ⟨Association.find?_eq_none_iff.1 hfind, by rw [fetch, hget]⟩

theorem Sound.safe (h : t.Sound) (hw : InWord t.degree.least) : t.Safe where
  update u := by
    obtain ⟨s, es, heq, -⟩ := update_spec h hw u
    exact ⟨_, s, es, heq⟩
  removal root hroot k e he hk := by
    have hasc := h.ascending_root hroot
    have hfind := (Association.find?_eq_some_iff hasc).2 ⟨he, hk⟩
    exact Node.remove_present t.degree.two_le (h.levelled root hroot) hasc
      (h.root_size root hroot).1 hfind
  neighbour root hroot k e s c hf := by
    have hasc := h.ascending_root hroot
    obtain ⟨p, d, es, hpop⟩ :=
      hf.pop_eq_done t.degree.two_le (h.levelled root hroot) hasc (h.root_size root hroot).1
    exact ⟨⟨p, d, es, hpop⟩, hf.remove_eq_done hpop⟩
  fetch k := h.fetch_cases k
  drain d hd := by
    have hcount : t.drain.remaining = t.drain.pending.length := by
      rw [remaining_drain, pending_drain, h.size_eq_length]
    obtain ⟨c, heq, -⟩ := Drain.next?_eq_ok (hd.remaining_eq hcount)
    exact ⟨c, heq⟩
  check := h.check_eq_ok hw

/-- Whatever updates are run on a reachable tree of which the double of the degree fits a word, neither
they nor anything done with the trees on the way faults, but for a lookup that demands an absent key;
nor does making a tree. -/
theorem Reachable.run_safe (h : t.Reachable) (us : List (Update κ ν)) :
    (InWord t.degree.least →
      ∃ ss es, t.run us = .done ss es ∧ ∀ s ∈ t :: ss.map Prod.snd, s.Safe) ∧
    (∀ ps, ∃ s es, (Tree.ofList ps : Edit (Tree κ ν)) = .done s es) ∧
    ∀ {σ ρ : Type} (c : Codec κ ν σ ρ) (text : σ), ∃ x es, Tree.decode c text = .done x es := by
  refine ⟨fun hw => ?_, fun ps => ?_, fun c text => ?_⟩
  · obtain ⟨ss, es, hrun, -, hall⟩ := run_spec h.sound hw us
    refine ⟨ss, es, hrun, fun s hs => ?_⟩
    rcases List.mem_cons.1 hs with rfl | hs
    · exact h.sound.safe hw
    · obtain ⟨r, hr, rfl⟩ := List.mem_map.1 hs
      obtain ⟨hsound, hdegree⟩ := hall r hr
      exact hsound.safe (hdegree ▸ hw)
  · obtain ⟨s, es, heq, -⟩ := ofList_spec ps
    exact ⟨s, es, heq⟩
  · obtain ⟨x, es, heq, -⟩ := decode_spec c text
    exact ⟨x, es, heq⟩

/-- Twelve updates of an empty tree of descending keys, the first of which loads eight pairs. -/
theorem run_safe_descending :
    ∃ ss es, (Tree.empty ⟨2, by decide⟩ : Tree (Descending Nat) Nat).run
        [.extend [(⟨8⟩, 0), (⟨3⟩, 1), (⟨5⟩, 2), (⟨1⟩, 3), (⟨9⟩, 4), (⟨7⟩, 5), (⟨4⟩, 6), (⟨2⟩, 7)],
          .removeEntry ⟨5⟩, .remove ⟨6⟩, .remove ⟨8⟩, .pop .front, .insert ⟨3⟩ 8, .pop .back,
          .remove ⟨3⟩, .remove ⟨4⟩, .remove ⟨7⟩, .remove ⟨2⟩, .pop .back] = .done ss es ∧
      ∀ s ∈ Tree.empty ⟨2, by decide⟩ :: ss.map Prod.snd, s.Safe :=
  (Reachable.run_safe (.empty _) _).1 (by decide)

end Tree

end BTree
