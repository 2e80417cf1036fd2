import BTree.Key
import BTree.Node.Basic

/-!
# Entries in ascending order

All that is asked of the keys is an order that is oriented and transitive (`Std.TransOrd`): keys that
compare equal need not be the same.  Entries are ascending when each is strictly below all later
ones, so no two of them hold equal keys.  A key is bracketed by two lists when the first lies below
it and the second above:

    Ascending (l ++ e :: r), compare k e.key = .eq  →  Brackets l r k     (brackets_of_eq)
-/

namespace BTree

variable {κ ν : Type} [Ord κ]

/-- Each entry is strictly below all later ones, by the order of the keys. -/
def Ascending (es : List (Entry κ ν)) : Prop := es.Pairwise fun a b => compare a.key b.key = .lt

instance (es : List (Entry κ ν)) : Decidable (Ascending es) :=
  inferInstanceAs (Decidable (es.Pairwise _))

/-- All of `l` is below `k`, and all of `r` above. -/
structure Brackets (l r : List (Entry κ ν)) (k : κ) : Prop where
  below : ∀ a ∈ l, compare a.key k = .lt
  above : ∀ b ∈ r, compare k b.key = .lt

/-! ## Lemmas -/

theorem ascending_nil : Ascending ([] : List (Entry κ ν)) := List.Pairwise.nil

theorem ascending_cons {e : Entry κ ν} {es : List (Entry κ ν)} :
    Ascending (e :: es) ↔ (∀ b ∈ es, compare e.key b.key = .lt) ∧ Ascending es :=
  List.pairwise_cons

theorem ascending_append {l r : List (Entry κ ν)} :
    Ascending (l ++ r) ↔
      Ascending l ∧ Ascending r ∧ ∀ a ∈ l, ∀ b ∈ r, compare a.key b.key = .lt :=
  List.pairwise_append

theorem Ascending.sublist {l r : List (Entry κ ν)} (h : Ascending r) (hs : l.Sublist r) :
    Ascending l :=
  List.Pairwise.sublist hs h

theorem Brackets.mono {l l' r r' : List (Entry κ ν)} {k : κ} (h : Brackets l r k) (hl : l' ⊆ l)
    (hr : r' ⊆ r) : Brackets l' r' k :=
  ⟨fun a ha => h.below a (hl ha), fun b hb => h.above b (hr hb)⟩

theorem Brackets.hold {l r : List (Entry κ ν)} {e : Entry κ ν} {k : κ} (h : Brackets l r k)
    (he : compare k e.key = .lt) : Brackets l (e :: r) k where
  below := h.below
  above b hb := by
    rcases List.mem_cons.1 hb with rfl | hb
    · exact he
    · exact h.above b hb

theorem Brackets.skip {l r : List (Entry κ ν)} {e : Entry κ ν} {k : κ} (h : Brackets l r k)
    (he : compare e.key k = .lt) : Brackets (l ++ [e]) r k where
  below a ha := by
    rcases List.mem_append.1 ha with ha | ha
    · exact h.below a ha
    · rw [List.mem_singleton.1 ha]
      exact he
  above := h.above

section
variable [Std.TransOrd κ]

/-- An entry whose key equals `k` splits the others into those below `k` and those above. -/
theorem brackets_of_eq {l r : List (Entry κ ν)} {e : Entry κ ν} {k : κ}
    (h : Ascending (l ++ e :: r)) (he : compare k e.key = .eq) : Brackets l r k := by
  rw [ascending_append, ascending_cons] at h
  obtain ⟨-, ⟨hr, -⟩, hl⟩ := h
  constructor
  · intro a ha
    have hae : compare a.key e.key = .lt := hl a ha e List.mem_cons_self
    exact Std.TransCmp.lt_of_lt_of_eq hae (Std.OrientedCmp.eq_symm he)
  · intro b hb
    exact Std.TransCmp.lt_of_eq_of_lt he (hr b hb)

/-- Entries below one that is below `k` are below `k` too. -/
theorem below_concat {l : List (Entry κ ν)} {e : Entry κ ν} {k : κ} (h : Ascending (l ++ [e]))
    (he : compare e.key k = .lt) : ∀ a ∈ l ++ [e], compare a.key k = .lt := by
  intro a ha
  rcases List.mem_append.1 ha with ha | ha
  · have hae : compare a.key e.key = .lt :=
      (ascending_append.1 h).2.2 a ha e List.mem_cons_self
    exact Std.TransCmp.lt_trans hae he
  · rw [List.mem_singleton] at ha
    rw [ha]
    exact he

/-- Entries above one that is above `k` are above `k` too. -/
theorem above_cons {r : List (Entry κ ν)} {e : Entry κ ν} {k : κ} (h : Ascending (e :: r))
    (he : compare k e.key = .lt) : ∀ b ∈ e :: r, compare k b.key = .lt := by
  intro b hb
  rcases List.mem_cons.1 hb with rfl | hb
  · exact he
  · exact Std.TransCmp.lt_trans he ((ascending_cons.1 h).1 b hb)

end

/-! ### Key types -/

instance : Std.TransOrd Caseless := inferInstanceAs (Std.TransCmp (compareOn Caseless.folded))

/-- Caseless keys compare as their letters do in lower case. -/
theorem Caseless.compare_eq {s t a b : String} (hs : s.toList.map Char.toLower = a.toList)
    (ht : t.toList.map Char.toLower = b.toList) :
    compare (⟨s⟩ : Caseless) ⟨t⟩ = compare a b := by
  have hsa : s.map Char.toLower = a := by rw [← String.toList_inj, String.toList_map, hs]
  have htb : t.map Char.toLower = b := by rw [← String.toList_inj, String.toList_map, ht]
  show compare (s.map Char.toLower) (t.map Char.toLower) = _
  rw [hsa, htb]

instance {α : Type} [Ord α] [Std.TransOrd α] : Std.TransOrd (Descending α) :=
  inferInstanceAs (Std.TransCmp fun a b => compareOn Descending.val b a)

end BTree
