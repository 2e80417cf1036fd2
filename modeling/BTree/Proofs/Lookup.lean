import BTree.Node.Lookup
import BTree.Proofs.Association
import BTree.Proofs.Levels
import BTree.Proofs.Search

/-!
# Lookups and stores on a sound node

A lookup below a sound node finds the entry that the list model finds.  `Stores k v n e m` derives a
store, which changes the value of that entry and nothing else:

    n.get? k = Association.find? k n.toList                                  (get?_eq)
    n.store? k v = some (e.value, m), where Stores k v n e m,
      or none and Association.find? k n.toList = none                        (store?_cases)
    Stores k v n e m  →  n.store? k v = some (e.value, m)                    (store?_of_stores)
    Stores k v n e m  →  m.toList = Association.insert k v n.toList          (Stores.toList_eq)
-/

namespace BTree

variable {κ ν : Type} [Ord κ]

/-- `Stores k v n e m`: storing `v` under `k` below `n` changes the value of the entry `e` and leaves
`m`. -/
inductive Stores (k : κ) (v : ν) : Node κ ν → Entry κ ν → Node κ ν → Prop
  /-- The entry is one of the node. -/
  | hit {l r : List (Entry κ ν)} {e : Entry κ ν} {cs : List (Node κ ν)}
      (he : compare k e.key = .eq) :
      Stores k v ⟨l ++ e :: r, cs⟩ e ⟨l ++ { e with value := v } :: r, cs⟩
  /-- The entry lies below the child in the gap. -/
  | descend {x : Context κ ν} {c d : Node κ ν} {e : Entry κ ν}
      (hb : Brackets x.leftEntries x.rightEntries k) (hs : Stores k v c e d) :
      Stores k v (x.plug c) e (x.plug d)

namespace Node

variable [Std.TransOrd κ] {ok : Nat → Prop}

theorem get?_eq {h : Nat} (k : κ) {n : Node κ ν} (hn : n.Levelled ok h)
    (hasc : Ascending n.toList) : n.get? k = Association.find? k n.toList := by
  induction h generalizing n with
  | zero => cases hn
  | succ h ih =>
    have hreach := search_reached hn hasc k
    rw [get?]
    generalize search Entry.key n.entries k = pos at hreach
    cases hreach with
    | @hit _ _ l r e i hes hi he =>
      obtain ⟨es, cs⟩ := n
      obtain rfl : es = l ++ e :: r := hes
      obtain ⟨p, q, hpq⟩ := hn.exists_toList_eq
      rw [hpq] at hasc ⊢
      rw [Association.find?_at (brackets_of_eq hasc he) he]
      simp [hi]
    | @miss l r i hi hb =>
      rw [toList_childless, Association.find?_eq_none_of_brackets hb]
      simp
    | @child g x c i hi hb hx hc =>
      simp only [dif_pos (x.lt_length_children_plug c hi), Context.get_children_plug hi]
      rw [ih hc.levelled (Context.ascending_child hasc),
        Association.find?_plug (Context.brackets hasc hb)]

/-- What is derived below an ascending node is what the store does. -/
theorem store?_of_stores {k : κ} {v : ν} {n m : Node κ ν} {e : Entry κ ν} (hs : Stores k v n e m)
    (hasc : Ascending n.toList) : n.store? k v = some (e.value, m) := by
  induction hs with
  | @hit l r e cs he =>
    obtain ⟨i, hsearch, hi⟩ := search_found (ascending_entries hasc) he
    rw [store?, hsearch]
    simp [hi, Entry.exchange]
  | @descend x c d e hb hs ih =>
    obtain ⟨i, hsearch, hi⟩ := search_gap (ascending_entries hasc) hb
    have hsearch : search Entry.key (x.plug c).entries k = .gap i := hsearch
    have hi : i.val = x.index := hi
    rw [store?, hsearch]
    simp only [dif_pos (x.lt_length_children_plug c hi), Context.get_children_plug hi]
    rw [ih (Context.ascending_child hasc), Option.map_some, hi, x.set_children_plug]
    rfl

/-- A store below a sound node is one of those derived, or refused because the key is absent. -/
theorem store?_cases {h : Nat} (k : κ) (v : ν) {n : Node κ ν} (hn : n.Levelled ok h)
    (hasc : Ascending n.toList) :
    (∃ e m, Stores k v n e m ∧ n.store? k v = some (e.value, m)) ∨
      (Association.find? k n.toList = none ∧ n.store? k v = none) := by
  induction h generalizing n with
  | zero => cases hn
  | succ h ih =>
    have hreach := search_reached hn hasc k
    generalize hsearch : search Entry.key n.entries k = pos at hreach
    cases hreach with
    | @hit _ _ l r e i hes hi he =>
      left
      obtain ⟨es, cs⟩ := n
      obtain rfl : es = l ++ e :: r := hes
      exact ⟨e, _, .hit he, store?_of_stores (.hit he) hasc⟩
    | @miss l r i hi hb =>
      right
      rw [toList_childless, store?, hsearch]
      exact ⟨Association.find?_eq_none_of_brackets hb, by simp⟩
    | @child g x c i hi hb hx hc =>
      rcases ih hc.levelled (Context.ascending_child hasc) with ⟨e, m, hs, -⟩ | ⟨hfind, hstore⟩
      · have hs : Stores k v (x.plug c) e (x.plug m) := .descend hb hs
        exact .inl ⟨e, _, hs, store?_of_stores hs hasc⟩
      · right
        rw [Association.find?_plug (Context.brackets hasc hb), store?, hsearch]
        simp only [dif_pos (x.lt_length_children_plug c hi), Context.get_children_plug hi, hstore]
        exact ⟨hfind, rfl⟩

end Node

namespace Stores

variable {ok : Nat → Prop} {h : Nat} {k : κ} {v : ν} {n m : Node κ ν} {e : Entry κ ν}

theorem levelled (hs : Stores k v n e m) (hn : n.Levelled ok h) :
    m.Levelled ok h ∧ m.entries.length = n.entries.length := by
  induction hs generalizing h with
  | hit he => exact ⟨hn.exchange _, by simp⟩
  | @descend x c d e hb hs ih =>
    obtain ⟨g, rfl, hx, hc⟩ := Context.levelled_plug_iff.1 hn
    obtain ⟨hd, hlen⟩ := ih hc.levelled
    refine ⟨Context.levelled_plug_iff.2 ⟨g, rfl, hx, hlen ▸ hc.size, hd⟩, ?_⟩
    rw [Context.length_entries_plug, Context.length_entries_plug]

/-- The entry is the one that holds the key, and its value is replaced in place. -/
theorem toList_eq [Std.TransOrd κ] (hs : Stores k v n e m) (hn : n.Levelled ok h)
    (hasc : Ascending n.toList) :
    Association.find? k n.toList = some e ∧ m.toList = Association.insert k v n.toList := by
  induction hs generalizing h with
  | @hit l r e cs he =>
    obtain ⟨p, q, hpq⟩ := hn.exists_toList_eq
    have hb : Brackets p q k := brackets_of_eq (hpq e ▸ hasc) he
    rw [hpq, hpq, Association.find?_at hb he, Association.insert_at hb he]
    exact ⟨rfl, rfl⟩
  | @descend x c d e hb hs ih =>
    obtain ⟨g, rfl, hx, hc⟩ := Context.levelled_plug_iff.1 hn
    have hb' : Brackets x.before x.after k := Context.brackets hasc hb
    obtain ⟨hfind, hd⟩ := ih hc.levelled (Context.ascending_child hasc)
    rw [Association.find?_plug hb']
    exact ⟨hfind, Association.insert_plug hb' hd⟩

end Stores

end BTree
