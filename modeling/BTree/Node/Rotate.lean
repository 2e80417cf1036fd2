import BTree.Node.Basic

/-!
# Rotating

A rotation moves an entry from a child to its neighbour through the entry between them, and the
adjoining grandchild along with it.  It is refused, and the node left as it is, when there is no
such neighbour or when it has fewer than `t` entries.  The node gets no deeper:

    n.rotateLeft t i   yields (b, m)  →  m.depth ≤ n.depth     (depth_rotateLeft_le)
    n.rotateRight t i  yields (b, m)  →  m.depth ≤ n.depth     (depth_rotateRight_le)
-/

namespace BTree.Node

variable {κ ν : Type}

/-! ## Algorithm -/

/-- An entry taken from one end of a node, with the child beyond it and the node that remains. -/
structure Spare (κ ν : Type) where
  entry : Entry κ ν
  child : Option (Node κ ν)
  rest : Node κ ν

/-- Adds an entry at the left end, with the child before it. -/
def pushLeft (n : Node κ ν) (e : Entry κ ν) (child : Option (Node κ ν)) : Node κ ν :=
  ⟨e :: n.entries, child.toList ++ n.children⟩

/-- Adds an entry at the right end, with the child after it. -/
def pushRight (n : Node κ ν) (e : Entry κ ν) (child : Option (Node κ ν)) : Node κ ν :=
  ⟨n.entries ++ [e], n.children ++ child.toList⟩

/-- Takes the leftmost entry; a node of fewer than `t` entries spares none. -/
def popLeft (t : Nat) (n : Node κ ν) : Except Fault (Option (Spare κ ν)) :=
  if n.entries.length < t then .ok none
  else
    match n.entries with
    | [] => .error .outOfRange
    | e :: es => .ok (some ⟨e, n.children.head?, ⟨es, n.children.tail⟩⟩)

/-- Takes the rightmost entry; a node of fewer than `t` entries, or of none, spares none. -/
def popRight (t : Nat) (n : Node κ ν) : Option (Spare κ ν) :=
  if n.entries.length < t then none
  else n.entries.getLast?.map fun e =>
    ⟨e, n.children.getLast?, ⟨n.entries.dropLast, n.children.dropLast⟩⟩

/-- Moves the first entry of the right sibling up and the separator down to the child at `i`, if
that sibling exists and can spare it; tells whether it moved. -/
def rotateLeft (t : Nat) (n : Node κ ν) (i : Nat) : Edit (Bool × Node κ ν) :=
  match n.children[i + 1]? with
  | none => return (false, n)
  | some right => do
    match ← right.popLeft t with
    | none => return (false, n)
    | some spare =>
      let separator ← access n.entries i
      let c ← access n.children i
      .emit (.rotateLeft i)
      return (true, ⟨n.entries.set i spare.entry,
        (n.children.set (i + 1) spare.rest).set i (c.pushRight separator spare.child)⟩)

/-- Moves the last entry of the left sibling up and the separator down to the child at `i`, if that
sibling exists and can spare it; tells whether it moved. -/
def rotateRight (t : Nat) (n : Node κ ν) : (i : Nat) → Edit (Bool × Node κ ν)
  | 0 => return (false, n)
  | i + 1 => do
    let left ← access n.children i
    match left.popRight t with
    | none => return (false, n)
    | some spare =>
      let separator ← access n.entries i
      let c ← access n.children (i + 1)
      .emit (.rotateRight (i + 1))
      return (true, ⟨n.entries.set i spare.entry,
        (n.children.set i spare.rest).set (i + 1) (c.pushLeft separator spare.child)⟩)

/-! ## Lemmas -/

theorem depth_pushLeft_le {n : Node κ ν} {e : Entry κ ν} {child : Option (Node κ ν)} {d : Nat}
    (hn : n.depth ≤ d + 1) (hc : ∀ c ∈ child, c.depth ≤ d) :
    (n.pushLeft e child).depth ≤ d + 1 := by
  rw [depth_le_iff] at hn ⊢
  intro c h
  rcases List.mem_append.1 h with h | h
  · exact hc c (Option.mem_toList.1 h)
  · exact hn c h

theorem depth_pushRight_le {n : Node κ ν} {e : Entry κ ν} {child : Option (Node κ ν)} {d : Nat}
    (hn : n.depth ≤ d + 1) (hc : ∀ c ∈ child, c.depth ≤ d) :
    (n.pushRight e child).depth ≤ d + 1 := by
  rw [depth_le_iff] at hn ⊢
  intro c h
  rcases List.mem_append.1 h with h | h
  · exact hn c h
  · exact hc c (Option.mem_toList.1 h)

theorem popLeft_eq_some_iff {t : Nat} {n : Node κ ν} {s : Spare κ ν} :
    n.popLeft t = .ok (some s) ↔
      t ≤ n.entries.length ∧ n.entries = s.entry :: s.rest.entries ∧
        s.child = n.children.head? ∧ s.rest.children = n.children.tail := by
  obtain ⟨e, c, es, cs⟩ := s
  unfold popLeft
  split
  · next h => simp; omega
  · next h =>
    split
    · next he => simp [he]
    · next f fs he =>
      simp only [Except.ok.injEq, Option.some.injEq, Spare.mk.injEq, Node.mk.injEq, he,
        List.cons.injEq]
      constructor
      · rintro ⟨rfl, rfl, rfl, rfl⟩
        exact ⟨by rw [he] at h; omega, ⟨rfl, rfl⟩, rfl, rfl⟩
      · rintro ⟨-, ⟨rfl, rfl⟩, rfl, rfl⟩
        exact ⟨rfl, rfl, rfl, rfl⟩

theorem popRight_eq_some_iff {t : Nat} {n : Node κ ν} {s : Spare κ ν} :
    n.popRight t = some s ↔
      t ≤ n.entries.length ∧ n.entries = s.rest.entries ++ [s.entry] ∧
        s.child = n.children.getLast? ∧ s.rest.children = n.children.dropLast := by
  obtain ⟨e, c, es, cs⟩ := s
  unfold popRight
  split
  · next h => simp; omega
  · next h =>
    simp only [Option.map_eq_some_iff, Spare.mk.injEq, Node.mk.injEq]
    constructor
    · rintro ⟨f, hf, rfl, rfl, rfl, rfl⟩
      obtain ⟨fs, hfs⟩ := List.getLast?_eq_some_iff.1 hf
      exact ⟨by omega, by simp [hfs], rfl, rfl⟩
    · rintro ⟨-, he, rfl, rfl⟩
      exact ⟨e, by simp [he], rfl, rfl, by simp [he], rfl⟩

theorem rotateLeft_yields_true_iff {t i : Nat} {n m : Node κ ν} :
    (n.rotateLeft t i).Yields (true, m) ↔
      ∃ separator c right s, n.entries[i]? = some separator ∧ n.children[i]? = some c ∧
        n.children[i + 1]? = some right ∧ right.popLeft t = .ok (some s) ∧
        m = ⟨n.entries.set i s.entry,
          (n.children.set (i + 1) s.rest).set i (c.pushRight separator s.child)⟩ := by
  unfold rotateLeft
  split
  · next h => simp [h, Edit.Yields]
  · next right h =>
    simp only [Edit.yields_bind_iff, Edit.yields_liftM_iff, h]
    constructor
    · rintro ⟨o, ho, h⟩
      split at h
      · simp [Edit.Yields] at h
      · next s =>
        simp only [Edit.yields_bind_iff, Edit.yields_liftM_iff, access_eq_ok_iff,
          Edit.yields_pure_iff] at h
        obtain ⟨separator, hs, c, hc, -, -, h⟩ := h
        cases h
        exact ⟨separator, c, right, s, hs, hc, rfl, ho, rfl⟩
    · rintro ⟨separator, c, right', s, hs, hc, hr, ho, rfl⟩
      cases hr
      refine ⟨some s, ho, ?_⟩
      simp only [Edit.yields_bind_iff, Edit.yields_liftM_iff, access_eq_ok_iff,
        Edit.yields_pure_iff]
      exact ⟨separator, hs, c, hc, (), ⟨_, rfl⟩, rfl⟩

theorem rotateLeft_yields_false {t i : Nat} {n m : Node κ ν}
    (h : (n.rotateLeft t i).Yields (false, m)) : m = n := by
  unfold rotateLeft at h
  split at h
  · cases Edit.yields_pure_iff.1 h
    rfl
  · simp only [Edit.yields_bind_iff, Edit.yields_liftM_iff] at h
    obtain ⟨o, -, h⟩ := h
    split at h
    · cases Edit.yields_pure_iff.1 h
      rfl
    · simp only [Edit.yields_bind_iff, Edit.yields_pure_iff] at h
      obtain ⟨_, -, _, -, _, -, h⟩ := h
      cases h

theorem rotateRight_yields_true_iff {t i : Nat} {n m : Node κ ν} :
    (n.rotateRight t (i + 1)).Yields (true, m) ↔
      ∃ separator c left s, n.entries[i]? = some separator ∧ n.children[i + 1]? = some c ∧
        n.children[i]? = some left ∧ left.popRight t = some s ∧
        m = ⟨n.entries.set i s.entry,
          (n.children.set i s.rest).set (i + 1) (c.pushLeft separator s.child)⟩ := by
  simp only [rotateRight, Edit.yields_bind_iff, Edit.yields_liftM_iff, access_eq_ok_iff]
  constructor
  · rintro ⟨left, hl, h⟩
    split at h
    · simp [Edit.Yields] at h
    · next s ho =>
      simp only [Edit.yields_bind_iff, Edit.yields_liftM_iff, access_eq_ok_iff,
        Edit.yields_pure_iff] at h
      obtain ⟨separator, hs, c, hc, -, -, h⟩ := h
      cases h
      exact ⟨separator, c, left, s, hs, hc, hl, ho, rfl⟩
  · rintro ⟨separator, c, left, s, hs, hc, hl, ho, rfl⟩
    refine ⟨left, hl, ?_⟩
    simp only [ho, Edit.yields_bind_iff, Edit.yields_liftM_iff, access_eq_ok_iff,
      Edit.yields_pure_iff]
    exact ⟨separator, hs, c, hc, (), ⟨_, rfl⟩, rfl⟩

theorem rotateRight_yields_false {t i : Nat} {n m : Node κ ν}
    (h : (n.rotateRight t i).Yields (false, m)) : m = n := by
  cases i with
  | zero =>
    cases Edit.yields_pure_iff.1 h
    rfl
  | succ i =>
    simp only [rotateRight, Edit.yields_bind_iff, Edit.yields_liftM_iff] at h
    obtain ⟨_, -, h⟩ := h
    split at h
    · cases Edit.yields_pure_iff.1 h
      rfl
    · simp only [Edit.yields_bind_iff, Edit.yields_pure_iff] at h
      obtain ⟨_, -, _, -, _, -, h⟩ := h
      cases h

theorem depth_rotateLeft_le {t i : Nat} {n m : Node κ ν} {b : Bool}
    (h : (n.rotateLeft t i).Yields (b, m)) : m.depth ≤ n.depth := by
  cases b with
  | false => exact Nat.le_of_eq (congrArg depth (rotateLeft_yields_false h))
  | true =>
    obtain ⟨separator, c, right, s, -, hc, hr, hs, rfl⟩ := rotateLeft_yields_true_iff.1 h
    obtain ⟨-, -, hchild, hrest⟩ := popLeft_eq_some_iff.1 hs
    obtain ⟨d, hd⟩ := Nat.exists_eq_succ_of_ne_zero (Nat.ne_of_gt n.depth_pos)
    have hn := depth_le_iff.1 (Nat.le_of_eq hd)
    have hcd := hn c (List.mem_of_getElem? hc)
    have hrd := hn right (List.mem_of_getElem? hr)
    rw [hd, depth_le_iff]
    intro x hx
    rcases List.mem_or_eq_of_mem_set hx with hx | rfl
    · rcases List.mem_or_eq_of_mem_set hx with hx | rfl
      · exact hn x hx
      · exact Nat.le_trans (depth_le_of_subset (hrest ▸ fun _ => List.mem_of_mem_tail)) hrd
    · obtain ⟨e, rfl⟩ := Nat.exists_eq_succ_of_ne_zero
        (Nat.ne_of_gt (Nat.lt_of_lt_of_le right.depth_pos hrd))
      refine depth_pushRight_le hcd fun x hx => ?_
      have := depth_lt_of_mem (List.mem_of_mem_head? (hchild ▸ hx))
      omega

theorem depth_rotateRight_le {t i : Nat} {n m : Node κ ν} {b : Bool}
    (h : (n.rotateRight t i).Yields (b, m)) : m.depth ≤ n.depth := by
  cases b with
  | false => exact Nat.le_of_eq (congrArg depth (rotateRight_yields_false h))
  | true =>
    cases i with
    | zero => simp [rotateRight, Edit.Yields] at h
    | succ i =>
      obtain ⟨separator, c, left, s, -, hc, hl, hs, rfl⟩ := rotateRight_yields_true_iff.1 h
      obtain ⟨-, -, hchild, hrest⟩ := popRight_eq_some_iff.1 hs
      obtain ⟨d, hd⟩ := Nat.exists_eq_succ_of_ne_zero (Nat.ne_of_gt n.depth_pos)
      have hn := depth_le_iff.1 (Nat.le_of_eq hd)
      have hcd := hn c (List.mem_of_getElem? hc)
      have hld := hn left (List.mem_of_getElem? hl)
      rw [hd, depth_le_iff]
      intro x hx
      rcases List.mem_or_eq_of_mem_set hx with hx | rfl
      · rcases List.mem_or_eq_of_mem_set hx with hx | rfl
        · exact hn x hx
        · exact Nat.le_trans (depth_le_of_subset (hrest ▸ List.dropLast_subset _)) hld
      · obtain ⟨e, rfl⟩ := Nat.exists_eq_succ_of_ne_zero
          (Nat.ne_of_gt (Nat.lt_of_lt_of_le left.depth_pos hld))
        refine depth_pushLeft_le hcd fun x hx => ?_
        have := depth_lt_of_mem (List.mem_of_getLast? (hchild ▸ hx))
        omega

end BTree.Node
