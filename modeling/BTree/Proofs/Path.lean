import BTree.Proofs.NodeCount
import Mathlib.Data.List.Nodup

/-!
# Paths

A path tells the index of a child for each level, and so leads from a node to one below it.  All paths
of a node are listed in depth-first preorder, each node before what is below it; the place of a path
in that list is the number of the node that it leads to:

    p ∈ n.paths  ↔  the path p leads to a node                               (mem_paths_iff)
    n.number (i :: p) = 1 + the nodes before the child at i + c.number p     (number_cons)
    n.paths.map n.number = [0, 1, ..., n.nodeCount - 1]                      (map_number_paths)
-/

namespace BTree.Node

variable {α β κ ν : Type}

/-- The node to which a path leads. -/
def at? : Node κ ν → List Nat → Option (Node κ ν)
  | n, [] => some n
  | n, i :: p => n.children[i]?.bind fun c => c.at? p

/-- The paths into the children, given those of each child, of which the first has index `i`. -/
def joinPaths (i : Nat) : List (List (List Nat)) → List (List Nat)
  | [] => []
  | ps :: pss => ps.map (i :: ·) ++ joinPaths (i + 1) pss

/-- All paths, in depth-first preorder. -/
def paths : Node κ ν → List (List Nat)
  | ⟨_, cs⟩ => [] :: joinPaths 0 (cs.map fun c => c.paths)

/-- What is to hold of every node, from the top down. -/
def Everywhere (P : Node κ ν → Prop) (n : Node κ ν) : Prop := ∀ p m, n.at? p = some m → P m

/-- What `g` makes of the children one after another, given the number of each, of which the first
has number `id`. -/
def numbered (g : Nat → Node κ ν → List α) (id : Nat) : List (Node κ ν) → List α
  | [] => []
  | c :: cs => g id c ++ numbered g (id + c.nodeCount) cs

/-- The place of a path in preorder. -/
def number (n : Node κ ν) (p : List Nat) : Nat := n.paths.idxOf p

/-! ## Where a path leads -/

theorem paths_eq (n : Node κ ν) : n.paths = [] :: joinPaths 0 (n.children.map paths) := by
  obtain ⟨es, cs⟩ := n
  rw [paths]

theorem at?_append (n : Node κ ν) (p q : List Nat) :
    n.at? (p ++ q) = (n.at? p).bind fun m => m.at? q := by
  induction p generalizing n with
  | nil => rfl
  | cons i p ih =>
    rw [List.cons_append, at?, at?]
    cases n.children[i]? with
    | none => rfl
    | some c => exact ih c

theorem at?_cons_eq_some_iff {n m : Node κ ν} {i : Nat} {p : List Nat} :
    n.at? (i :: p) = some m ↔ ∃ c, n.children[i]? = some c ∧ c.at? p = some m := by
  rw [at?, Option.bind_eq_some_iff]

theorem everywhere_iff {P : Node κ ν → Prop} {n : Node κ ν} :
    n.Everywhere P ↔ P n ∧ ∀ c ∈ n.children, c.Everywhere P := by
  constructor
  · intro hn
    refine ⟨hn [] n rfl, fun c hc p m hm => ?_⟩
    obtain ⟨i, hi⟩ := List.mem_iff_getElem?.1 hc
    exact hn (i :: p) m (at?_cons_eq_some_iff.2 ⟨c, hi, hm⟩)
  · rintro ⟨htop, hcs⟩ p m hm
    cases p with
    | nil =>
      obtain rfl : n = m := Option.some.inj hm
      exact htop
    | cons i p =>
      obtain ⟨c, hc, hm⟩ := at?_cons_eq_some_iff.1 hm
      exact hcs c (List.mem_of_getElem? hc) p m hm

theorem mem_joinPaths_iff {k : Nat} {cs : List (Node κ ν)} {q : List Nat} :
    q ∈ joinPaths k (cs.map paths) ↔
      ∃ i c p, cs[i]? = some c ∧ p ∈ c.paths ∧ q = (k + i) :: p := by
  induction cs generalizing k with
  | nil => simp [joinPaths]
  | cons c cs ih =>
    rw [List.map_cons, joinPaths, List.mem_append, List.mem_map, ih]
    constructor
    · rintro (⟨p, hp, rfl⟩ | ⟨i, d, p, hd, hp, rfl⟩)
      · exact ⟨0, c, p, rfl, hp, rfl⟩
      · refine ⟨i + 1, d, p, hd, hp, ?_⟩
        rw [Nat.add_assoc, Nat.add_comm 1 i]
    · rintro ⟨i, d, p, hd, hp, rfl⟩
      cases i with
      | zero =>
        obtain rfl : c = d := Option.some.inj hd
        exact .inl ⟨p, hp, rfl⟩
      | succ i =>
        refine .inr ⟨i, d, p, hd, hp, ?_⟩
        rw [Nat.add_assoc, Nat.add_comm 1 i]

theorem ne_nil_of_mem_joinPaths {k : Nat} {cs : List (Node κ ν)} {q : List Nat}
    (hq : q ∈ joinPaths k (cs.map paths)) : q ≠ [] := by
  obtain ⟨i, c, p, -, -, rfl⟩ := mem_joinPaths_iff.1 hq
  exact List.cons_ne_nil _ _

theorem cons_mem_paths_iff {n : Node κ ν} {i : Nat} {p : List Nat} :
    i :: p ∈ n.paths ↔ ∃ c, n.children[i]? = some c ∧ p ∈ c.paths := by
  rw [paths_eq, List.mem_cons, mem_joinPaths_iff]
  constructor
  · rintro (h | ⟨j, c, q, hc, hq, heq⟩)
    · cases h
    · obtain ⟨rfl, rfl⟩ := List.cons.inj heq
      rw [Nat.zero_add]
      exact ⟨c, hc, hq⟩
  · rintro ⟨c, hc, hp⟩
    refine .inr ⟨i, c, p, hc, hp, ?_⟩
    rw [Nat.zero_add]

theorem nil_mem_paths (n : Node κ ν) : [] ∈ n.paths := by
  rw [paths_eq]
  exact List.mem_cons_self

/-- Just the paths listed lead to a node. -/
theorem mem_paths_iff {n : Node κ ν} {p : List Nat} : p ∈ n.paths ↔ ∃ m, n.at? p = some m := by
  induction p generalizing n with
  | nil => exact ⟨fun _ => ⟨n, rfl⟩, fun _ => n.nil_mem_paths⟩
  | cons i p ih =>
    simp only [cons_mem_paths_iff, at?_cons_eq_some_iff, ih]
    constructor
    · rintro ⟨c, hc, m, hm⟩
      exact ⟨m, c, hc, hm⟩
    · rintro ⟨m, c, hc, hm⟩
      exact ⟨c, hc, m, hm⟩

/-- A path to a node passes nodes only. -/
theorem mem_paths_of_append {n : Node κ ν} {p q : List Nat} (h : p ++ q ∈ n.paths) :
    p ∈ n.paths := by
  rw [mem_paths_iff] at h ⊢
  obtain ⟨m, hm⟩ := h
  rw [at?_append, Option.bind_eq_some_iff] at hm
  obtain ⟨c, hc, -⟩ := hm
  exact ⟨c, hc⟩

/-! ## Numbers of nodes -/

theorem length_joinPaths {k : Nat} {cs : List (Node κ ν)}
    (h : ∀ c ∈ cs, c.paths.length = c.nodeCount) :
    (joinPaths k (cs.map paths)).length = nodes cs := by
  induction cs generalizing k with
  | nil => rfl
  | cons c cs ih =>
    obtain ⟨hc, hcs⟩ := List.forall_mem_cons.1 h
    rw [List.map_cons, joinPaths, List.length_append, List.length_map, hc, ih hcs, nodes_cons]

/-- There is a path to each node. -/
theorem length_paths (n : Node κ ν) : n.paths.length = n.nodeCount := by
  induction n using children_induction with
  | step n ih =>
    rw [paths_eq, List.length_cons, length_joinPaths ih, nodeCount_eq_nodes, Nat.add_comm]

theorem nodup_joinPaths {k : Nat} {cs : List (Node κ ν)} (h : ∀ c ∈ cs, c.paths.Nodup) :
    (joinPaths k (cs.map paths)).Nodup := by
  induction cs generalizing k with
  | nil => exact List.nodup_nil
  | cons c cs ih =>
    obtain ⟨hc, hcs⟩ := List.forall_mem_cons.1 h
    rw [List.map_cons, joinPaths, List.nodup_append]
    refine ⟨hc.map (List.cons_injective), ih hcs, ?_⟩
    -- paths into different children differ at their first step
    intro p hp q hq heq
    obtain ⟨p', -, rfl⟩ := List.mem_map.1 hp
    obtain ⟨i, -, q', -, -, rfl⟩ := mem_joinPaths_iff.1 hq
    have := (List.cons.inj heq).1
    omega

theorem nodup_paths (n : Node κ ν) : n.paths.Nodup := by
  induction n using children_induction with
  | step n ih =>
    rw [paths_eq, List.nodup_cons]
    exact ⟨fun h => ne_nil_of_mem_joinPaths h rfl, nodup_joinPaths ih⟩

theorem number_nil (n : Node κ ν) : n.number [] = 0 := by
  rw [number, paths_eq, List.idxOf_cons_self]

theorem idxOf_map_cons (k : Nat) (p : List Nat) (ps : List (List Nat)) :
    (ps.map (k :: ·)).idxOf (k :: p) = ps.idxOf p := by
  induction ps with
  | nil => rfl
  | cons q ps ih =>
    by_cases hq : q = p
    · rw [List.map_cons, List.idxOf_cons_eq _ (congrArg _ hq), List.idxOf_cons_eq _ hq]
    · have hne : k :: q ≠ k :: p := fun heq => hq (List.cons.inj heq).2
      rw [List.map_cons, List.idxOf_cons_ne _ hne, List.idxOf_cons_ne _ hq, ih]

theorem idxOf_joinPaths {k i : Nat} {cs : List (Node κ ν)} {c : Node κ ν} {p : List Nat}
    (hc : cs[i]? = some c) (hp : p ∈ c.paths) :
    (joinPaths k (cs.map paths)).idxOf ((k + i) :: p) = nodes (cs.take i) + c.number p := by
  induction cs generalizing k i with
  | nil => cases hc
  | cons d cs ih =>
    rw [List.map_cons, joinPaths]
    cases i with
    | zero =>
      obtain rfl : d = c := Option.some.inj hc
      have hmem : k :: p ∈ d.paths.map (k :: ·) := List.mem_map.2 ⟨p, hp, rfl⟩
      rw [Nat.add_zero, List.idxOf_append_of_mem hmem, List.take_zero, nodes_nil, Nat.zero_add,
        idxOf_map_cons, number]
    | succ i =>
      have hnot : (k + (i + 1)) :: p ∉ d.paths.map (k :: ·) := by
        intro hmem
        obtain ⟨q, -, heq⟩ := List.mem_map.1 hmem
        have := (List.cons.inj heq).1
        omega
      have hnext : k + (i + 1) = k + 1 + i := by omega
      rw [List.idxOf_append_of_notMem hnot, List.length_map, length_paths, List.take_succ_cons,
        nodes_cons, hnext, ih hc, Nat.add_assoc]

/-- The nodes below a child are numbered on from those of the node and the children before. -/
theorem number_cons {n c : Node κ ν} {i : Nat} {p : List Nat} (hc : n.children[i]? = some c)
    (hp : p ∈ c.paths) : n.number (i :: p) = 1 + nodes (n.children.take i) + c.number p := by
  have hplace := idxOf_joinPaths (k := 0) hc hp
  rw [Nat.zero_add] at hplace
  rw [number, paths_eq, List.idxOf_cons_ne _ (by simp), hplace]
  omega

/-- The paths have the numbers from zero on, in their order. -/
theorem map_number_paths (n : Node κ ν) : n.paths.map n.number = List.range n.nodeCount := by
  rw [← length_paths]
  apply List.ext_getElem
  · simp
  · intro i hi hi'
    rw [List.getElem_map, List.getElem_range, number]
    exact n.nodup_paths.idxOf_getElem i _

/-! ## Children in turn -/

theorem filterMap_numbered (f : α → Option β) (g : Nat → Node κ ν → List α) (id : Nat)
    (cs : List (Node κ ν)) :
    (numbered g id cs).filterMap f = numbered (fun k c => (g k c).filterMap f) id cs := by
  induction cs generalizing id with
  | nil => rfl
  | cons c cs ih => rw [numbered, numbered, List.filterMap_append, ih]

theorem numbered_congr {g h : Nat → Node κ ν → List α} {id : Nat} {cs : List (Node κ ν)}
    (hgh : ∀ c ∈ cs, ∀ k, g k c = h k c) : numbered g id cs = numbered h id cs := by
  induction cs generalizing id with
  | nil => rfl
  | cons c cs ih =>
    obtain ⟨hc, hcs⟩ := List.forall_mem_cons.1 hgh
    rw [numbered, numbered, hc, ih hcs]

theorem numbered_perm {g h : Nat → Node κ ν → List α} {id : Nat} {cs : List (Node κ ν)}
    (hgh : ∀ c ∈ cs, ∀ k, (g k c).Perm (h k c)) : (numbered g id cs).Perm (numbered h id cs) := by
  induction cs generalizing id with
  | nil => exact List.Perm.refl []
  | cons c cs ih =>
    obtain ⟨hc, hcs⟩ := List.forall_mem_cons.1 hgh
    exact (hc id).append (ih hcs)

theorem numbered_split (g : Nat → Node κ ν → List α) (id : Nat) {i : Nat} {cs : List (Node κ ν)}
    {c : Node κ ν} (hc : cs[i]? = some c) :
    ∃ l r, numbered g id cs = l ++ (g (id + nodes (cs.take i)) c ++ r) := by
  induction cs generalizing id i with
  | nil => cases hc
  | cons d cs ih =>
    cases i with
    | zero =>
      obtain rfl : d = c := Option.some.inj hc
      exact ⟨[], numbered g (id + d.nodeCount) cs, rfl⟩
    | succ i =>
      obtain ⟨l, r, heq⟩ := ih (id + d.nodeCount) hc
      refine ⟨g id d ++ l, r, ?_⟩
      rw [numbered, heq, List.take_succ_cons, nodes_cons, List.append_assoc, Nat.add_assoc]

/-- A function of the paths below a node is one of the paths below each child. -/
theorem filterMap_joinPaths {f : List Nat → Option α} {g : Nat → Node κ ν → List Nat → Option α}
    {j id : Nat} {cs : List (Node κ ν)}
    (hf : ∀ i c p, cs[i]? = some c → p ∈ c.paths →
      f ((j + i) :: p) = g (id + nodes (cs.take i)) c p) :
    (joinPaths j (cs.map paths)).filterMap f =
      numbered (fun k c => c.paths.filterMap (g k c)) id cs := by
  induction cs generalizing id j with
  | nil => rfl
  | cons c cs ih =>
    have hfirst : (c.paths.map (j :: ·)).filterMap f = c.paths.filterMap (g id c) := by
      rw [List.filterMap_map]
      exact List.filterMap_congr fun p hp => hf 0 c p rfl hp
    rw [List.map_cons, joinPaths, numbered, List.filterMap_append, hfirst, ih]
    intro i d p hd hp
    have hnext := hf (i + 1) d p hd hp
    rw [List.take_succ_cons, nodes_cons, ← Nat.add_assoc id] at hnext
    rw [← hnext, Nat.add_assoc j, Nat.add_comm 1 i]

end BTree.Node
