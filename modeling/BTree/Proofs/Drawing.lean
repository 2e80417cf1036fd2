import BTree.Dot
import BTree.Proofs.Path

/-!
# What a drawing tells of the tree

The numbers of a drawing come from a counter that goes down with the recursion and is handed back up.
Each node takes up as many numbers as there are nodes from it down, so the counter stands, wherever a
node is met, at its place in preorder; that is what makes each edge name the right two nodes.  Since
an edge closes the lines of each child, the lines can be nested in one way only, and the tree is told
from them:

    (lines id n).1 draws the nodes of n in preorder, and an edge to each from its parent   (draws_lines)
    (lines id n).1 ++ r = (lines id m).1 ++ s  →  n = m, r = s                        (lines_append_inj)
    ofTree s = ofTree t  →  s.root = t.root                                          (root_eq_of_ofTree)
-/

namespace BTree

variable {κ ν : Type}

open Node

namespace Dot

/-! ## What a drawing tells -/

/-- The number and the entries of the node that a line draws. -/
def Line.node? : Line κ ν → Option (Nat × List (Entry κ ν))
  | node id es => some (id, es)
  | edge _ _ => none

/-- The numbers of the parent and the child that a line joins. -/
def Line.edge? : Line κ ν → Option (Nat × Nat)
  | node _ _ => none
  | edge parent child => some (parent, child)

/-- The number and the entries of the node to which a path leads, with `id` the number of `n`. -/
def nodeAt (id : Nat) (n : Node κ ν) (p : List Nat) : Option (Nat × List (Entry κ ν)) :=
  (n.at? p).map fun m => (id + n.number p, m.entries)

/-- The numbers of the parent of that node and of the node, unless it is `n` itself. -/
def edgeAt (id : Nat) (n : Node κ ν) (p : List Nat) : Option (Nat × Nat) :=
  if p = [] then none else some (id + n.number p.dropLast, id + n.number p)

/-- The lines draw `n` and all below it, numbered in preorder from `id`. -/
structure Draws (id : Nat) (n : Node κ ν) (ls : List (Line κ ν)) : Prop where
  /-- There is a line for each node, in preorder. -/
  nodes_eq : ls.filterMap Line.node? = n.paths.filterMap (nodeAt id n)
  /-- There is a line for the edge to each node from its parent. -/
  edges_perm : (ls.filterMap Line.edge?).Perm (n.paths.filterMap (edgeAt id n))
  /-- The edge to a child comes right after the lines of that child. -/
  follows (p : List Nat) (i : Nat) (c : Node κ ν) (hc : n.at? (p ++ [i]) = some c) :
    ∃ l r, ls = l ++ ((lines (id + n.number (p ++ [i])) c).1 ++
      .edge (id + n.number p) (id + n.number (p ++ [i])) :: r)

/-! ## The lines of a node -/

theorem lines_eq (id : Nat) (n : Node κ ν) :
    lines id n = (.node id n.entries :: (childLines id (id + 1) n.children).1,
      (childLines id (id + 1) n.children).2) := by
  obtain ⟨es, cs⟩ := n
  rw [lines]

theorem childLines_snd {parent id : Nat} {cs : List (Node κ ν)}
    (h : ∀ c ∈ cs, ∀ id, (lines id c).2 = id + c.nodeCount) :
    (childLines parent id cs).2 = id + nodes cs := by
  induction cs generalizing id with
  | nil =>
    rw [childLines]
    rfl
  | cons c cs ih =>
    obtain ⟨hc, hcs⟩ := List.forall_mem_cons.1 h
    rw [childLines, nodes_cons, ← Nat.add_assoc, ← hc]
    exact ih hcs

/-- A node takes up as many numbers as there are nodes from it down. -/
theorem lines_snd (id : Nat) (n : Node κ ν) : (lines id n).2 = id + n.nodeCount := by
  induction n using children_induction generalizing id with
  | step n ih => rw [lines_eq, childLines_snd ih, nodeCount_eq_nodes, Nat.add_assoc]

/-- Each child is drawn from the number on that comes after those of the children before it. -/
theorem childLines_eq (parent id : Nat) (cs : List (Node κ ν)) :
    (childLines parent id cs).1 =
      numbered (fun k c => (lines k c).1 ++ [.edge parent k]) id cs := by
  induction cs generalizing id with
  | nil =>
    rw [childLines]
    rfl
  | cons c cs ih =>
    rw [numbered, ← ih, ← lines_snd, childLines, List.append_assoc]
    rfl

theorem lines_fst (id : Nat) (n : Node κ ν) :
    (lines id n).1 = .node id n.entries ::
      numbered (fun k c => (lines k c).1 ++ [.edge id k]) (id + 1) n.children := by
  rw [lines_eq, childLines_eq]

theorem nodes_lines (id : Nat) (n : Node κ ν) :
    (lines id n).1.filterMap Line.node? = n.paths.filterMap (nodeAt id n) := by
  induction n using children_induction generalizing id with
  | step n ih =>
    have htop : nodeAt id n [] = some (id, n.entries) := by
      show some (id + n.number [], n.entries) = _
      rw [Node.number_nil]
      rfl
    have hbelow : ∀ i c p, n.children[i]? = some c → p ∈ c.paths →
        nodeAt id n ((0 + i) :: p) = nodeAt (id + 1 + nodes (n.children.take i)) c p := by
      intro i c p hc hp
      rw [Nat.zero_add, nodeAt, nodeAt, at?, hc, Option.bind_some, Node.number_cons hc hp]
      simp only [Nat.add_assoc]
    have hlines : ∀ c ∈ n.children, ∀ k, ((lines k c).1 ++ [Line.edge id k]).filterMap Line.node? =
        c.paths.filterMap (nodeAt k c) := by
      intro c hc k
      rw [List.filterMap_append, ih c hc]
      exact List.append_nil _
    calc (lines id n).1.filterMap Line.node?
      _ = (id, n.entries) :: (numbered (fun k c => (lines k c).1 ++ [.edge id k]) (id + 1)
            n.children).filterMap Line.node? := by rw [lines_fst]; rfl
      _ = (id, n.entries) :: (joinPaths 0 (n.children.map paths)).filterMap (nodeAt id n) := by
        rw [filterMap_numbered, numbered_congr hlines, filterMap_joinPaths hbelow]
      _ = n.paths.filterMap (nodeAt id n) := by
        rw [paths_eq, List.filterMap_cons_some htop]

/-- The edge to the child with number `k` comes from `id`, and all below it have their own edges. -/
def edgeBelow (id k : Nat) (c : Node κ ν) (p : List Nat) : Option (Nat × Nat) :=
  if p = [] then some (id, k) else edgeAt k c p

theorem filterMap_edgeBelow (id k : Nat) (c : Node κ ν) :
    c.paths.filterMap (edgeBelow id k c) = (id, k) :: c.paths.filterMap (edgeAt k c) := by
  have htop : edgeBelow id k c [] = some (id, k) := if_pos rfl
  have htop' : edgeAt k c [] = none := if_pos rfl
  rw [paths_eq, List.filterMap_cons_some htop, List.filterMap_cons_none htop']
  refine congrArg _ (List.filterMap_congr fun p hp => ?_)
  rw [edgeBelow, if_neg (ne_nil_of_mem_joinPaths hp)]

theorem edges_lines (id : Nat) (n : Node κ ν) :
    ((lines id n).1.filterMap Line.edge?).Perm (n.paths.filterMap (edgeAt id n)) := by
  induction n using children_induction generalizing id with
  | step n ih =>
    have hbelow : ∀ i c p, n.children[i]? = some c → p ∈ c.paths →
        edgeAt id n ((0 + i) :: p) = edgeBelow id (id + 1 + nodes (n.children.take i)) c p := by
      intro i c p hc hp
      rw [Nat.zero_add, edgeAt, if_neg (List.cons_ne_nil i p), edgeBelow, Node.number_cons hc hp]
      cases p with
      | nil =>
        rw [if_pos rfl, Node.number_nil, List.dropLast_singleton, Node.number_nil]
        simp only [Nat.add_zero, Nat.add_assoc]
      | cons j q =>
        have hq : (j :: q).dropLast ∈ c.paths :=
          mem_paths_of_append (q := [(j :: q).getLast (List.cons_ne_nil j q)])
            (by rwa [List.dropLast_append_getLast])
        rw [if_neg (List.cons_ne_nil j q), edgeAt, if_neg (List.cons_ne_nil j q),
          List.dropLast_cons_of_ne_nil (List.cons_ne_nil j q), Node.number_cons hc hq]
        simp only [Nat.add_assoc]
    have hlines : ∀ c ∈ n.children, ∀ k,
        (((lines k c).1 ++ [Line.edge id k]).filterMap Line.edge?).Perm
          (c.paths.filterMap (edgeBelow id k c)) := by
      intro c hc k
      rw [List.filterMap_append, filterMap_edgeBelow]
      exact ((ih c hc k).append_right _).trans (List.perm_append_singleton _ _)
    have htop : edgeAt id n [] = none := if_pos rfl
    rw [lines_fst, paths_eq, List.filterMap_cons_none htop, filterMap_joinPaths hbelow]
    show ((numbered _ _ _).filterMap Line.edge?).Perm _
    rw [filterMap_numbered]
    exact numbered_perm hlines

/-- The lines of a node are among those of each node above it, and an edge to it comes next. -/
theorem follows_lines {n c : Node κ ν} {p : List Nat} {i : Nat} (hc : n.at? (p ++ [i]) = some c)
    (id : Nat) :
    ∃ l r, (lines id n).1 = l ++ ((lines (id + n.number (p ++ [i])) c).1 ++
      .edge (id + n.number p) (id + n.number (p ++ [i])) :: r) := by
  induction p generalizing n id with
  | nil =>
    obtain ⟨d, hd, hcd⟩ := at?_cons_eq_some_iff.1 hc
    obtain rfl : d = c := Option.some.inj hcd
    obtain ⟨l, r, hsplit⟩ := numbered_split
      (fun k c => (lines k c).1 ++ [Line.edge id k]) (id + 1) hd
    have hchild : id + 1 + nodes (n.children.take i) = id + n.number [i] := by
      rw [Node.number_cons hd d.nil_mem_paths, Node.number_nil]
      omega
    rw [hchild] at hsplit
    refine ⟨[.node id n.entries] ++ l, r, ?_⟩
    rw [lines_fst, hsplit, Node.number_nil]
    simp
  | cons j p ih =>
    obtain ⟨d, hd, hcd⟩ := at?_cons_eq_some_iff.1 hc
    have hpi : p ++ [i] ∈ d.paths := mem_paths_iff.2 ⟨c, hcd⟩
    obtain ⟨l, r, hbelow⟩ := ih hcd (id + 1 + nodes (n.children.take j))
    obtain ⟨l', r', hsplit⟩ := numbered_split
      (fun k c => (lines k c).1 ++ [Line.edge id k]) (id + 1) hd
    have hchild : id + 1 + nodes (n.children.take j) + d.number (p ++ [i]) =
        id + n.number (j :: p ++ [i]) := by
      rw [List.cons_append, Node.number_cons hd hpi]
      omega
    have hparent : id + 1 + nodes (n.children.take j) + d.number p = id + n.number (j :: p) := by
      rw [Node.number_cons hd (mem_paths_of_append hpi)]
      omega
    rw [hchild, hparent] at hbelow
    refine ⟨[.node id n.entries] ++ l' ++ l,
      r ++ .edge id (id + 1 + nodes (n.children.take j)) :: r', ?_⟩
    rw [lines_fst, hsplit, hbelow]
    simp

theorem draws_lines (id : Nat) (n : Node κ ν) : Draws id n (lines id n).1 where
  nodes_eq := nodes_lines id n
  edges_perm := edges_lines id n
  follows _ _ _ hc := follows_lines hc id

/-! ## Lines that tell the tree -/

/-- What follows on the lines of a node does not begin with another node below it. -/
def Closes (r : List (Line κ ν)) : Prop := ∀ l ∈ r.head?, l.node? = none

theorem not_closes_lines (id : Nat) (n : Node κ ν) (r : List (Line κ ν)) :
    ¬ Closes ((lines id n).1 ++ r) := by
  intro h
  rw [lines_fst] at h
  cases h _ rfl

theorem closes_edge (parent child : Nat) (r : List (Line κ ν)) :
    Closes (.edge parent child :: r) := by
  rintro l ⟨⟩
  rfl

theorem numbered_append_inj {parent k : Nat} {cs ds : List (Node κ ν)} {r s : List (Line κ ν)}
    (hcs : ∀ c ∈ cs, ∀ id d u v, Closes u → Closes v →
      (lines id c).1 ++ u = (lines id d).1 ++ v → c = d ∧ u = v) (hr : Closes r) (hs : Closes s)
    (h : numbered (fun k c => (lines k c).1 ++ [.edge parent k]) k cs ++ r =
      numbered (fun k c => (lines k c).1 ++ [.edge parent k]) k ds ++ s) : cs = ds ∧ r = s := by
  induction cs generalizing k ds with
  | nil =>
    cases ds with
    | nil => exact ⟨rfl, h⟩
    | cons d ds =>
      rw [numbered, numbered, List.nil_append, List.append_assoc, List.append_assoc] at h
      exact absurd (h ▸ hr) (not_closes_lines k d _)
  | cons c cs ih =>
    obtain ⟨hc, hcs⟩ := List.forall_mem_cons.1 hcs
    cases ds with
    | nil =>
      rw [numbered, numbered, List.nil_append, List.append_assoc, List.append_assoc] at h
      exact absurd (h ▸ hs) (not_closes_lines k c _)
    | cons d ds =>
      rw [numbered, numbered] at h
      simp only [List.append_assoc, List.singleton_append] at h
      obtain ⟨rfl, hrest⟩ := hc k d _ _ (closes_edge _ _ _) (closes_edge _ _ _) h
      obtain ⟨hcd, hrs⟩ := ih hcs (List.cons.inj hrest).2
      exact ⟨congrArg _ hcd, hrs⟩

/-- From the lines of a node the node can be told, and where they end. -/
theorem lines_append_inj {id : Nat} {n m : Node κ ν} {r s : List (Line κ ν)} (hr : Closes r)
    (hs : Closes s) (h : (lines id n).1 ++ r = (lines id m).1 ++ s) : n = m ∧ r = s := by
  induction n using children_induction generalizing id m r s with
  | step n ih =>
    rw [lines_fst, lines_fst, List.cons_append, List.cons_append] at h
    obtain ⟨htop, hbelow⟩ := List.cons.inj h
    obtain ⟨hcs, hrest⟩ :=
      numbered_append_inj (fun c hc id d u v hu hv => ih c hc hu hv) hr hs hbelow
    obtain ⟨es, cs⟩ := n
    obtain ⟨fs, ds⟩ := m
    obtain rfl : es = fs := (Line.node.inj htop).2
    obtain rfl : cs = ds := hcs
    exact ⟨rfl, hrest⟩

theorem root_eq_of_ofTree {s t : Tree κ ν} (h : ofTree s = ofTree t) : s.root = t.root := by
  have hnil : Closes ([] : List (Line κ ν)) := by rintro l ⟨⟩
  have hne : ∀ n : Node κ ν, (lines 0 n).1 ≠ [] := by
    intro n
    rw [lines_fst]
    exact List.cons_ne_nil _ _
  unfold ofTree at h
  cases hs : s.root with
  | none =>
    cases ht : t.root with
    | none => rfl
    | some m =>
      rw [hs, ht] at h
      exact absurd h.symm (hne m)
  | some n =>
    cases ht : t.root with
    | none =>
      rw [hs, ht] at h
      exact absurd h (hne n)
    | some m =>
      rw [hs, ht] at h
      have h : (lines 0 n).1 = (lines 0 m).1 := h
      obtain ⟨hnm, -⟩ := lines_append_inj hnil hnil (congrArg (· ++ []) h)
      exact congrArg some hnm

/-- The nodes of a tree have the numbers from zero on, each once. -/
theorem numbers_ofTree (t : Tree κ ν) :
    ((ofTree t).filterMap Line.node?).map Prod.fst = List.range t.nodeCount := by
  unfold ofTree Tree.nodeCount
  cases t.root with
  | none => rfl
  | some root =>
    have hnumber : ∀ p ∈ root.paths, (nodeAt 0 root p).map Prod.fst = some (root.number p) := by
      intro p hp
      obtain ⟨m, hm⟩ := mem_paths_iff.1 hp
      rw [Dot.nodeAt, hm, Option.map_some, Option.map_some, Nat.zero_add]
    calc ((lines 0 root).1.filterMap Line.node?).map Prod.fst
      _ = root.paths.filterMap fun p => (nodeAt 0 root p).map Prod.fst := by
        rw [Dot.nodes_lines, List.map_filterMap]
      _ = root.paths.filterMap fun p => some (root.number p) := List.filterMap_congr hnumber
      _ = root.paths.map root.number := by rw [← List.filterMap_eq_map]; rfl
      _ = List.range root.nodeCount := root.map_number_paths

end Dot

end BTree
