import BTree.Proofs.Insertion
import BTree.Proofs.Lookup
import BTree.Proofs.Removal

/-!
# Events and the number of nodes

The events that an operation emits below a node tell how many nodes it made or took away: a split of
a child brings a node, a merge costs one, and a rotation only moves one.

    Inserts t k v n o m es  →  m.nodeCount = n.nodeCount + splits      (Inserts.nodeCount_eq)
    Pops s t n e m es       →  m.nodeCount + merges = n.nodeCount      (Pops.nodeCount_eq)
    Removes t k n o m es    →  m.nodeCount + merges = n.nodeCount      (Removes.nodeCount_eq)
-/

namespace BTree

variable {κ ν : Type}

/-! ## Kinds of events -/

/-- What an event tells of, without its figures. -/
inductive Event.Kind where
  | splitRoot
  | splitChild
  | mergeChildren
  | rotate
  | shrinkRoot
  | clear
deriving DecidableEq, Repr

def Event.kind : Event → Event.Kind
  | .splitRoot _ => .splitRoot
  | .splitChild _ _ _ => .splitChild
  | .mergeChildren _ _ _ => .mergeChildren
  | .rotateLeft _ => .rotate
  | .rotateRight _ => .rotate
  | .shrinkRoot _ => .shrinkRoot
  | .clear _ => .clear

/-- The number of events of a kind. -/
def number (k : Event.Kind) (es : List Event) : Nat := es.countP fun e => e.kind = k

section
variable {k : Event.Kind} {es : List Event}

@[simp]
theorem number_nil (k : Event.Kind) : number k [] = 0 := rfl

theorem number_cons (k : Event.Kind) (e : Event) (es : List Event) :
    number k (e :: es) = number k es + if e.kind = k then 1 else 0 := by
  simp [number, List.countP_cons]

@[simp]
theorem number_append (k : Event.Kind) (es fs : List Event) :
    number k (es ++ fs) = number k es + number k fs :=
  List.countP_append

theorem number_eq_zero {ks : List Event.Kind} (h : ∀ e ∈ es, e.kind ∈ ks) (hk : k ∉ ks) :
    number k es = 0 := by
  rw [number, List.countP_eq_zero]
  intro e he hkind
  exact hk (of_decide_eq_true hkind ▸ h e he)

/-- A trail of one kind of events is as long as their number. -/
theorem number_eq_length (h : ∀ e ∈ es, e.kind ∈ [k]) : number k es = es.length := by
  rw [number, List.countP_eq_length]
  intro e he
  exact decide_eq_true (List.mem_singleton.1 (h e he))

end

/-! ## Nodes around a gap -/

namespace Node

/-- The number of nodes below any of the children. -/
def nodes (cs : List (Node κ ν)) : Nat := (cs.map nodeCount).foldr (· + ·) 0

theorem nodeCount_eq_nodes (n : Node κ ν) : n.nodeCount = 1 + nodes n.children := n.nodeCount_eq

theorem nodeCount_pos (n : Node κ ν) : 0 < n.nodeCount := by
  rw [nodeCount_eq_nodes]
  omega

@[simp]
theorem nodes_nil : nodes ([] : List (Node κ ν)) = 0 := rfl

@[simp]
theorem nodes_cons (c : Node κ ν) (cs : List (Node κ ν)) :
    nodes (c :: cs) = c.nodeCount + nodes cs := rfl

@[simp]
theorem nodes_append (cs ds : List (Node κ ν)) : nodes (cs ++ ds) = nodes cs + nodes ds := by
  induction cs with
  | nil => rw [List.nil_append, nodes_nil, Nat.zero_add]
  | cons c cs ih => rw [List.cons_append, nodes_cons, nodes_cons, ih, Nat.add_assoc]

end Node

namespace Context

/-- The number of nodes, without those below the gap. -/
def nodeCount (x : Context κ ν) : Nat :=
  1 + Node.nodes x.leftChildren + Node.nodes x.rightChildren

theorem nodeCount_plug (x : Context κ ν) (c : Node κ ν) :
    (x.plug c).nodeCount = x.nodeCount + c.nodeCount := by
  rw [Node.nodeCount_eq_nodes, plug, Node.nodes_append, Node.nodes_cons, nodeCount]
  omega

theorem nodeCount_skip (x : Context κ ν) (a : Node κ ν) (e : Entry κ ν) :
    (x.skip a e).nodeCount = x.nodeCount + a.nodeCount := by
  simp only [nodeCount, skip, Node.nodes_append, Node.nodes_cons, Node.nodes_nil]
  omega

theorem nodeCount_hold (x : Context κ ν) (e : Entry κ ν) (b : Node κ ν) :
    (x.hold e b).nodeCount = x.nodeCount + b.nodeCount := by
  simp only [nodeCount, hold, Node.nodes_cons]
  omega

theorem nodeCount_pair (x : Context κ ν) (a b : Node κ ν) (e : Entry κ ν) :
    (x.pair a e b).nodeCount = x.nodeCount + a.nodeCount + b.nodeCount := by
  rw [← hold_plug, nodeCount_plug, nodeCount_hold]
  omega

end Context

namespace Node

/-- The halves of a node make one node more. -/
theorem nodeCount_split {n a b : Node κ ν} {e : Entry κ ν} (hs : n.split = .ok (a, e, b)) :
    a.nodeCount + b.nodeCount = n.nodeCount + 1 := by
  obtain ⟨m, -, -, -, rfl, rfl⟩ := split_eq_ok_iff.1 hs
  have hnodes : nodes (n.children.take (m + 1)) + nodes (n.children.drop (m + 1)) =
      nodes n.children := by
    rw [← nodes_append, List.take_append_drop]
  rw [nodeCount_eq_nodes n, nodeCount_eq_nodes, nodeCount_eq_nodes]
  show 1 + nodes (n.children.take (m + 1)) + (1 + nodes (n.children.drop (m + 1))) = _
  omega

theorem nodeCount_append (a b : Node κ ν) (e : Entry κ ν) :
    (a.append e b).nodeCount + 1 = a.nodeCount + b.nodeCount := by
  rw [nodeCount_eq_nodes, nodeCount_eq_nodes a, nodeCount_eq_nodes b, append, nodes_append]
  omega

theorem nodeCount_binary (a b : Node κ ν) (e : Entry κ ν) :
    (binary a e b).nodeCount = a.nodeCount + b.nodeCount + 1 := by
  rw [nodeCount_eq_nodes, binary, nodes_cons, nodes_cons, nodes_nil]
  omega

theorem nodeCount_pushLeft (n : Node κ ν) (e : Entry κ ν) (g : Option (Node κ ν)) :
    (n.pushLeft e g).nodeCount = n.nodeCount + nodes g.toList := by
  rw [nodeCount_eq_nodes, nodeCount_eq_nodes n, pushLeft, nodes_append]
  omega

theorem nodeCount_pushRight (n : Node κ ν) (e : Entry κ ν) (g : Option (Node κ ν)) :
    (n.pushRight e g).nodeCount = n.nodeCount + nodes g.toList := by
  rw [nodeCount_eq_nodes, nodeCount_eq_nodes n, pushRight, nodes_append]
  omega

end Node

/-! ## Below the root -/

/-- A merge costs a node, and a rotation only moves one. -/
theorem Fills.nodeCount_eq {t : Nat} {x y : Context κ ν} {c d : Node κ ν} {es : List Event}
    (hf : Fills t x c y d es) :
    (y.plug d).nodeCount + number .mergeChildren es = (x.plug c).nodeCount := by
  rw [Context.nodeCount_plug, Context.nodeCount_plug]
  cases hf with
  | keep hc => rfl
  | @borrowLeft x a c e p g hc ha hg =>
    rw [Context.nodeCount_skip, Context.nodeCount_skip, Node.nodeCount_pushLeft,
      Node.nodeCount_pushRight]
    show _ + 0 = _
    omega
  | @borrowRight x b c e p g hc hl hb hg =>
    rw [Context.nodeCount_hold, Context.nodeCount_hold, Node.nodeCount_pushLeft,
      Node.nodeCount_pushRight]
    show _ + 0 = _
    omega
  | @mergeRight x b c e hc hl hb =>
    have happ := Node.nodeCount_append c b e
    rw [Context.nodeCount_hold]
    show _ + 1 = _
    omega
  | @mergeLeft x a c e hc ha hr =>
    have happ := Node.nodeCount_append a c e
    rw [Context.nodeCount_skip]
    show _ + 1 = _
    omega

theorem Fills.kind_mem {t : Nat} {x y : Context κ ν} {c d : Node κ ν} {es : List Event}
    (hf : Fills t x c y d es) : ∀ e ∈ es, e.kind ∈ [.mergeChildren, .rotate] := by
  cases hf <;> simp [Event.kind]

theorem Pops.nodeCount_eq {s : End} {t : Nat} {n m : Node κ ν} {e : Entry κ ν} {es : List Event}
    (hp : Pops s t n e m es) : m.nodeCount + number .mergeChildren es = n.nodeCount := by
  induction hp with
  | leaf => simp [Node.nodeCount_eq_nodes]
  | @inner x y c d m e es fs hx hf hp ih =>
    have hfill := hf.nodeCount_eq
    rw [Context.nodeCount_plug] at hfill ⊢
    rw [number_append]
    omega

theorem Pops.kind_mem {s : End} {t : Nat} {n m : Node κ ν} {e : Entry κ ν} {es : List Event}
    (hp : Pops s t n e m es) : ∀ e ∈ es, e.kind ∈ [.mergeChildren, .rotate] := by
  induction hp with
  | leaf => simp
  | inner hx hf hp ih => exact List.forall_mem_append.2 ⟨hf.kind_mem, ih⟩

section
variable [Ord κ] {t : Nat} {k : κ} {v : ν} {n m : Node κ ν} {es : List Event}

theorem Removes.nodeCount_eq {o : Option (Entry κ ν)} (hr : Removes t k n o m es) :
    m.nodeCount + number .mergeChildren es = n.nodeCount := by
  induction hr with
  | hit he => simp [Node.nodeCount_eq_nodes]
  | miss hb => rfl
  | @predecessor x a b m e p es he ha hp =>
    have hpop := hp.nodeCount_eq
    rw [Context.nodeCount_pair, Context.nodeCount_pair]
    omega
  | @successor x a b m e p es he ha hb hp =>
    have hpop := hp.nodeCount_eq
    rw [Context.nodeCount_pair, Context.nodeCount_pair]
    omega
  | @merge x a b m e o es he ha hb hr ih =>
    have happ := Node.nodeCount_append a b e
    rw [Context.nodeCount_plug, Context.nodeCount_pair, number_cons, Event.kind, if_pos rfl]
    omega
  | @descend x y c d m o es fs hb hf hr ih =>
    have hfill := hf.nodeCount_eq
    rw [Context.nodeCount_plug] at hfill ⊢
    rw [number_append]
    omega

theorem Removes.kind_mem {o : Option (Entry κ ν)} (hr : Removes t k n o m es) :
    ∀ e ∈ es, e.kind ∈ [.mergeChildren, .rotate] := by
  induction hr with
  | hit he => simp
  | miss hb => simp
  | predecessor he ha hp => exact hp.kind_mem
  | successor he ha hb hp => exact hp.kind_mem
  | merge he ha hb hr ih => exact List.forall_mem_cons.2 ⟨by simp [Event.kind], ih⟩
  | descend hb hf hr ih => exact List.forall_mem_append.2 ⟨hf.kind_mem, ih⟩

/-- Every split of a child brings a node. -/
theorem Inserts.nodeCount_eq {o : Option ν} (hi : Inserts t k v n o m es) :
    m.nodeCount = n.nodeCount + number .splitChild es := by
  induction hi with
  | replace he => simp [Node.nodeCount_eq_nodes]
  | leaf hb => simp [Node.nodeCount_eq_nodes]
  | @descend x c d o es hb hc hi ih =>
    rw [Context.nodeCount_plug, Context.nodeCount_plug]
    omega
  | @splitLeft x c a b d e o es hb hc hs hk hi ih =>
    have hsplit := Node.nodeCount_split hs
    rw [Context.nodeCount_plug, Context.nodeCount_pair, number_cons, Event.kind, if_pos rfl]
    omega
  | @splitMedian x c a b e hb hc hs hk =>
    have hsplit := Node.nodeCount_split hs
    rw [Context.nodeCount_plug, Context.nodeCount_pair, number_cons, Event.kind, if_pos rfl,
      number_nil]
    omega
  | @splitRight x c a b d e o es hb hc hs hk hi ih =>
    have hsplit := Node.nodeCount_split hs
    rw [Context.nodeCount_plug, Context.nodeCount_pair, number_cons, Event.kind, if_pos rfl]
    omega

theorem Inserts.kind_mem {o : Option ν} (hi : Inserts t k v n o m es) :
    ∀ e ∈ es, e.kind ∈ [.splitChild] := by
  induction hi with
  | replace he => simp
  | leaf hb => simp
  | descend hb hc hi ih => exact ih
  | splitLeft hb hc hs hk hi ih => exact List.forall_mem_cons.2 ⟨by simp [Event.kind], ih⟩
  | splitMedian hb hc hs hk => simp [Event.kind]
  | splitRight hb hc hs hk hi ih => exact List.forall_mem_cons.2 ⟨by simp [Event.kind], ih⟩

theorem Stores.nodeCount_eq {e : Entry κ ν} (hs : Stores k v n e m) :
    m.nodeCount = n.nodeCount := by
  induction hs with
  | hit he => simp [Node.nodeCount_eq_nodes]
  | descend hb hs ih => rw [Context.nodeCount_plug, Context.nodeCount_plug, ih]

end

end BTree
