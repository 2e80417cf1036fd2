import BTree.Proofs.Digest
import BTree.Proofs.Drawing
import Mathlib

/-!
# The text of a drawing

Keys and values are shown as they are, without quotes or escapes, so that in general a text can be
read in more than one way.  A number ends where its digits do, and a drawing of numbers under numbers
can be read in one way only: first the text is cut into lines, then each line is told from its text,
and from the lines the tree:

    plain a ++ r = plain b ++ s  →  a = b, r = s, if r and s begin with no digit    (Numbers.append_inj)
    l.body = m.body  →  l = m                                                          (Line.body_inj)
    s.dot = t.dot  →  s.root = t.root                                                  (root_eq_of_dot)
-/

namespace BTree

variable {α κ ν : Type}

open Node

/-! ## Numbers in a text -/

namespace Decimal

/-- A number is told from the text that begins with it. -/
theorem ofNat_append_inj {m n : Nat} {r s : List Char} (hr : ∀ c ∈ r.head?, c.isDigit = false)
    (hs : ∀ c ∈ s.head?, c.isDigit = false) (h : ofNat m ++ r = ofNat n ++ s) : m = n ∧ r = s := by
  have hread := readNat_ofNat m hr
  rw [h, readNat_ofNat n hs] at hread
  obtain ⟨hnm, hsr⟩ := Prod.mk.inj (Option.some.inj hread)
  exact ⟨hnm.symm, hsr.symm⟩

theorem ofInt_append_inj {i j : Int} {r s : List Char} (hr : ∀ c ∈ r.head?, c.isDigit = false)
    (hs : ∀ c ∈ s.head?, c.isDigit = false) (h : ofInt i ++ r = ofInt j ++ s) : i = j ∧ r = s := by
  have hread := readInt_ofInt i hr
  rw [h, readInt_ofInt j hs] at hread
  obtain ⟨hji, hsr⟩ := Prod.mk.inj (Option.some.inj hread)
  exact ⟨hji.symm, hsr.symm⟩

theorem newline_notMem_ofNat (n : Nat) : '\n' ∉ ofNat n := by
  intro hmem
  cases isDigit_of_mem_ofNat _ hmem

theorem newline_notMem_ofInt (i : Int) : '\n' ∉ ofInt i := by
  unfold ofInt
  split
  · rw [List.mem_cons, not_or]
    exact ⟨by decide, newline_notMem_ofNat _⟩
  · exact newline_notMem_ofNat _

end Decimal

namespace Display

variable [Display α] {P : α → Prop}

/-- The values in `P` are shown as integers, each as one of its own. -/
def Numbers (P : α → Prop) : Prop :=
  ∃ f : α → Int, (∀ a, P a → plain a = Decimal.ofInt (f a)) ∧
    ∀ a b, P a → P b → f a = f b → a = b

theorem Numbers.append_inj (h : Numbers P) {a b : α} (ha : P a) (hb : P b) {r s : List Char}
    (hr : ∀ c ∈ r.head?, c.isDigit = false) (hs : ∀ c ∈ s.head?, c.isDigit = false)
    (heq : plain a ++ r = plain b ++ s) : a = b ∧ r = s := by
  obtain ⟨f, hplain, hinj⟩ := h
  rw [hplain a ha, hplain b hb] at heq
  obtain ⟨hab, hrs⟩ := Decimal.ofInt_append_inj hr hs heq
  exact ⟨hinj a b ha hb hab, hrs⟩

theorem Numbers.newline_notMem (h : Numbers P) {a : α} (ha : P a) : '\n' ∉ plain a := by
  obtain ⟨f, hplain, -⟩ := h
  rw [hplain a ha]
  exact Decimal.newline_notMem_ofInt _

theorem numbers_int64 : Numbers fun _ : Int64 => True :=
  ⟨Int64.toInt, fun _ _ => rfl, fun _ _ _ _ => Int64.toInt_inj.1⟩

theorem Numbers.descending (h : Numbers fun _ : α => True) :
    Numbers fun _ : Descending α => True := by
  obtain ⟨f, hplain, hinj⟩ := h
  refine ⟨fun a => f a.val, fun a _ => hplain a.val trivial, ?_⟩
  rintro ⟨a⟩ ⟨b⟩ - - hab
  rw [hinj a b trivial trivial hab]

theorem numbers_isInt : Numbers Scalar.IsInt := by
  refine ⟨fun v => v.number.toInt, ?_, ?_⟩
  · rintro v ⟨n, rfl⟩
    rfl
  · rintro v w ⟨m, rfl⟩ ⟨n, rfl⟩ hmn
    exact congrArg Scalar.int (Int64.toInt_inj.1 hmn)

end Display

/-! ## The text of a line -/

namespace Dot

variable [Display κ] [Display ν]

/-- The field of an entry in a label, with the number of its port. -/
def port (x : Entry κ ν × Nat) : List Char :=
  "\x7b".toList ++ Display.plain x.1.key ++ "|<c".toList ++ Decimal.ofNat x.2 ++ "> ".toList ++
    Display.plain x.1.value ++ "\x7d |".toList

/-- The text of a line, without its end: the label of a node lists its entries in order, with the
ports numbered from one on. -/
def Line.body : Line κ ν → List Char
  | node id es =>
    "\tn".toList ++ Decimal.ofNat id ++ " [label=\"<c0> |".toList ++ (es.zipIdx 1).flatMap port ++
      "(".toList ++ Decimal.ofNat id ++ ")\"];".toList
  | edge parent child =>
    "\tn".toList ++ Decimal.ofNat parent ++ " -> n".toList ++ Decimal.ofNat child

theorem port_append (e : Entry κ ν) (i : Nat) (r : List Char) :
    port (e, i) ++ r = "\x7b".toList ++ (Display.plain e.key ++ ("|<c".toList ++ (Decimal.ofNat i ++
      ("> ".toList ++ (Display.plain e.value ++ ("\x7d |".toList ++ r)))))) := by
  show "\x7b".toList ++ Display.plain e.key ++ "|<c".toList ++ Decimal.ofNat i ++ "> ".toList ++
    Display.plain e.value ++ "\x7d |".toList ++ r = _
  simp only [List.append_assoc]

theorem fields_eq (i : Nat) (es : List (Entry κ ν)) :
    fields i es = (es.zipIdx i).flatMap port := by
  induction es generalizing i with
  | nil => rfl
  | cons e es ih =>
    show port (e, i) ++ fields (i + 1) es = _
    rw [List.zipIdx_cons, List.flatMap_cons, ih]

theorem Line.body_node (id : Nat) (es : List (Entry κ ν)) :
    (node id es).body = "\tn".toList ++ (Decimal.ofNat id ++ (" [label=\"<c0> |".toList ++
      ((es.zipIdx 1).flatMap port ++ ("(".toList ++ (Decimal.ofNat id ++ ")\"];".toList))))) := by
  show "\tn".toList ++ Decimal.ofNat id ++ " [label=\"<c0> |".toList ++
    (es.zipIdx 1).flatMap port ++ "(".toList ++ Decimal.ofNat id ++ ")\"];".toList = _
  simp only [List.append_assoc]

theorem Line.body_edge (parent child : Nat) :
    (edge parent child : Line κ ν).body =
      "\tn".toList ++ (Decimal.ofNat parent ++ (" -> n".toList ++ Decimal.ofNat child)) := by
  show "\tn".toList ++ Decimal.ofNat parent ++ " -> n".toList ++ Decimal.ofNat child = _
  simp only [List.append_assoc]

theorem Line.text_eq (l : Line κ ν) : l.text = l.body ++ ['\n'] := by
  cases l with
  | node id es =>
    have hopen : " [label=\"<c0> |".toList = " [label=\"".toList ++ "<c0> |".toList := by decide
    have hlabel : label es = "<c0> |".toList ++ (es.zipIdx 1).flatMap port :=
      congrArg ("<c0> |".toList ++ ·) (fields_eq 1 es)
    have htext : (node id es).text = "\tn".toList ++ Decimal.ofNat id ++ " [label=\"".toList ++
      label es ++ "(".toList ++ Decimal.ofNat id ++ (")\"];".toList ++ ['\n']) := rfl
    rw [htext, hlabel, body_node, hopen]
    simp only [List.append_assoc]
  | edge parent child =>
    have htext : (edge parent child : Line κ ν).text = "\tn".toList ++ Decimal.ofNat parent ++
      " -> n".toList ++ Decimal.ofNat child ++ ['\n'] := rfl
    rw [htext, body_edge]
    simp only [List.append_assoc]

/-! ## What is told from the text of a line -/

variable {P : κ → Prop} {Q : ν → Prop}

theorem port_append_inj (hP : Display.Numbers P) (hQ : Display.Numbers Q) {e f : Entry κ ν}
    {i : Nat} {r s : List Char} (he : P e.key ∧ Q e.value) (hf : P f.key ∧ Q f.value)
    (h : port (e, i) ++ r = port (f, i) ++ s) : e = f ∧ r = s := by
  rw [port_append, port_append] at h
  obtain ⟨hkey, hfrom⟩ := hP.append_inj he.1 hf.1 (by simp) (by simp) (List.append_cancel_left h)
  have hvalues := List.append_cancel_left (List.append_cancel_left (List.append_cancel_left hfrom))
  obtain ⟨hvalue, hrest⟩ := hQ.append_inj he.2 hf.2 (by simp) (by simp) hvalues
  obtain ⟨k, v⟩ := e
  obtain ⟨l, w⟩ := f
  obtain rfl : k = l := hkey
  obtain rfl : v = w := hvalue
  exact ⟨rfl, List.append_cancel_left hrest⟩

/-- The fields of a label are told from the text that begins with them, up to the bracket. -/
theorem ports_append_inj (hP : Display.Numbers P) (hQ : Display.Numbers Q)
    {es fs : List (Entry κ ν)} {i : Nat} {r s : List Char} (hes : ∀ e ∈ es, P e.key ∧ Q e.value)
    (hfs : ∀ f ∈ fs, P f.key ∧ Q f.value)
    (h : (es.zipIdx i).flatMap port ++ '(' :: r = (fs.zipIdx i).flatMap port ++ '(' :: s) :
    es = fs ∧ r = s := by
  induction es generalizing i fs with
  | nil =>
    cases fs with
    | nil => exact ⟨rfl, (List.cons.inj h).2⟩
    | cons f fs =>
      rw [List.zipIdx_cons, List.flatMap_cons, List.append_assoc, port_append] at h
      cases h
  | cons e es ih =>
    cases fs with
    | nil =>
      rw [List.zipIdx_cons, List.flatMap_cons, List.append_assoc, port_append] at h
      cases h
    | cons f fs =>
      obtain ⟨he, hes⟩ := List.forall_mem_cons.1 hes
      obtain ⟨hf, hfs⟩ := List.forall_mem_cons.1 hfs
      rw [List.zipIdx_cons, List.zipIdx_cons, List.flatMap_cons, List.flatMap_cons,
        List.append_assoc, List.append_assoc] at h
      obtain ⟨hef, hrest⟩ := port_append_inj hP hQ he hf h
      obtain ⟨hesfs, hrs⟩ := ih hes hfs hrest
      exact ⟨by rw [hef, hesfs], hrs⟩

namespace Line

/-- The entries that a line lists have keys in `P` and values in `Q`. -/
def Within (P : κ → Prop) (Q : ν → Prop) (l : Line κ ν) : Prop :=
  ∀ x ∈ l.node?, ∀ e ∈ x.2, P e.key ∧ Q e.value

theorem body_inj (hP : Display.Numbers P) (hQ : Display.Numbers Q) {l m : Line κ ν}
    (hl : l.Within P Q) (hm : m.Within P Q) (h : l.body = m.body) : l = m := by
  have hbracket : ∀ x, ∀ c ∈ (" [label=\"<c0> |".toList ++ x).head?, c.isDigit = false := by simp
  have harrow : ∀ x, ∀ c ∈ (" -> n".toList ++ x).head?, c.isDigit = false := by simp
  cases l with
  | node id es =>
    cases m with
    | node id' fs =>
      rw [body_node, body_node] at h
      obtain ⟨hid, hrest⟩ :=
        Decimal.ofNat_append_inj (hbracket _) (hbracket _) (List.append_cancel_left h)
      have hes : es = fs :=
        (ports_append_inj hP hQ (hl _ rfl) (hm _ rfl) (List.append_cancel_left hrest)).1
      rw [hid, hes]
    | edge parent child =>
      rw [body_node, body_edge] at h
      obtain ⟨-, hrest⟩ :=
        Decimal.ofNat_append_inj (hbracket _) (harrow _) (List.append_cancel_left h)
      cases hrest
  | edge parent child =>
    cases m with
    | node id fs =>
      rw [body_edge, body_node] at h
      obtain ⟨-, hrest⟩ :=
        Decimal.ofNat_append_inj (harrow _) (hbracket _) (List.append_cancel_left h)
      cases hrest
    | edge parent' child' =>
      rw [body_edge, body_edge] at h
      obtain ⟨hparent, hrest⟩ :=
        Decimal.ofNat_append_inj (harrow _) (harrow _) (List.append_cancel_left h)
      have hchild := congrArg (· ++ []) (List.append_cancel_left hrest)
      obtain ⟨hchild, -⟩ := Decimal.ofNat_append_inj (by simp) (by simp) hchild
      rw [hparent, hchild]

theorem newline_notMem_body (hP : Display.Numbers P) (hQ : Display.Numbers Q) {l : Line κ ν}
    (hl : l.Within P Q) : '\n' ∉ l.body := by
  cases l with
  | node id es =>
    have hport : ∀ x ∈ es.zipIdx 1, '\n' ∉ port x := by
      intro x hx
      obtain ⟨hkey, hvalue⟩ := hl _ rfl x.1 (List.fst_mem_of_mem_zipIdx hx)
      rw [← List.append_nil (port x), port_append]
      simp [hP.newline_notMem hkey, hQ.newline_notMem hvalue, Decimal.newline_notMem_ofNat]
    have hports : '\n' ∉ (es.zipIdx 1).flatMap port := by
      rw [List.mem_flatMap]
      rintro ⟨x, hx, hmem⟩
      exact hport x hx hmem
    simp [body_node, Decimal.newline_notMem_ofNat, hports]
  | edge parent child => simp [body_edge, Decimal.newline_notMem_ofNat]

end Line

/-- The text of lines is cut at their ends. -/
theorem splitOn_flatMap_text (hP : Display.Numbers P) (hQ : Display.Numbers Q)
    {ls : List (Line κ ν)} (h : ∀ l ∈ ls, l.Within P Q) (r : List Char) :
    (ls.flatMap Line.text ++ r).splitOn '\n' = ls.map Line.body ++ r.splitOn '\n' := by
  induction ls with
  | nil => rfl
  | cons l ls ih =>
    obtain ⟨hl, hls⟩ := List.forall_mem_cons.1 h
    have hnewline := Line.newline_notMem_body hP hQ hl
    rw [List.flatMap_cons, Line.text_eq, List.append_assoc, List.append_assoc,
      List.singleton_append, List.splitOn_append_cons_self_of_not_mem hnewline, ih hls]
    rfl

theorem map_body_inj (hP : Display.Numbers P) (hQ : Display.Numbers Q) {ls ms : List (Line κ ν)}
    (hls : ∀ l ∈ ls, l.Within P Q) (hms : ∀ m ∈ ms, m.Within P Q)
    (h : ls.map Line.body = ms.map Line.body) : ls = ms := by
  induction ls generalizing ms with
  | nil => exact (List.map_eq_nil_iff.1 h.symm).symm
  | cons l ls ih =>
    cases ms with
    | nil => cases h
    | cons m ms =>
      obtain ⟨hl, hls⟩ := List.forall_mem_cons.1 hls
      obtain ⟨hm, hms⟩ := List.forall_mem_cons.1 hms
      obtain ⟨hbody, hrest⟩ := List.cons.inj h
      rw [Line.body_inj hP hQ hl hm hbody, ih hls hms hrest]

end Dot

/-! ## Trees -/

/-- Every node of a levelled one holds entries that are read from the whole. -/
theorem Node.Levelled.entries_subset {ok : Nat → Prop} {h : Nat} {n : Node κ ν}
    {es : List (Entry κ ν)} (hn : n.Levelled ok h) (hes : n.toList ⊆ es) :
    n.Everywhere fun m => m.entries ⊆ es := by
  induction hn with
  | leaf fs =>
    rw [everywhere_iff]
    exact ⟨List.Subset.trans (entries_sublist _).subset hes, by simp⟩
  | @inner h fs cs hlen hok hcs ih =>
    rw [everywhere_iff]
    refine ⟨List.Subset.trans (entries_sublist _).subset hes, fun c hc => ih c hc ?_⟩
    rw [toList_eq] at hes
    have hsub : c.toList ⊆ weave fs (cs.map toList) :=
      subset_weave (by simp [hlen]) (List.mem_map_of_mem hc)
    exact List.Subset.trans hsub hes

namespace Tree

variable {P : κ → Prop} {Q : ν → Prop} {t : Tree κ ν}

/-- The lines of a sound tree list its own entries. -/
theorem Sound.within_ofTree [Ord κ] (h : t.Sound) (hes : ∀ e ∈ t.entries, P e.key ∧ Q e.value) :
    ∀ l ∈ Dot.ofTree t, l.Within P Q := by
  rw [h.entries_eq] at hes
  intro l hl x hx e he
  unfold Dot.ofTree at hl
  cases hroot : t.root with
  | none =>
    rw [hroot] at hl
    cases hl
  | some root =>
    rw [hroot] at hl
    have hx : x ∈ (Dot.lines 0 root).1.filterMap Dot.Line.node? := List.mem_filterMap.2 ⟨l, hl, hx⟩
    rw [Dot.nodes_lines, List.mem_filterMap] at hx
    obtain ⟨p, -, hat⟩ := hx
    obtain ⟨m, hm, rfl⟩ := Option.map_eq_some_iff.1 hat
    have hsub : root.toList ⊆ t.toList := by
      rw [toList, hroot]
      exact List.Subset.refl _
    exact hes e ((h.levelled root hroot).entries_subset hsub p m hm he)

variable [Display κ] [Display ν]

/-- The text of a tree is a line for the graph and one for the shape of its nodes, then the lines
that draw the root, and a bracket. -/
structure Drawn (t : Tree κ ν) : Prop where
  splitOn_eq : t.dot.splitOn '\n' =
    "digraph tree \x7b".toList :: "\tnode [shape=record];".toList ::
      ((Dot.ofTree t).map Dot.Line.body ++ [['\x7d']])
  /-- The nodes have the numbers from zero on, each once. -/
  numbers_eq : ((Dot.ofTree t).filterMap Dot.Line.node?).map Prod.fst = List.range t.nodeCount
  absent (h : t.root = none) : Dot.ofTree t = []
  draws (root : Node κ ν) (h : t.root = some root) : Dot.Draws 0 root (Dot.ofTree t)

theorem splitOn_dot (hP : Display.Numbers P) (hQ : Display.Numbers Q)
    (h : ∀ l ∈ Dot.ofTree t, l.Within P Q) :
    t.dot.splitOn '\n' =
      "digraph tree \x7b".toList :: "\tnode [shape=record];".toList ::
        ((Dot.ofTree t).map Dot.Line.body ++ [['\x7d']]) := by
  have hdot : t.dot = "digraph tree \x7b".toList ++ '\n' :: ("\tnode [shape=record];".toList ++
      '\n' :: ((Dot.ofTree t).flatMap Dot.Line.text ++ ['\x7d'])) := rfl
  have hgraph : '\n' ∉ "digraph tree \x7b".toList := by decide
  have hshape : '\n' ∉ "\tnode [shape=record];".toList := by decide
  have hend : '\n' ∉ ['\x7d'] := by decide
  rw [hdot, List.splitOn_append_cons_self_of_not_mem hgraph,
    List.splitOn_append_cons_self_of_not_mem hshape, Dot.splitOn_flatMap_text hP hQ h,
    List.splitOn_eq_singleton hend]

/-- From the text the root can be told. -/
theorem root_eq_of_dot (hP : Display.Numbers P) (hQ : Display.Numbers Q) {s : Tree κ ν}
    (hs : ∀ l ∈ Dot.ofTree s, l.Within P Q) (ht : ∀ l ∈ Dot.ofTree t, l.Within P Q)
    (h : s.dot = t.dot) : s.root = t.root := by
  have hsplit := congrArg (List.splitOn '\n') h
  rw [splitOn_dot hP hQ hs, splitOn_dot hP hQ ht] at hsplit
  have hbodies := List.append_cancel_right (List.cons.inj (List.cons.inj hsplit).2).2
  exact Dot.root_eq_of_ofTree (Dot.map_body_inj hP hQ hs ht hbodies)

/-- Trees with values in `Q` are drawn as they are, and two with the same text have the same root. -/
def DotTells (κ : Type) [Ord κ] [Display κ] (Q : ν → Prop) : Prop :=
  ∀ t : Tree κ ν, t.Reachable → (∀ e ∈ t.entries, Q e.value) →
    t.Drawn ∧ ∀ s : Tree κ ν, s.Reachable → (∀ e ∈ s.entries, Q e.value) → s.dot = t.dot →
      s.root = t.root

theorem DotTells.of_numbers [Ord κ] [Std.TransOrd κ] (hκ : Display.Numbers fun _ : κ => True)
    (hQ : Display.Numbers Q) : DotTells κ Q := by
  have hwithin : ∀ {t : Tree κ ν}, t.Reachable → (∀ e ∈ t.entries, Q e.value) →
      ∀ l ∈ Dot.ofTree t, l.Within (fun _ => True) Q :=
    fun ht hes => ht.sound.within_ofTree fun e he => ⟨trivial, hes e he⟩
  intro t ht hes
  refine ⟨⟨splitOn_dot hκ hQ (hwithin ht hes), Dot.numbers_ofTree t, ?_, ?_⟩, fun s hs hes' h => ?_⟩
  · intro hroot
    rw [Dot.ofTree, hroot]
  · intro root hroot
    rw [Dot.ofTree, hroot]
    exact Dot.draws_lines 0 root
  · exact root_eq_of_dot hκ hQ (hwithin hs hes') (hwithin ht hes) h

/-- A map of numbers under numbers is drawn as it is: the lines of the text are those of its nodes
and edges.  Two such maps with the same text have the same root, whatever their degrees. -/
theorem dot_laws :
    (∀ (κ ν : Type) [Ord κ] [Std.TransOrd κ] [Display κ] [Display ν] (Q : ν → Prop),
      Display.Numbers (fun _ : κ => True) → Display.Numbers Q → DotTells κ Q) ∧
    DotTells Int64 Scalar.IsInt ∧ DotTells (Descending Int64) Scalar.IsInt ∧
    DotTells Int64 (fun _ : Int64 => True) ∧
    DotTells (Descending Int64) (fun _ : Int64 => True) := by
  have hint := Display.numbers_int64
  refine ⟨fun _ _ _ _ _ _ _ hκ hQ => .of_numbers hκ hQ, ?_, ?_, ?_, ?_⟩
  · exact .of_numbers hint Display.numbers_isInt
  · exact .of_numbers hint.descending Display.numbers_isInt
  · exact .of_numbers hint hint
  · exact .of_numbers hint.descending hint

/-- Four pairs, put in in ascending order into a tree of degree two. -/
def quartet : Tree Int64 Scalar where
  root := some (.binary (.leaf ⟨1, .int 10⟩) ⟨2, .int 20⟩
    ⟨[⟨3, .int (-30)⟩, ⟨4, .int 40⟩], []⟩)
  degree := .clamp 2
  size := 4

theorem quartet_reachable : quartet.Reachable := by
  refine .update (u := .extend [(1, .int 10), (2, .int 20), (3, .int (-30)), (4, .int 40)])
    (a := .nothing) (.empty (.clamp 2)) ⟨[.splitRoot 3], ?_⟩
  cbv

/-- A root with two leaves, of which the edges come after the lines of each. -/
theorem dot_laws_of_quartet :
    quartet.dot.splitOn '\n' = ["digraph tree \x7b".toList, "\tnode [shape=record];".toList,
        "\tn0 [label=\"<c0> |\x7b2|<c1> 20\x7d |(0)\"];".toList,
        "\tn1 [label=\"<c0> |\x7b1|<c1> 10\x7d |(1)\"];".toList,
        "\tn0 -> n1".toList,
        "\tn2 [label=\"<c0> |\x7b3|<c1> -30\x7d |\x7b4|<c2> 40\x7d |(2)\"];".toList,
        "\tn0 -> n2".toList, ['\x7d']] ∧
      ∀ s : Tree Int64 Scalar, s.Reachable → (∀ e ∈ s.entries, e.value.IsInt) →
        s.dot = quartet.dot → s.root = quartet.root := by
  have hlist : quartet.entries = [⟨1, .int 10⟩, ⟨2, .int 20⟩, ⟨3, .int (-30)⟩, ⟨4, .int 40⟩] := by
    rw [quartet_reachable.sound.entries_eq]
    cbv
  have hints : ∀ e ∈ quartet.entries, e.value.IsInt := by
    rw [hlist]
    simp [Scalar.IsInt]
  obtain ⟨-, htells, -⟩ := dot_laws
  obtain ⟨hdrawn, hroot⟩ := htells quartet quartet_reachable hints
  refine ⟨?_, hroot⟩
  rw [hdrawn.splitOn_eq]
  rfl

end Tree

end BTree
