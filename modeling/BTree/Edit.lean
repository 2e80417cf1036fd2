import BTree.Fault

/-!
# Edits: an answer, a trail of events, or a fault

A structural operation ends with its answer and the events it emitted, in order, or stops with a
fault.  Sequencing joins the trails; a fault ends the run.

    x >>= f = done b es  ↔  x = done a es₁, f a = done b es₂, es = es₁ ++ es₂    (bind_eq_done_iff)
-/

namespace BTree

/-- A change of structure, with the numbers that describe it at the time it happens. -/
inductive Event where
  /-- The root was split; the tree held `size` entries. -/
  | splitRoot (size : Nat)
  /-- Child `index` was split into halves of `left` and `right` entries. -/
  | splitChild (index left right : Nat)
  /-- Child `index`, of `left` entries, is joined with its right sibling, of `right` entries. -/
  | mergeChildren (index left right : Nat)
  /-- Child `index` took an entry over from its right sibling. -/
  | rotateLeft (index : Nat)
  /-- Child `index` took an entry over from its left sibling. -/
  | rotateRight (index : Nat)
  /-- An emptied root gave way to its child; the tree is now `height` levels high. -/
  | shrinkRoot (height : Nat)
  /-- The tree was emptied of `size` entries. -/
  | clear (size : Nat)
deriving DecidableEq, Repr

/-- An answer with the events emitted on the way to it, or the fault that ended the run. -/
inductive Edit (α : Type) where
  | fault (cause : Fault)
  | done (answer : α) (trail : List Event)
deriving DecidableEq, Repr

namespace Edit

variable {α β γ : Type}

/-- The same edit with `es` emitted before it. -/
def after (es : List Event) : Edit α → Edit α
  | fault e => fault e
  | done a fs => done a (es ++ fs)

instance : Monad Edit where
  pure a := done a []
  bind x f :=
    match x with
    | fault e => fault e
    | done a es => (f a).after es

def emit (e : Event) : Edit Unit := done () [e]

/-- A checked computation that emits nothing. -/
def lift : Except Fault α → Edit α
  | .error e => fault e
  | .ok a => done a []

instance : MonadLift (Except Fault) Edit := ⟨lift⟩

/-- The edit ends with the answer `a`, whatever it emits. -/
def Yields (x : Edit α) (a : α) : Prop := ∃ es, x = done a es

/-- The events emitted, none for a fault. -/
def trail : Edit α → List Event
  | fault _ => []
  | done _ es => es

/-- Hands on the answer with the proof that it was yielded. -/
def attach : (x : Edit α) → Edit { a // x.Yields a }
  | fault e => fault e
  | done a es => done ⟨a, es, rfl⟩ es

/-! ## Lemmas -/

@[simp]
theorem after_nil (x : Edit α) : x.after [] = x := by
  cases x <;> rfl

@[simp]
theorem after_after (es fs : List Event) (x : Edit α) :
    (x.after fs).after es = x.after (es ++ fs) := by
  cases x
  · rfl
  · simp [after]

@[simp]
theorem pure_eq_done (a : α) : (pure a : Edit α) = done a [] := rfl

@[simp]
theorem fault_bind (e : Fault) (f : α → Edit β) : (fault e : Edit α) >>= f = fault e := rfl

@[simp]
theorem done_bind (a : α) (es : List Event) (f : α → Edit β) :
    done a es >>= f = (f a).after es := rfl

theorem done_after (a : α) (es fs : List Event) : (done a fs).after es = done a (es ++ fs) := rfl

theorem after_bind (es : List Event) (x : Edit α) (f : α → Edit β) :
    x.after es >>= f = (x >>= f).after es := by
  cases x
  · rfl
  · rw [done_after, done_bind, done_bind, after_after]

theorem bind_eq_done_iff {x : Edit α} {f : α → Edit β} {b : β} {es : List Event} :
    x >>= f = done b es ↔
      ∃ a es₁ es₂, x = done a es₁ ∧ f a = done b es₂ ∧ es = es₁ ++ es₂ := by
  cases x with
  | fault e => simp
  | done a es₁ =>
    cases hf : f a with
    | fault e => simp [after, hf]
    | done c es₂ =>
      simp only [done_bind, hf, after, done.injEq]
      constructor
      · rintro ⟨rfl, rfl⟩
        exact ⟨a, es₁, es₂, ⟨rfl, rfl⟩, hf, rfl⟩
      · rintro ⟨_, _, _, ⟨rfl, rfl⟩, h, rfl⟩
        rw [hf] at h
        cases h
        exact ⟨rfl, rfl⟩

theorem yields_pure_iff {a b : α} : (pure a : Edit α).Yields b ↔ a = b := by
  simp [Yields]

theorem yields_bind_iff {x : Edit α} {f : α → Edit β} {b : β} :
    (x >>= f).Yields b ↔ ∃ a, x.Yields a ∧ (f a).Yields b := by
  constructor
  · rintro ⟨es, h⟩
    obtain ⟨a, es₁, es₂, hx, hf, rfl⟩ := bind_eq_done_iff.1 h
    exact ⟨a, ⟨es₁, hx⟩, es₂, hf⟩
  · rintro ⟨a, ⟨es₁, hx⟩, es₂, hf⟩
    exact ⟨es₁ ++ es₂, bind_eq_done_iff.2 ⟨a, es₁, es₂, hx, hf, rfl⟩⟩

@[simp]
theorem liftM_ok (a : α) : (liftM (Except.ok a : Except Fault α) : Edit α) = done a [] := rfl

@[simp]
theorem liftM_error (e : Fault) : (liftM (Except.error e : Except Fault α) : Edit α) = fault e :=
  rfl

theorem liftM_bind_eq_done_iff {x : Except Fault α} {f : α → Edit β} {b : β} {es : List Event} :
    (liftM x : Edit α) >>= f = done b es ↔ ∃ a, x = .ok a ∧ f a = done b es := by
  cases x <;> simp

theorem yields_liftM_iff {x : Except Fault α} {a : α} :
    (liftM x : Edit α).Yields a ↔ x = .ok a := by
  cases x <;> simp [Yields]

theorem not_yields_fault (e : Fault) (a : α) : ¬ (fault e : Edit α).Yields a := by
  simp [Yields]

/-- What puts the answer in another form leaves the rest as it is. -/
theorem answer_eq_done {τ : Type} {x : Edit (α × τ)} {b : β} {s : τ} {es : List Event} (f : α → β)
    (h : x >>= (fun r => pure (f r.1, r.2)) = done (b, s) es) :
    ∃ a, f a = b ∧ x = done (a, s) es := by
  obtain ⟨⟨a, r⟩, fs, gs, hx, hpure, rfl⟩ := bind_eq_done_iff.1 h
  cases hpure
  exact ⟨a, rfl, by rw [hx, List.append_nil]⟩

theorem attach_bind (x : Edit α) (f : α → Edit β) :
    (x.attach >>= fun a => f a.1) = x >>= f := by
  cases x <;> rfl

instance : LawfulMonad Edit :=
  LawfulMonad.mk' Edit
    (fun x => by cases x <;> simp [Functor.map, after])
    (fun a f => by simp)
    (fun x f g => by
      cases x with
      | fault e => rfl
      | done a es => simp [after_bind])

end Edit

end BTree
