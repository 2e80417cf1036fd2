import BTree.Tree.Update
import BTree.Tree.Walk

/-!
# Trees as texts

A codec writes pairs and reads them, whatever the form of the text.  A tree is written as its pairs in
order.  Reading inserts the pairs one after another into a tree of the standard degree; pairs before a
fault of the text have been inserted by the time it is met, and leave their trail of events.
-/

namespace BTree

variable {κ ν σ ρ : Type}

/-- How pairs are written as a text of type `σ` and read from one.  Reading hands out the pairs up to
the end, or up to the first thing that is wrong, with the reason why the text is refused. -/
structure Codec (κ ν σ ρ : Type) where
  write : List (κ × ν) → σ
  read : σ → List (κ × ν) × Option ρ

/-- Reading undoes writing: the pairs come back as they were, and nothing is wrong with the text. -/
def Codec.Lawful (c : Codec κ ν σ ρ) : Prop := ∀ ps, c.read (c.write ps) = (ps, none)

namespace Tree

/-- The text of the pairs in order. -/
def encode (c : Codec κ ν σ ρ) (t : Tree κ ν) : σ := c.write (t.entries.map Entry.toPair)

/-- The tree that the text describes, or why the text is refused. -/
def decode [Ord κ] (c : Codec κ ν σ ρ) (text : σ) : Edit (Except ρ (Tree κ ν)) := do
  let (ps, wrong) := c.read text
  let t ← ofList ps
  match wrong with
  | none => return .ok t
  | some refusal => return .error refusal

end Tree

end BTree
