import BTree.Json.Skip
import BTree.Key
import BTree.Text.Decimal

/-!
# Fields of JSON objects

A field is a key, a colon and a value.  A number is quoted when it is a key.  Every reader takes at
least one character, so that a loop over fields ends.
-/

namespace BTree.Json

/-- Keys as they stand before the colon of a field. -/
class Key (α : Type) where
  write : α → List Char
  read : List Char → Option (α × List Char)
  length_read_lt : ∀ {cs r : List Char} {a : α}, read cs = some (a, r) → r.length < cs.length

/-- Values as they stand after the colon of a field. -/
class Value (α : Type) where
  write : α → List Char
  read : List Char → Option (α × List Char)
  length_read_lt : ∀ {cs r : List Char} {a : α}, read cs = some (a, r) → r.length < cs.length

/-! ## Keys and values -/

/-- A quoted number: nothing but its digits and sign between the quotes. -/
def readQuotedInt : List Char → Option (Int64 × List Char)
  | '"' :: cs =>
    match Decimal.readInt64 cs with
    | some (i, '"' :: r) => some (i, r)
    | _ => none
  | _ => none

theorem length_readQuotedInt_lt {cs r : List Char} {i : Int64}
    (h : readQuotedInt cs = some (i, r)) : r.length < cs.length := by
  unfold readQuotedInt at h
  split at h
  · split at h
    · next hi =>
      have := Decimal.length_readInt64_lt hi
      cases h
      simp at this ⊢
      omega
    · cases h
  · cases h

instance : Key Int64 where
  write i := '"' :: Decimal.ofInt i.toInt ++ ['"']
  read := readQuotedInt
  length_read_lt := length_readQuotedInt_lt

instance : Key String where
  write := writeText
  read := readText
  length_read_lt := length_readText_lt

theorem length_map_lt {α β : Type} {read : List Char → Option (α × List Char)} {f : α → β}
    (hread : ∀ {cs r : List Char} {a : α}, read cs = some (a, r) → r.length < cs.length)
    {cs r : List Char} {b : β} (h : (read cs).map (fun (a, r) => (f a, r)) = some (b, r)) :
    r.length < cs.length := by
  obtain ⟨⟨a, r'⟩, ha, h⟩ := Option.map_eq_some_iff.1 h
  cases h
  exact hread ha

instance {α : Type} [Key α] : Key (Descending α) where
  write a := Key.write a.val
  read cs := (Key.read cs).map fun (a, r) => (⟨a⟩, r)
  length_read_lt := length_map_lt Key.length_read_lt

instance : Key Caseless where
  write s := writeText s.spelling
  read cs := (readText cs).map fun (s, r) => (⟨s⟩, r)
  length_read_lt := length_map_lt length_readText_lt

/-- A fraction or a power of ten begins here. -/
def continuesNumber : List Char → Bool
  | c :: _ => c = '.' || c = 'e' || c = 'E'
  | [] => false

/-- A whole number of 64 bits.  One that goes on with a fraction or a power of ten is refused before
either is looked at. -/
def readWhole (cs : List Char) : Option (Int64 × List Char) :=
  match Decimal.readInt64 cs with
  | none => none
  | some (i, r) => if continuesNumber r then none else some (i, r)

theorem length_readWhole_lt {cs r : List Char} {i : Int64} (h : readWhole cs = some (i, r)) :
    r.length < cs.length := by
  unfold readWhole at h
  split at h
  · cases h
  · next hi =>
    split at h
    · cases h
    · cases h
      exact Decimal.length_readInt64_lt hi

/-- A string or a whole number of 64 bits. -/
def readScalar : List Char → Option (Scalar × List Char)
  | '"' :: cs => (readText ('"' :: cs)).map fun (s, r) => (.text s, r)
  | cs => (readWhole cs).map fun (i, r) => (.int i, r)

theorem length_readScalar_lt {cs r : List Char} {v : Scalar} (h : readScalar cs = some (v, r)) :
    r.length < cs.length := by
  unfold readScalar at h
  split at h
  · exact length_map_lt length_readText_lt h
  · exact length_map_lt length_readWhole_lt h

instance : Value Scalar where
  write
    | .int i => Decimal.ofInt i.toInt
    | .text s => writeText s
  read := readScalar
  length_read_lt := length_readScalar_lt

/-! ## Fields -/

variable {κ ν : Type} [Key κ] [Value ν]

/-- The key, a colon and the value, without blanks. -/
def writeField (p : κ × ν) : List Char := Key.write p.1 ++ ':' :: Value.write p.2

/-- A key, a colon and a value, with blanks between. -/
def readField (cs : List Char) : Option ((κ × ν) × List Char) :=
  match (Key.read (skipBlanks cs) : Option (κ × List Char)) with
  | none => none
  | some (k, r) =>
    match skipBlanks r with
    | ':' :: r => (Value.read (skipBlanks r)).map fun (v, r) => ((k, v), r)
    | _ => none

theorem length_readField_lt {cs r : List Char} {p : κ × ν} (h : readField cs = some (p, r)) :
    r.length < cs.length := by
  unfold readField at h
  split at h
  · cases h
  · next k r₁ hk =>
    have h₁ := Key.length_read_lt hk
    have h₂ := length_skipBlanks_le cs
    have h₃ := length_skipBlanks_le r₁
    split at h
    · next r₂ hr =>
      obtain ⟨⟨v, r₃⟩, hv, h⟩ := Option.map_eq_some_iff.1 h
      cases h
      have h₄ := Value.length_read_lt hv
      have h₅ := length_skipBlanks_le r₂
      rw [hr, List.length_cons] at h₃
      omega
    · cases h

end BTree.Json
