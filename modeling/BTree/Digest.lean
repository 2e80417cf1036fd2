import BTree.Key
import BTree.Tree.Walk

/-!
# Bytes to hash

A map feeds a hash with its keys and values in order, without lengths.  A number gives its eight
bytes, the least significant first; a string gives its UTF-8 bytes and then `ff`, which is no byte
of UTF-8.  A caseless string gives its folded form, so that equal keys give equal bytes.
-/

namespace BTree

variable {κ ν : Type}

/-- Values that can be hashed. -/
class Digest (α : Type) where
  bytes : α → List UInt8

namespace Digest

/-- The low `w` bytes of `n`, the least significant first. -/
def littleEndian : Nat → Nat → List UInt8
  | 0, _ => []
  | w + 1, n => .ofNat n :: littleEndian w (n / 256)

/-- The UTF-8 bytes of a string, closed by a byte that UTF-8 does not use. -/
def ofString (s : String) : List UInt8 := s.toList.flatMap String.utf8EncodeChar ++ [0xff]

instance : Digest Int64 := ⟨fun n => littleEndian 8 n.toUInt64.toNat⟩

instance {α : Type} [Digest α] : Digest (Descending α) := ⟨fun a => bytes a.val⟩

instance : Digest String := ⟨ofString⟩

instance : Digest Caseless := ⟨fun s => ofString s.folded⟩

instance : Digest Scalar where
  bytes
    | .int n => bytes n
    | .text s => bytes s

end Digest

namespace Tree

/-- The bytes of all keys and values in order. -/
def digest [Digest κ] [Digest ν] (t : Tree κ ν) : List UInt8 :=
  t.entries.flatMap fun e => Digest.bytes e.key ++ Digest.bytes e.value

end Tree

end BTree
