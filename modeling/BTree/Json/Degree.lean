import BTree.Degree
import BTree.Json.Skip
import BTree.Text.Decimal

/-!
# Degrees as JSON

A degree is written as an object with the one field `min_degree`.  Reading takes an object that has
this field exactly once, whatever else is in it, or a sequence of exactly one number.  The number
has no sign, fraction or power of ten, and fits 64 bits.
-/

namespace BTree.Json

/-- A number of 64 bits without sign, and the rest. -/
def readWord (cs : List Char) : Option (Nat × List Char) :=
  match Decimal.readNat cs with
  | none => none
  | some (n, r) => if n < UInt64.size then some (n, r) else none

/-- The fields of an object after its first brace; `found` is the number met before, and `fuel` is
enough if it is twice the length of the text. -/
def readRecord (found : Option Nat) : Nat → List Char → Option (Nat × List Char)
  | 0, _ => none
  | fuel + 1, cs => do
    let (name, r) ← readText (skipBlanks cs)
    match skipBlanks r with
    | ':' :: r =>
      let (found, r) ←
        if name = "min_degree" then
          if found.isSome then none
          else (readWord (skipBlanks r)).map fun (n, r) => (some n, r)
        else (skipValue fuel r).map fun r => (found, r)
      match skipBlanks r with
      | ',' :: r => readRecord found fuel r
      | '\x7d' :: r => found.map fun n => (n, r)
      | _ => none
    | _ => none

/-- The number in an object or in a sequence, and the rest. -/
def readDegreeNumber (cs : List Char) : Option (Nat × List Char) :=
  match skipBlanks cs with
  | '[' :: r =>
    match readWord (skipBlanks r) with
    | none => none
    | some (n, r) =>
      match skipBlanks r with
      | ']' :: r => some (n, r)
      | _ => none
  | '\x7b' :: r => readRecord none (2 * r.length) r
  | _ => none

end BTree.Json

namespace BTree.Degree

def toJson (d : Degree) : List Char :=
  "\x7b\"min_degree\":".toList ++ Decimal.ofNat d.least ++ "\x7d".toList

/-- The degree that the text describes; `none` stands for a text of another form.  A number that is
no degree is refused as such, whatever follows the value. -/
def ofJson (text : List Char) : Except (Option Rejection) Degree :=
  match Json.readDegreeNumber text with
  | none => .error none
  | some (n, r) =>
    match ofNat n with
    | .error e => .error (some e)
    | .ok d => if (Json.skipBlanks r).isEmpty then .ok d else .error none

end BTree.Degree
