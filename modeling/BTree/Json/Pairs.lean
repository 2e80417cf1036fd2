import BTree.Json.Field
import BTree.Json.Kind

/-!
# Maps as JSON objects

A map is written as an object without blanks, a field for each pair in order.  Reading hands out
the pairs in the order of the text, up to the end or to the first thing that is wrong; what is wrong
with a whole value of another kind is told in words.
-/

namespace BTree.Json

/-- Why a text is refused. -/
inductive Refusal where
  | malformed
  | notMap (found : Kind)

/-- Only a value of another kind is described. -/
def Refusal.message? : Refusal → Option (List Char)
  | malformed => none
  | notMap found => some ("invalid type: ".toList ++ found.display ++ ", expected a map".toList)

variable {κ ν : Type} [Key κ] [Value ν]

/-- The object with a field for each pair. -/
def writePairs (ps : List (κ × ν)) : List Char :=
  '\x7b' :: [','].intercalate (ps.map writeField) ++ ['\x7d']

/-- Nothing but blanks may follow the object. -/
def readEnd (cs : List Char) : Option Refusal :=
  if (skipBlanks cs).isEmpty then none else some .malformed

/-- The pairs from a field on, and what is wrong after them, if anything. -/
def readFields (cs : List Char) : List (κ × ν) × Option Refusal :=
  match _h : readField cs with
  | none => ([], some .malformed)
  | some (p, r) =>
    match _hr : skipBlanks r with
    | ',' :: next =>
      let (ps, wrong) := readFields next
      (p :: ps, wrong)
    | '\x7d' :: r => ([p], readEnd r)
    | _ => ([p], some .malformed)
termination_by cs.length
decreasing_by
  have h₁ := length_readField_lt _h
  have h₂ := length_skipBlanks_le r
  rw [_hr, List.length_cons] at h₂
  omega

/-- The pairs of a map, and what is wrong after them, if anything. -/
def readPairs (cs : List Char) : List (κ × ν) × Option Refusal :=
  match skipBlanks cs with
  | '\x7b' :: r =>
    match skipBlanks r with
    | '\x7d' :: r => ([], readEnd r)
    | r => readFields r
  | r => ([], some (((Kind.read r).map .notMap).getD .malformed))

end BTree.Json
