import BTree.Degree
import BTree.Key
import BTree.Text.Decimal
import BTree.Text.Quoted
import BTree.Tree.Walk

/-!
# Texts to read

Keys and values have a plain text and a quoted one, which differ for strings alone.  An entry is
shown as a record, a map as the list of its pairs in braces, on one line or with a line to a pair.
-/

namespace BTree

variable {κ ν : Type}

/-- Values that can be shown. -/
class Display (α : Type) where
  plain : α → List Char
  quoted : α → List Char

namespace Display

instance : Display Int64 := ⟨fun n => Decimal.ofInt n.toInt, fun n => Decimal.ofInt n.toInt⟩

instance {α : Type} [Display α] : Display (Descending α) :=
  ⟨fun a => plain a.val, fun a => quoted a.val⟩

instance : Display String := ⟨String.toList, Quoted.ofString⟩

instance : Display Caseless := ⟨fun s => plain s.spelling, fun s => quoted s.spelling⟩

instance : Display Scalar where
  plain
    | .int n => plain n
    | .text s => plain s
  quoted
    | .int n => quoted n
    | .text s => quoted s

end Display

/-- The degree as a record. -/
def Degree.display (d : Degree) : List Char :=
  "Config \x7b min_degree: ".toList ++ Decimal.ofNat d.least ++ " \x7d".toList

open Display

variable [Display κ] [Display ν]

/-- The entry as a record. -/
def Entry.display (e : Entry κ ν) : List Char :=
  "Entry \x7b key: ".toList ++ quoted e.key ++ ", value: ".toList ++ quoted e.value ++
    " \x7d".toList

/-- The key, a colon and the value. -/
def Entry.displayPair (e : Entry κ ν) : List Char := quoted e.key ++ [':', ' '] ++ quoted e.value

/-- The pairs on one line. -/
def Tree.display (t : Tree κ ν) : List Char :=
  ['\x7b'] ++ [',', ' '].intercalate (t.entries.map Entry.displayPair) ++ ['\x7d']

/-- The pairs with a line and a trailing comma each. -/
def Tree.displayLines (t : Tree κ ν) : List Char :=
  match t.entries with
  | [] => ['\x7b', '\x7d']
  | es =>
    ['\x7b', '\n'] ++ es.flatMap (fun e => "    ".toList ++ e.displayPair ++ [',', '\n']) ++
      ['\x7d']

end BTree
