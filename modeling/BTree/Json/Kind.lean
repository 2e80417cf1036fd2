import BTree.Json.Skip
import BTree.Text.Binary64
import BTree.Text.Quoted

/-!
# Kinds of JSON values

What kind of value stands where a map was expected, and how it is told in words.
-/

namespace BTree.Json

/-- The kind of a value that is no map. -/
inductive Kind where
  | sequence
  | null
  | boolean (b : Bool)
  | integer (i : Int)
  | float (x : Float)
  | text (s : String)

namespace Kind

def display : Kind → List Char
  | sequence => "sequence".toList
  | null => "null".toList
  | boolean b => "boolean `".toList ++ (if b then "true`" else "false`").toList
  | integer i => "integer `".toList ++ Decimal.ofInt i ++ "`".toList
  | float x => "floating point `".toList ++ Binary64.text x ++ "`".toList
  | text s => "string ".toList ++ Quoted.ofString s

/-- The kind of the value that the text begins with.  A sequence is known by its bracket, any other
kind by the whole value. -/
def read : List Char → Option Kind
  | '[' :: _ => some sequence
  | '"' :: cs => (readText ('"' :: cs)).map fun (s, _) => text s
  | cs =>
    if (skipWord "null" cs).isSome then some null
    else if (skipWord "true" cs).isSome then some (boolean true)
    else if (skipWord "false" cs).isSome then some (boolean false)
    else
      match (Number.read cs).bind fun (n, _) => n.value? with
      | none => none
      | some (.int i) => some (integer i)
      | some (.float x) => some (float x)

end Kind

end BTree.Json
