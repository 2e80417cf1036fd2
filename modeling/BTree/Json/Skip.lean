import BTree.Json.Number
import BTree.Json.Text

/-!
# Skipping in JSON

What follows blanks, a word, or a value that is of no interest.  Only the grammar counts for a value
that is skipped: the size of a number and the surrogates of a string do not.
-/

namespace BTree.Json

def isBlank (c : Char) : Bool := c = ' ' || c = '\n' || c = '\t' || c = '\r'

def skipBlanks (cs : List Char) : List Char := cs.dropWhile isBlank

/-- What follows `word`, if the text begins with it. -/
def skipWord (word : String) (cs : List Char) : Option (List Char) :=
  if word.toList.isPrefixOf cs then some (cs.drop word.length) else none

mutual

/-- What follows a value.  A step takes at least one character, or leads to one that does, so `fuel`
is enough if it is twice the length of the text. -/
def skipValue : Nat → List Char → Option (List Char)
  | 0, _ => none
  | fuel + 1, cs =>
    match skipBlanks cs with
    | '[' :: r =>
      match skipBlanks r with
      | ']' :: r => some r
      | r => skipItems fuel r
    | '\x7b' :: r =>
      match skipBlanks r with
      | '\x7d' :: r => some r
      | r => skipFields fuel r
    | '"' :: r => skipChars r
    | r =>
      ((skipWord "null" r).or (skipWord "true" r)).or
        ((skipWord "false" r).or ((Number.read r).map Prod.snd))

/-- What follows a sequence after its first bracket. -/
def skipItems : Nat → List Char → Option (List Char)
  | 0, _ => none
  | fuel + 1, cs =>
    match (skipValue fuel cs).map skipBlanks with
    | some (',' :: r) => skipItems fuel r
    | some (']' :: r) => some r
    | _ => none

/-- What follows an object after its first brace. -/
def skipFields : Nat → List Char → Option (List Char)
  | 0, _ => none
  | fuel + 1, cs =>
    match skipBlanks cs with
    | '"' :: r =>
      match (skipChars r).map skipBlanks with
      | some (':' :: r) =>
        match (skipValue fuel r).map skipBlanks with
        | some (',' :: r) => skipFields fuel r
        | some ('\x7d' :: r) => some r
        | _ => none
      | _ => none
    | _ => none

end

/-! ## Lemmas -/

theorem length_skipBlanks_le (cs : List Char) : (skipBlanks cs).length ≤ cs.length :=
  (List.dropWhile_sublist _).length_le

end BTree.Json
