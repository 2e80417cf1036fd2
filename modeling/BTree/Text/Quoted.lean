/-!
# Quoted text

A string is shown between double quotes.  A quote and a backslash take a backslash before them, line
feed, carriage return, tab and NUL have an escape letter each, and other characters that cannot be
printed are shown by their number in hexadecimal.
-/

namespace BTree.Quoted

/-- Control characters, and the code points that stand for no character. -/
def isUnprintable (c : Char) : Bool :=
  let n := c.toNat
  n < 0x20 || (0x7f ≤ n && n < 0xa0) || (0xfdd0 ≤ n && n < 0xfdf0) || 0xfffe ≤ n % 0x10000

def escape (c : Char) : List Char :=
  match c with
  | '"' => ['\\', '"']
  | '\\' => ['\\', '\\']
  | '\n' => ['\\', 'n']
  | '\r' => ['\\', 'r']
  | '\t' => ['\\', 't']
  | '\x00' => ['\\', '0']
  | c =>
    if isUnprintable c then ['\\', 'u', '\x7b'] ++ Nat.toDigits 16 c.toNat ++ ['\x7d'] else [c]

def ofString (s : String) : List Char := '"' :: s.toList.flatMap escape ++ ['"']

end BTree.Quoted
