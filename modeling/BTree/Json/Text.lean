/-!
# JSON strings

A string is written between double quotes; a quote, a backslash and the control characters are
escaped and nothing else.  Reading takes any JSON escape: a pair of surrogate escapes stands for one
character, while a surrogate on its own and a raw control character are refused.

    readChar (escape c ++ r) = some (c, r)                        (readChar_escape)
    readText (writeText s ++ r) = some (s, r)                     (readText_writeText)
    readText cs = some (s, r)  →  r.length < cs.length            (length_readText_lt)
-/

namespace BTree.Json

/-! ## Algorithm -/

def escape (c : Char) : List Char :=
  match c with
  | '"' => ['\\', '"']
  | '\\' => ['\\', '\\']
  | '\x08' => ['\\', 'b']
  | '\t' => ['\\', 't']
  | '\n' => ['\\', 'n']
  | '\x0c' => ['\\', 'f']
  | '\r' => ['\\', 'r']
  | c =>
    if c.toNat < 0x20 then
      ['\\', 'u', '0', '0', Nat.digitChar (c.toNat / 16), Nat.digitChar (c.toNat % 16)]
    else [c]

def writeText (s : String) : List Char := '"' :: s.toList.flatMap escape ++ ['"']

/-- The character that a one-letter escape stands for. -/
def unescape? : Char → Option Char
  | '"' => some '"'
  | '\\' => some '\\'
  | '/' => some '/'
  | 'b' => some '\x08'
  | 'f' => some '\x0c'
  | 'n' => some '\n'
  | 'r' => some '\r'
  | 't' => some '\t'
  | _ => none

def hexDigit? (c : Char) : Option Nat :=
  if c.isDigit then some (c.toNat - '0'.toNat)
  else if 'a' ≤ c ∧ c ≤ 'f' then some (c.toNat - 'a'.toNat + 10)
  else if 'A' ≤ c ∧ c ≤ 'F' then some (c.toNat - 'A'.toNat + 10)
  else none

/-- The 16-bit unit that four hexadecimal digits write. -/
def unit? (a b c d : Char) : Option Nat :=
  match hexDigit? a, hexDigit? b, hexDigit? c, hexDigit? d with
  | some a, some b, some c, some d => some (((a * 16 + b) * 16 + c) * 16 + d)
  | _, _, _, _ => none

/-- What one step inside a string reads: a character, or a 16-bit unit given by its number. -/
inductive Piece where
  | char (c : Char)
  | unit (u : Nat)
deriving DecidableEq, Repr

/-- The first piece, and the rest; the closing quote is none. -/
def readPiece : List Char → Option (Piece × List Char)
  | [] => none
  | '"' :: _ => none
  | '\\' :: 'u' :: a :: b :: c :: d :: r => (unit? a b c d).map fun u => (.unit u, r)
  | '\\' :: c :: r => (unescape? c).map fun x => (.char x, r)
  | c :: r => if c.toNat < 0x20 ∨ c = '\\' then none else some (.char c, r)

/-- The unit is the first half of a surrogate pair. -/
def isHigh (u : Nat) : Bool := 0xd800 ≤ u && u < 0xdc00

/-- The unit is the second half of a surrogate pair. -/
def isLow (u : Nat) : Bool := 0xdc00 ≤ u && u < 0xe000

/-- The character that a surrogate pair stands for. -/
def joinPair (high low : Nat) : Char := .ofNat (0x10000 + (high - 0xd800) * 0x400 + (low - 0xdc00))

/-- The first character, and the rest. -/
def readChar (cs : List Char) : Option (Char × List Char) :=
  match readPiece cs with
  | none => none
  | some (.char c, r) => some (c, r)
  | some (.unit u, r) =>
    if isHigh u then
      match readPiece r with
      | some (.unit v, r) =>
        if isLow v then some (joinPair u v, r) else none
      | _ => none
    else if isLow u then none
    else some (.ofNat u, r)

theorem length_readPiece_lt {cs r : List Char} {p : Piece} (h : readPiece cs = some (p, r)) :
    r.length < cs.length := by
  unfold readPiece at h
  split at h
  · cases h
  · cases h
  · obtain ⟨u, -, hu⟩ := Option.map_eq_some_iff.1 h
    cases hu
    simp only [List.length_cons]
    omega
  · obtain ⟨u, -, hu⟩ := Option.map_eq_some_iff.1 h
    cases hu
    simp only [List.length_cons]
    omega
  · split at h
    · cases h
    · cases h
      exact Nat.lt_succ_self _

theorem length_readChar_lt {cs r : List Char} {c : Char} (h : readChar cs = some (c, r)) :
    r.length < cs.length := by
  unfold readChar at h
  split at h
  · cases h
  · next h₁ =>
    cases h
    exact length_readPiece_lt h₁
  · next h₁ =>
    have h₂ := length_readPiece_lt h₁
    split at h
    · split at h
      · next h₃ =>
        have h₄ := length_readPiece_lt h₃
        split at h
        · simp only [Option.some.injEq, Prod.mk.injEq] at h
          obtain ⟨-, rfl⟩ := h
          exact Nat.lt_trans h₄ h₂
        · cases h
      · cases h
    · split at h
      · cases h
      · simp only [Option.some.injEq, Prod.mk.injEq] at h
        obtain ⟨-, rfl⟩ := h
        exact h₂

/-- The characters up to the closing quote, and the rest. -/
def readChars (cs : List Char) : Option (List Char × List Char) :=
  match cs with
  | '"' :: r => some ([], r)
  | cs =>
    match _h : readChar cs with
    | none => none
    | some (c, r) => (readChars r).map fun (s, r) => (c :: s, r)
termination_by cs.length
decreasing_by exact length_readChar_lt _h

/-- A string, and the rest. -/
def readText : List Char → Option (String × List Char)
  | '"' :: r => (readChars r).map fun (s, r) => (.ofList s, r)
  | _ => none

/-- What follows the string whose opening quote has been read; surrogates may stand alone. -/
def skipChars (cs : List Char) : Option (List Char) :=
  match cs with
  | '"' :: r => some r
  | cs =>
    match _h : readPiece cs with
    | none => none
    | some (_, r) => skipChars r
termination_by cs.length
decreasing_by exact length_readPiece_lt _h

/-! ## Lemmas -/

theorem length_readChars_lt {cs s r : List Char} (h : readChars cs = some (s, r)) :
    r.length < cs.length := by
  fun_induction readChars cs generalizing s r with
  | case1 r => cases h; simp
  | case2 => cases h
  | case3 cs _ c r' hc ih =>
    obtain ⟨⟨s', r''⟩, hs, h⟩ := Option.map_eq_some_iff.1 h
    cases h
    exact Nat.lt_trans (ih hs) (length_readChar_lt hc)

theorem length_readText_lt {cs r : List Char} {s : String} (h : readText cs = some (s, r)) :
    r.length < cs.length := by
  unfold readText at h
  split at h
  · obtain ⟨⟨s', r'⟩, hs, h⟩ := Option.map_eq_some_iff.1 h
    cases h
    exact Nat.lt_succ_of_lt (length_readChars_lt hs)
  · cases h

theorem unit?_control : ∀ n, n < 32 →
    unit? '0' '0' (Nat.digitChar (n / 16)) (Nat.digitChar (n % 16)) = some n := by
  decide

/-- An escape reads back as the character. -/
theorem readChar_escape (c : Char) (r : List Char) : readChar (escape c ++ r) = some (c, r) := by
  unfold escape
  split
  case h_8 h₁ h₂ h₃ h₄ h₅ h₆ h₇ =>
    split
    · next h =>
      have hp : readPiece ('\\' :: 'u' :: '0' :: '0' :: Nat.digitChar (c.toNat / 16) ::
          Nat.digitChar (c.toNat % 16) :: r) = some (.unit c.toNat, r) := by
        simp [readPiece, unit?_control c.toNat h]
      have hh : isHigh c.toNat = false := by simp [isHigh]; omega
      have hl : isLow c.toNat = false := by simp [isLow]; omega
      simp [readChar, hp, hh, hl]
    · next h =>
      have hp : readPiece (c :: r) = some (.char c, r) := by
        rw [readPiece]
        · rw [if_neg]
          rintro (h' | h')
          · exact h h'
          · exact h₂ h'
        · exact fun h' => h₁ h'
        · exact fun _ _ _ _ _ h' _ => h₂ h'
        · exact fun _ _ h' _ => h₂ h'
      simp [readChar, hp]
  all_goals rfl

theorem readChars_flatMap_escape (s r : List Char) :
    readChars (s.flatMap escape ++ '"' :: r) = some (s, r) := by
  induction s with
  | nil => simp [readChars]
  | cons c s ih =>
    have hc := readChar_escape c (s.flatMap escape ++ '"' :: r)
    rw [List.flatMap_cons, List.append_assoc, readChars]
    · split
      · next h => rw [hc] at h; cases h
      · next h =>
        rw [hc] at h
        cases h
        rw [ih]
        rfl
    · intro r' h
      rw [h] at hc
      cases hc

/-- A string reads back as it was written. -/
theorem readText_writeText (s : String) (r : List Char) :
    readText (writeText s ++ r) = some (s, r) := by
  simp [readText, writeText, readChars_flatMap_escape]

end BTree.Json
