/-!
# JSON numbers

A number has a sign, whole digits, and optionally a fraction and a power of ten.  One without
fraction or power is an integer if it fits 64 bits, with or without sign; any other is a binary64
number, formed from the leading digits that fit 64 bits and then scaled.  A number too large for
binary64 has no value.
-/

namespace BTree.Json

/-- A number as it is written. -/
structure Number where
  negative : Bool
  whole : List Char
  /-- The digits after the point; none without a point. -/
  fraction : List Char
  /-- The power of ten, with its sign. -/
  power : Option (Bool × List Char)

/-- What a number denotes. -/
inductive Number.Value where
  | int (i : Int)
  | float (x : Float)

namespace Number

/-- A run of at least one digit, and the rest. -/
def readDigits (cs : List Char) : Option (List Char × List Char) :=
  match cs.takeWhile Char.isDigit with
  | [] => none
  | ds => some (ds, cs.dropWhile Char.isDigit)

/-- The digits after a point, if there is one. -/
def readFraction : List Char → Option (List Char × List Char)
  | '.' :: cs => readDigits cs
  | cs => some ([], cs)

/-- The power of ten, if there is one. -/
def readPower : List Char → Option (Option (Bool × List Char) × List Char)
  | c :: cs =>
    if c = 'e' ∨ c = 'E' then
      let (negative, ds) :=
        match cs with
        | '-' :: ds => (true, ds)
        | '+' :: ds => (false, ds)
        | ds => (false, ds)
      (readDigits ds).map fun (ds, r) => (some (negative, ds), r)
    else some (none, c :: cs)
  | [] => some (none, [])

/-- A number, and the rest. -/
def read (cs : List Char) : Option (Number × List Char) := do
  let (negative, cs) :=
    match cs with
    | '-' :: cs => (true, cs)
    | cs => (false, cs)
  let (whole, cs) ← readDigits cs
  if whole.head? = some '0' && 1 < whole.length then none
  else
    let (fraction, cs) ← readFraction cs
    let (power, cs) ← readPower cs
    return (⟨negative, whole, fraction, power⟩, cs)

/-- Appends digits to a number as long as it fits 64 bits; the answer has the count of those left
over. -/
def absorb (n : Nat) : List Char → Nat × Nat
  | [] => (n, 0)
  | d :: ds =>
    let m := 10 * n + (d.toNat - '0'.toNat)
    if m < UInt64.size then absorb m ds else (n, ds.length + 1)

/-- `x / 10 ^ k`, in steps that binary64 can express. -/
def shrink (x : Float) (k : Nat) : Float :=
  if h : k ≤ 308 then x / Float.ofScientific 1 false k
  else if x == 0 then x
  else shrink (x / 1e308) (k - 308)
termination_by k
decreasing_by omega

/-- `significand * 10 ^ exponent`, if it is finite. -/
def scale? (significand : Nat) (exponent : Int) : Option Float :=
  let x := significand.toUInt64.toFloat
  if exponent < 0 then some (shrink x exponent.natAbs)
  else if 308 < exponent then if significand = 0 then some x else none
  else
    let y := x * Float.ofScientific 1 false exponent.toNat
    if y.isInf then none else some y

/-- The number of binary64, without its sign. -/
def magnitude? (n : Number) : Option Float :=
  let (w, dropped) := absorb 0 n.whole
  let (s, unread) := absorb w n.fraction
  let exponent : Int := dropped - (n.fraction.length - unread : Nat)
  match n.power with
  | none => scale? s exponent
  | some (negative, ds) =>
    let p := Nat.ofDigitChars 10 ds 0
    if p < 0x80000000 then scale? s (if negative then exponent - p else exponent + p)
    else if s ≠ 0 ∧ !negative then none
    else some 0

/-- What the number denotes. -/
def value? (n : Number) : Option Value :=
  let w := Nat.ofDigitChars 10 n.whole 0
  let whole := n.fraction.isEmpty && n.power.isNone
  if whole && !n.negative && w < UInt64.size then some (.int w)
  else if whole && n.negative && 0 < w && w ≤ Int64.minValue.toInt.natAbs then some (.int (-w))
  else n.magnitude?.map fun x => .float (if n.negative then -x else x)

end Number

end BTree.Json
