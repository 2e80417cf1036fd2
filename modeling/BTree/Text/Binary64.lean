import BTree.Text.Decimal

/-!
# Text of a binary64 number

A number is shown with the fewest digits that still tell it from every other binary64 number, and
of those the nearest.  Its digits stand in place, with a point among them, as long as the first
digit counts between 10⁻⁵ and 10¹⁵; beyond that they are followed by a power of ten, which always
has a sign.
-/

namespace BTree.Binary64

/-- The positive number `numerator / denominator`, with the ends of the stretch of numbers that
binary64 rounds to it over the same denominator. -/
structure Interval where
  low : Nat
  numerator : Nat
  high : Nat
  denominator : Nat
  /-- The ends themselves round to the number. -/
  closed : Bool

/-- The fraction of a number has 52 bits. -/
def fractionSize : Nat := 0x10000000000000

/-- The interval of a positive finite number, from its bits without the sign. -/
def interval (bits : Nat) : Interval :=
  let field := bits / fractionSize
  let fraction := bits % fractionSize
  let m := if field = 0 then fraction else fractionSize + fraction
  -- the number is `m` times two to the power `e - 1075`
  let e := max field 1
  let scale := Nat.pow 2 (e - 1075)
  -- below a power of two the numbers lie twice as dense
  let gap := if fraction = 0 ∧ 1 < field then 1 else 2
  ⟨(4 * m - gap) * scale, 4 * m * scale, (4 * m + 2) * scale,
    4 * Nat.pow 2 (1075 - e), m % 2 = 0⟩

/-- The number `digits * 10 ^ exponent` lies in the interval. -/
def Interval.contains (i : Interval) (digits : Nat) (exponent : Int) : Bool :=
  let x := digits * Nat.pow 10 exponent.toNat * i.denominator
  let y := Nat.pow 10 (-exponent).toNat
  if i.closed then i.low * y ≤ x && x ≤ i.high * y else i.low * y < x && x < i.high * y

/-- The multiple of `10 ^ exponent` that is in the interval and nearest to the number, of two the
even one. -/
def Interval.onGrid? (i : Interval) (exponent : Int) : Option Nat :=
  let unit := Nat.pow 10 exponent.toNat * i.denominator
  let value := i.numerator * Nat.pow 10 (-exponent).toNat
  let d := value / unit
  let twice := 2 * (value % unit)
  let (near, far) :=
    if twice < unit ∨ (twice = unit ∧ d % 2 = 0) then (d, d + 1) else (d + 1, d)
  if i.contains near exponent then some near
  else if i.contains far exponent then some far
  else none

/-- The fewest digits in the interval with the power of ten that scales them, the grid taken finer
`fuel` times at most. -/
def Interval.shortest (i : Interval) (exponent : Int) : Nat → Nat × Int
  | 0 => ((i.onGrid? exponent).getD 0, exponent)
  | fuel + 1 =>
    match i.onGrid? exponent with
    | some (d + 1) => (d + 1, exponent)
    | _ => i.shortest (exponent - 1) fuel

/-- A power of ten with its sign, a plus sign included. -/
def signed (power : Int) : List Char :=
  if 0 ≤ power then '+' :: Decimal.ofInt power else Decimal.ofInt power

/-- Digits with a point or a power of ten; `point` tells how many of `ds` the point comes after, with
zeros understood on either side. -/
def layout (ds : List Char) (point : Int) : List Char :=
  if point ≤ -5 ∨ 16 < point then
    let mantissa :=
      match ds with
      | d :: e :: es => d :: '.' :: e :: es
      | ds => ds
    mantissa ++ 'e' :: signed (point - 1)
  else if point ≤ 0 then '0' :: '.' :: List.replicate (-point).toNat '0' ++ ds
  else if ds.length ≤ point.toNat then
    ds ++ List.replicate (point.toNat - ds.length) '0' ++ ['.', '0']
  else ds.take point.toNat ++ '.' :: ds.drop point.toNat

/-- The text of a finite number. -/
def text (x : Float) : List Char :=
  let bits := x.toBits.toNat
  let sign := if 0x8000000000000000 ≤ bits then ['-'] else []
  let magnitude := bits % 0x8000000000000000
  if magnitude = 0 then sign ++ ['0', '.', '0']
  else
    -- 10 ^ 309 is above every finite number, and 10 ^ -324 is below every stretch
    let (d, exponent) := (interval magnitude).shortest 309 650
    let ds := Decimal.ofNat d
    sign ++ layout ds (exponent + ds.length)

end BTree.Binary64
