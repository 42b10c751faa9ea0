import Treewalk.Number.Binary64

/-!
# Shortest decimal text of a float

The decimals that round to a float form an interval around it. `Decimal.shortest` looks for the
coarsest power of ten with a multiple in that interval and takes the multiple next to the float, so
the text has the fewest digits that read back, and among those it is the nearest. `Decimal.text`
writes every number positionally: no exponent, no trailing zeros after the point.
-/

set_option autoImplicit false
set_option relaxedAutoImplicit false

namespace Treewalk.Decimal

/-- The positive reals that round to a float, as fractions of one denominator: the float itself and
the two ends, which belong to the interval when the significand is even. -/
structure Interval where
  low : Nat
  value : Nat
  high : Nat
  denominator : Nat
  closed : Bool

/-- The interval of the float `m * 2 ^ q`. Below a power of two the neighbours are twice as
close. -/
def Interval.of (m : Nat) (q : Int) : Interval :=
  let scale := Nat.pow 2 (q - 2).toNat
  let gap := if m = Nat.pow 2 52 ∧ -1074 < q then 1 else 2
  { low := (4 * m - gap) * scale
    value := 4 * m * scale
    high := (4 * m + 2) * scale
    denominator := Nat.pow 2 (2 - q).toNat
    closed := m % 2 = 0 }

/-- The interval in units of `10 ^ e`. -/
def Interval.scaled (i : Interval) (e : Int) : Interval :=
  let up := Nat.pow 10 (-e).toNat
  { low := i.low * up
    value := i.value * up
    high := i.high * up
    denominator := i.denominator * Nat.pow 10 e.toNat
    closed := i.closed }

/-- Whether a whole number of units lies in the interval. -/
def Interval.holds (i : Interval) (n : Nat) : Bool :=
  let x := n * i.denominator
  if i.closed then i.low ≤ x && x ≤ i.high else i.low < x && x < i.high

/-- The whole number in the interval that is nearest to its value, the larger of two. -/
def Interval.nearest? (i : Interval) : Option Nat :=
  let below := i.value / i.denominator
  let above := below + 1
  match i.holds below, i.holds above with
  | true, true =>
    if 2 * i.value < (below + above) * i.denominator then some below else some above
  | true, false => some below
  | false, true => some above
  | false, false => none

/-- Tries the powers of ten from `10 ^ e` downwards. Each of them has a multiple below the value, so
the last one tried stands for the value cut off. -/
def search (i : Interval) : Nat → Int → Nat × Int
  | 0, e => ((i.scaled e).value / (i.scaled e).denominator, e)
  | steps + 1, e =>
    match (i.scaled e).nearest? with
    | some digits => (digits, e)
    | none => search i steps (e - 1)

/-- A power of ten that is not below `2 ^ b`, as its exponent. -/
def ceilingPower (b : Int) : Int :=
  if 0 ≤ b then b / 3 + 1 else -(-b / 4)

/-- The shortest decimal `digits * 10 ^ e` that rounds to `m * 2 ^ q`. -/
def shortest (m : Nat) (q : Int) : Nat × Int :=
  search (Interval.of m q) 400 (ceilingPower (m.log2 + 1 + q))

/-- The number `digits * 10 ^ e`, written out in full. -/
def positional (digits : Nat) (e : Int) : String :=
  if 0 ≤ e then digits.repr ++ String.ofList (List.replicate e.toNat '0')
  else
    let places := (-e).toNat
    let ds := digits.repr.toList
    let padded := List.replicate (places + 1 - ds.length) '0' ++ ds
    String.ofList (padded.take (padded.length - places) ++ '.' ::
      padded.drop (padded.length - places))

/-- A float as text. -/
def text (x : Float) : String :=
  match Binary64.decode x with
  | .nan => "NaN"
  | .infinite negative => if negative then "-inf" else "inf"
  | .finite negative m q =>
    let magnitude :=
      if m = 0 then "0"
      else
        let (digits, e) := shortest m q
        positional digits e
    if negative then "-" ++ magnitude else magnitude

end Treewalk.Decimal
