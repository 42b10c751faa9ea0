/-!
# The numbers behind 64-bit floats

A finite float is a sign and a natural number times a power of two. `Binary64.decode` reads these
off the bits, `Binary64.encode` packs them again, and what has to be exact (cutting off to an
integer, the remainder of a division) is computed on the integers between the two.
-/

set_option autoImplicit false
set_option relaxedAutoImplicit false

namespace Treewalk

/-- What a float stands for. A finite one is `significand * 2 ^ exponent` with its sign; a zero has
significand zero and keeps its sign. -/
inductive Binary64 where
  | nan
  | infinite (negative : Bool)
  | finite (negative : Bool) (significand : Nat) (exponent : Int)
deriving DecidableEq, Repr

namespace Binary64

/-- The sign bit of a pattern of bits. -/
def signOf (bits : Nat) : Bool := bits / Nat.pow 2 63 == 1

/-- The number that a float stands for. -/
def decode (x : Float) : Binary64 :=
  let bits := x.toBits.toNat
  let negative := signOf bits
  let field : Nat := bits / Nat.pow 2 52 % Nat.pow 2 11
  let fraction := bits % Nat.pow 2 52
  if field = 2047 then
    if fraction = 0 then infinite negative else nan
  else if field = 0 then finite negative fraction (-1074)
  else finite negative (fraction + Nat.pow 2 52) ((field : Int) - 1075)

/-- The bits of the canonical float that is no number. -/
def nanBits : UInt64 := 0x7ff8000000000000

/-- The bits of a float, the same for all that are no number. -/
def canonicalBits (x : Float) : UInt64 :=
  if x.isNaN then nanBits else x.toBits

/-- The float `m * 2 ^ q` with the given sign, for `m` below `2 ^ 53` and `q` at least `-1074`. -/
def encode (negative : Bool) (m : Nat) (q : Int) : Float :=
  let sign := if negative then Nat.pow 2 63 else 0
  let top := m.log2
  let magnitude :=
    if m = 0 then 0
    else if (top : Int) + q < -1022 then m * Nat.pow 2 (q + 1074).toNat
    else (top + q + 1023).toNat * Nat.pow 2 52 + (m * Nat.pow 2 (52 - top) - Nat.pow 2 52)
  Float.ofBits (UInt64.ofNat (sign + magnitude))

/-- The integer part of `m * 2 ^ q`. -/
def wholePart (m : Nat) (q : Int) : Nat :=
  if 0 ≤ q then m * Nat.pow 2 q.toNat else m / Nat.pow 2 (-q).toNat

/-- A float without its fractional part, as an integer; infinities and what is no number have
none. -/
def truncate? (x : Float) : Option Int :=
  match decode x with
  | finite negative m q =>
    let whole : Int := wholePart m q
    some (if negative then -whole else whole)
  | _ => none

/-- The remainder of a division whose quotient is cut off towards zero. It is exact and has the sign
of the dividend. -/
def remainder (x y : Float) : Float :=
  match decode x, decode y with
  | finite negative m p, finite _ n q =>
    if n = 0 then Float.ofBits nanBits
    else
      let low := min p q
      let r := m * Nat.pow 2 (p - low).toNat % (n * Nat.pow 2 (q - low).toNat)
      encode negative r low
  | finite _ _ _, infinite _ => x
  | _, _ => Float.ofBits nanBits

end Binary64

end Treewalk
