import Treewalk.Number.Word
import Treewalk.Text.Blank

/-!
# Numbers read from text

Integers are an optional sign and decimal digits. Floats add a point with digits on at least one
side of it, an exponent, and the names of the infinities and of what is no number, in any case of
letters. A float is the nearest one to the decimal that is written.
-/

set_option autoImplicit false
set_option relaxedAutoImplicit false

namespace Treewalk.Decimal

/-- A decimal digit. -/
def isDigit (c : Char) : Bool :=
  '0' ≤ c && c ≤ '9'

/-- The number that digits denote. -/
def digitsValue (ds : List Char) : Nat :=
  ds.foldl (fun n d ↦ 10 * n + (d.toNat - '0'.toNat)) 0

/-- Takes an optional sign off a text: whether it was a minus, and the rest. -/
def takeSign : List Char → Bool × List Char
  | '+' :: cs => (false, cs)
  | '-' :: cs => (true, cs)
  | cs => (false, cs)

/-- The natural number that a text of digits denotes. -/
def readNat? (text : List Char) : Option Nat :=
  if text ≠ [] ∧ text.all isDigit then some (digitsValue text) else none

/-- The integer that a text denotes: an optional sign and digits. -/
def readInt? (text : List Char) : Option Int :=
  let (negative, digits) := takeSign text
  (readNat? digits).map fun n ↦ if negative then -(n : Int) else n

/-- The word that a text denotes, white space at its ends left aside. -/
def readWord? (text : String) : Option Int64 :=
  (readInt? (Text.trim text.toList)).bind Word.ofInt?

/-- The float nearest to `m * 10 ^ e`. Numbers far outside the range are decided by their
magnitude. -/
def nearest (m : Nat) (e : Int) : Float :=
  let magnitude := (m.repr.length : Int) + e
  if m = 0 ∨ magnitude < -400 then Float.ofBits 0
  else if magnitude > 400 then Float.ofBits 0x7ff0000000000000
  else Float.ofScientific m (e < 0) e.natAbs

/-- The exponent at the end of a float: none, or a letter `e` with an integer after it. -/
def readExponent? : List Char → Option Int
  | [] => some 0
  | c :: cs => if c = 'e' || c = 'E' then readInt? cs else none

/-- An unsigned decimal: digits, a point and digits, one of the two may be missing, and an
exponent. -/
def readUnsigned? (text : List Char) : Option Float :=
  let whole := text.takeWhile isDigit
  let (fraction, rest) :=
    match text.dropWhile isDigit with
    | '.' :: cs => (cs.takeWhile isDigit, cs.dropWhile isDigit)
    | cs => ([], cs)
  if whole = [] ∧ fraction = [] then none
  else (readExponent? rest).map fun e ↦
    nearest (digitsValue (whole ++ fraction)) (e - fraction.length)

/-- The names of the floats that have no digits. -/
def named? (text : List Char) : Option Float :=
  let lower := text.map Char.toLower
  if lower = ['i', 'n', 'f'] ∨ lower = ['i', 'n', 'f', 'i', 'n', 'i', 't', 'y'] then
    some (Float.ofBits 0x7ff0000000000000)
  else if lower = ['n', 'a', 'n'] then some (Float.ofBits 0x7ff8000000000000)
  else none

/-- The float that a text denotes. -/
def readFloat? (text : List Char) : Option Float :=
  let (negative, rest) := takeSign text
  ((named? rest).or (readUnsigned? rest)).map fun x ↦ if negative then -x else x

/-- The float that a text denotes, white space at its ends left aside. -/
def readTrimmedFloat? (text : String) : Option Float :=
  readFloat? (Text.trim text.toList)

end Treewalk.Decimal
