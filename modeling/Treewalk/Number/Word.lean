/-!
# Exact arithmetic in 64-bit words

The integers of the language are signed 64-bit words, and an operation on them either gives the
exact result or reports that there is none. `Word.ofInt?` is the partial map from the integers; the
checked operations compute over the integers and go through it.
-/

set_option autoImplicit false
set_option relaxedAutoImplicit false

namespace Treewalk.Word

/-- An integer in the range of a signed 64-bit word. -/
def Fits (i : Int) : Prop :=
  -0x8000000000000000 ≤ i ∧ i < 0x8000000000000000

instance (i : Int) : Decidable (Fits i) :=
  inferInstanceAs (Decidable (_ ∧ _))

/-- The word that is equal to an integer, if there is one. -/
def ofInt? (i : Int) : Option Int64 :=
  if Fits i then some (Int64.ofInt i) else none

theorem fits_toInt (w : Int64) : Fits w.toInt := by
  have h₁ := w.le_toInt
  have h₂ := w.toInt_lt
  exact ⟨by omega, by omega⟩

theorem toInt_ofInt {i : Int} (h : Fits i) : (Int64.ofInt i).toInt = i :=
  Int64.toInt_ofInt_of_le (by have := h.1; omega) (by have := h.2; omega)

theorem ofInt?_eq_some_iff {i : Int} {w : Int64} : ofInt? i = some w ↔ w.toInt = i := by
  unfold ofInt?
  split
  · next h =>
    constructor
    · rintro ⟨⟩
      exact toInt_ofInt h
    · rintro rfl
      simp
  · next h =>
    constructor
    · simp
    · rintro rfl
      exact absurd (fits_toInt w) h

theorem ofInt?_eq_none_iff {i : Int} : ofInt? i = none ↔ ¬ Fits i := by
  simp [ofInt?]

/-- The sum. -/
def add? (a b : Int64) : Option Int64 := ofInt? (a.toInt + b.toInt)

/-- The difference. -/
def sub? (a b : Int64) : Option Int64 := ofInt? (a.toInt - b.toInt)

/-- The product. -/
def mul? (a b : Int64) : Option Int64 := ofInt? (a.toInt * b.toInt)

/-- The quotient, cut off towards zero. -/
def div? (a b : Int64) : Option Int64 := ofInt? (a.toInt.tdiv b.toInt)

/-- The remainder that goes with `div?`. It is refused together with the quotient. -/
def mod? (a b : Int64) : Option Int64 :=
  (div? a b).bind fun _ ↦ ofInt? (a.toInt.tmod b.toInt)

/-- The opposite. -/
def neg? (a : Int64) : Option Int64 := ofInt? (-a.toInt)

/-- The power with a natural exponent. Beyond exponent 63 only the powers of `-1`, `0` and `1` are
words, and they depend on the parity of the exponent alone. -/
def pow? (a : Int64) (n : Nat) : Option Int64 :=
  if n < 64 then ofInt? (Int.pow a.toInt n)
  else if a.toInt.natAbs ≤ 1 then ofInt? (Int.pow a.toInt (n % 2 + 2))
  else none

/-- A word as a shift amount: the numbers below the width. -/
def shiftAmount? (n : Int64) : Option Nat :=
  if 0 ≤ n.toInt ∧ n.toInt < 64 then some n.toInt.toNat else none

/-- The bits moved up; those that leave the word are dropped. -/
def shiftLeft (a : Int64) (n : Nat) : Int64 :=
  ⟨⟨a.toBitVec <<< n⟩⟩

/-- The bits moved down, with copies of the sign coming in. -/
def shiftRight (a : Int64) (n : Nat) : Int64 :=
  ⟨⟨a.toBitVec.sshiftRight n⟩⟩

/-- The bits moved down, with zeros coming in. -/
def unsignedShiftRight (a : Int64) (n : Nat) : Int64 :=
  ⟨⟨a.toBitVec >>> n⟩⟩

/-- A count as a word; one beyond the range becomes the largest word. -/
def ofCount (n : Nat) : Int64 :=
  (ofInt? n).getD Int64.maxValue

/-- The place that an index denotes in a sequence of the given length. -/
def slot? (i : Int64) (length : Nat) : Option Nat :=
  if 0 ≤ i.toInt ∧ i.toInt < length then some i.toInt.toNat else none

/-- A slice bound moved into the range from zero to the given length. -/
def clamp (i : Int64) (length : Nat) : Nat :=
  min i.toInt.toNat length

/-- Decimal digits, after a minus sign if the word is negative. -/
def text (w : Int64) : String :=
  match w.toInt with
  | .ofNat n => n.repr
  | .negSucc n => "-" ++ (n + 1).repr

end Treewalk.Word
