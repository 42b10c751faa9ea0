import Mathlib.Algebra.Ring.Int.Parity
import Treewalk.Eval.Operator

/-!
# Operators on integers are exact

The operators on integers are computed in words of 64 bits. Here they are compared with arithmetic
on unbounded integers: a sum, a difference, a product or a quotient is the exact one if it is a word
and is reported as an overflow if it is none (`Eval.Yields`), a remainder and a power that are given
are the exact ones, and a shift multiplies or divides by a power of two. Bits are those of the two's
complement form of a word, which is a natural number (`Word.form`).
-/

set_option autoImplicit false
set_option relaxedAutoImplicit false

namespace Treewalk

/-! ### Words as bits -/

namespace Word

/-- The two's complement form of a word: the number that its bits spell. -/
def form (w : Int64) : Nat :=
  (w.toInt % 0x10000000000000000).toNat

theorem form_eq (w : Int64) : form w = w.toBitVec.toNat := by
  have h := BitVec.toNat_ofInt (n := 64) w.toInt
  rw [← Int64.toInt_toBitVec, BitVec.ofInt_toInt] at h
  rw [form, h, Int64.toInt_toBitVec]
  rfl

theorem natCast_form (w : Int64) : (form w : Int) = w.toInt % 0x10000000000000000 :=
  Int.toNat_of_nonneg (Int.emod_nonneg _ (by decide))

theorem bmod_form (w : Int64) : (form w : Int).bmod 0x10000000000000000 = w.toInt := by
  rw [form_eq, ← Int64.toInt_toBitVec]
  exact (BitVec.toInt_eq_toNat_bmod w.toBitVec).symm

theorem form_and (a b : Int64) : form (a &&& b) = form a &&& form b := by
  simp only [form_eq, Int64.toBitVec_and, BitVec.toNat_and]

theorem form_or (a b : Int64) : form (a ||| b) = form a ||| form b := by
  simp only [form_eq, Int64.toBitVec_or, BitVec.toNat_or]

theorem form_xor (a b : Int64) : form (a ^^^ b) = form a ^^^ form b := by
  simp only [form_eq, Int64.toBitVec_xor, BitVec.toNat_xor]

/-! ### Shifts -/

theorem form_shiftLeft (a : Int64) (n : Nat) :
    form (shiftLeft a n) = form a * 2 ^ n % 0x10000000000000000 := by
  have hbits : (shiftLeft a n).toBitVec = a.toBitVec <<< n := rfl
  rw [form_eq, form_eq, hbits, BitVec.toNat_shiftLeft, Nat.shiftLeft_eq]

theorem form_unsignedShiftRight (a : Int64) (n : Nat) :
    form (unsignedShiftRight a n) = form a / 2 ^ n := by
  have hbits : (unsignedShiftRight a n).toBitVec = a.toBitVec >>> n := rfl
  rw [form_eq, form_eq, hbits, BitVec.toNat_ushiftRight, Nat.shiftRight_eq_div_pow]

/-- Moving the bits up multiplies, and the result is cut down to a word. -/
theorem toInt_shiftLeft (a : Int64) (n : Nat) :
    (shiftLeft a n).toInt = (a.toInt * 2 ^ n).bmod 0x10000000000000000 := by
  calc (shiftLeft a n).toInt
      = (form (shiftLeft a n) : Int).bmod 0x10000000000000000 := (bmod_form _).symm
    _ = (((form a * 2 ^ n : Nat) : Int) % (0x10000000000000000 : Nat)).bmod
          0x10000000000000000 := by
        rw [form_shiftLeft, Int.natCast_emod]
    _ = ((form a : Int) * 2 ^ n).bmod 0x10000000000000000 := by
        rw [Int.emod_bmod]
        push_cast
        rfl
    _ = (a.toInt * 2 ^ n).bmod 0x10000000000000000 := by
        rw [natCast_form]
        exact Int.emod_mul_bmod a.toInt 0x10000000000000000

/-- Moving the bits down with copies of the sign divides and rounds down. -/
theorem toInt_shiftRight (a : Int64) (n : Nat) : (shiftRight a n).toInt = a.toInt / 2 ^ n := by
  have hbits : (shiftRight a n).toBitVec = a.toBitVec.sshiftRight n := rfl
  rw [← Int64.toInt_toBitVec, hbits, BitVec.toInt_sshiftRight, Int64.toInt_toBitVec,
    Int.shiftRight_eq_div_pow]
  push_cast
  rfl

/-- Moving the bits down with zeros divides the two's complement form. -/
theorem toInt_unsignedShiftRight (a : Int64) (n : Nat) :
    (unsignedShiftRight a n).toInt =
      (a.toInt % 0x10000000000000000 / 2 ^ n).bmod 0x10000000000000000 := by
  rw [← bmod_form, form_unsignedShiftRight, Int.natCast_div, natCast_form]
  push_cast
  rfl

/-! ### Powers -/

/-- From the square on, the powers of `-1`, `0` and `1` depend on the parity of the exponent
alone. -/
theorem pow_mod_two_add_two {i : Int} (hi : i.natAbs ≤ 1) {n : Nat} (hn : 0 < n) :
    i ^ (n % 2 + 2) = i ^ n := by
  obtain rfl | rfl | rfl : i = -1 ∨ i = 0 ∨ i = 1 := by omega
  · rw [pow_add, neg_one_sq, mul_one, ← neg_one_pow_eq_pow_mod_two]
  · rw [zero_pow (by omega), zero_pow (by omega)]
  · rw [one_pow, one_pow]

/-- A power that is given is the exact one. -/
theorem toInt_of_pow? {a r : Int64} {n : Nat} (h : pow? a n = some r) : r.toInt = a.toInt ^ n := by
  unfold pow? at h
  split at h
  · exact ofInt?_eq_some_iff.mp h
  · next hn =>
    split at h
    · next ha =>
      rw [ofInt?_eq_some_iff.mp h]
      exact pow_mod_two_add_two ha (by omega)
    · cases h

end Word

namespace Eval

variable {operator : BinaryOperator} {a b : Int64} {i : Int}

/-- The operator gives the exact result `i` if it is a word, and reports an overflow with its
operands if it is none. -/
def Yields (operator : BinaryOperator) (a b : Int64) (i : Int) : Prop :=
  if Word.Fits i then ∃ r : Int64, integerBinary operator a b = .ok (.int r) ∧ r.toInt = i
  else integerBinary operator a b = .error (.integerOverflow a operator b)

/-- The shift gives the integer `i` if its amount is one of the 64 that there are, and refuses the
amount otherwise. -/
def Shifts (operator : BinaryOperator) (a b : Int64) (i : Int) : Prop :=
  if 0 ≤ b.toInt ∧ b.toInt ≤ 63 then
    ∃ r : Int64, integerBinary operator a b = .ok (.int r) ∧ r.toInt = i
  else integerBinary operator a b = .error (.invalidShift b)

theorem yields_of_eq
    (h : integerBinary operator a b =
      match Word.ofInt? i with
      | some r => .ok (.int r)
      | none => .error (.integerOverflow a operator b)) : Yields operator a b i := by
  unfold Yields
  rw [h]
  split
  · next hi =>
    rw [Word.ofInt?, if_pos hi]
    exact ⟨Int64.ofInt i, rfl, Word.toInt_ofInt hi⟩
  · next hi => rw [Word.ofInt?, if_neg hi]

theorem shifts_of_eq {move : Int64 → Nat → Int64}
    (h : integerBinary operator a b = (shiftAmount b).map fun n ↦ .int (move a n))
    (hmove : (move a b.toInt.toNat).toInt = i) : Shifts operator a b i := by
  unfold Shifts
  rw [h, shiftAmount]
  split
  · next hb =>
    rw [Word.shiftAmount?, if_pos (by omega)]
    exact ⟨move a b.toInt.toNat, rfl, hmove⟩
  · next hb =>
    rw [Word.shiftAmount?, if_neg (by omega)]
    rfl

/-! ### Division -/

theorem yields_div (hb : b ≠ 0) : Yields .div a b (a.toInt.tdiv b.toInt) := by
  refine yields_of_eq ?_
  simp only [integerBinary, if_neg hb]
  rfl

/-- Only a zero divisor is reported as one. -/
theorem integerBinary_eq_divisionByZero_iff (ho : operator = .div ∨ operator = .mod) :
    integerBinary operator a b = .error .divisionByZero ↔ b = 0 := by
  constructor
  · intro h
    by_contra hb
    -- What is computed for another divisor is a number or an overflow.
    rcases ho with rfl | rfl
    all_goals
      simp only [integerBinary, if_neg hb] at h
      split at h <;> cases h
  · rintro rfl
    rcases ho with rfl | rfl <;> rfl

/-- A remainder that is given goes with the quotient that is cut off towards zero. -/
theorem tmod_of_integerBinary {r : Int64} (h : integerBinary .mod a b = .ok (.int r)) :
    b ≠ 0 ∧ r.toInt = a.toInt.tmod b.toInt := by
  by_cases hb : b = 0
  · simp [integerBinary, hb] at h
  · simp only [integerBinary, if_neg hb] at h
    split at h
    · next s hs =>
      obtain ⟨q, -, hr⟩ := Option.bind_eq_some_iff.mp hs
      cases h
      exact ⟨hb, Word.ofInt?_eq_some_iff.mp hr⟩
    · cases h

theorem pow_of_integerBinary {r : Int64} (hb : 0 ≤ b.toInt)
    (h : integerBinary .pow a b = .ok (.int r)) : r.toInt = a.toInt ^ b.toInt.toNat := by
  simp only [integerBinary, integerPower, if_neg (Int.not_lt.mpr hb)] at h
  split at h
  · split at h
    · next s hs =>
      cases h
      exact Word.toInt_of_pow? hs
    · cases h
  · cases h

/-! ### All operators -/

/-- Every operator on integers that computes an integer computes the exact one. Sums, differences,
products and quotients are exact or reported, remainders and powers are exact where they are given,
shifts multiply and divide by powers of two, and the operators on bits work on the two's complement
forms. -/
theorem integerBinary_exact (a b : Int64) :
    Yields .add a b (a.toInt + b.toInt) ∧
    Yields .sub a b (a.toInt - b.toInt) ∧
    Yields .mul a b (a.toInt * b.toInt) ∧
    (b ≠ 0 → Yields .div a b (a.toInt.tdiv b.toInt)) ∧
    (integerBinary .div a b = .error .divisionByZero ↔ b = 0) ∧
    (integerBinary .mod a b = .error .divisionByZero ↔ b = 0) ∧
    (∀ r : Int64, integerBinary .mod a b = .ok (.int r) →
      a.toInt = a.toInt.tdiv b.toInt * b.toInt + r.toInt ∧
        r.toInt.natAbs < b.toInt.natAbs ∧ (r.toInt = 0 ∨ r.toInt.sign = a.toInt.sign)) ∧
    (∀ r : Int64, 0 ≤ b.toInt → integerBinary .pow a b = .ok (.int r) →
      r.toInt = a.toInt ^ b.toInt.toNat) ∧
    Shifts .shiftLeft a b ((a.toInt * 2 ^ b.toInt.toNat).bmod 0x10000000000000000) ∧
    Shifts .shiftRight a b (a.toInt / 2 ^ b.toInt.toNat) ∧
    Shifts .unsignedShiftRight a b
      ((a.toInt % 0x10000000000000000 / 2 ^ b.toInt.toNat).bmod 0x10000000000000000) ∧
    (∃ r : Int64, integerBinary .bitAnd a b = .ok (.int r) ∧
      Word.form r = Word.form a &&& Word.form b) ∧
    (∃ r : Int64, integerBinary .bitOr a b = .ok (.int r) ∧
      Word.form r = Word.form a ||| Word.form b) ∧
    ∃ r : Int64, integerBinary .bitXor a b = .ok (.int r) ∧
      Word.form r = Word.form a ^^^ Word.form b := by
  refine ⟨yields_of_eq rfl, yields_of_eq rfl, yields_of_eq rfl, yields_div,
    integerBinary_eq_divisionByZero_iff (.inl rfl), integerBinary_eq_divisionByZero_iff (.inr rfl),
    fun r hr ↦ ?_, fun r hb hr ↦ pow_of_integerBinary hb hr,
    shifts_of_eq rfl (Word.toInt_shiftLeft a _), shifts_of_eq rfl (Word.toInt_shiftRight a _),
    shifts_of_eq rfl (Word.toInt_unsignedShiftRight a _), ⟨a &&& b, rfl, Word.form_and a b⟩,
    ⟨a ||| b, rfl, Word.form_or a b⟩, ⟨a ^^^ b, rfl, Word.form_xor a b⟩⟩
  obtain ⟨hb, hrem⟩ := tmod_of_integerBinary hr
  have hdivisor : b.toInt ≠ 0 := by
    intro h
    exact hb (Int64.toInt_inj.mp h)
  rw [hrem]
  refine ⟨?_, ?_, ?_⟩
  · rw [Int.mul_comm]
    exact (Int.mul_tdiv_add_tmod a.toInt b.toInt).symm
  · rw [Int.natAbs_tmod]
    exact Nat.mod_lt _ (Int.natAbs_pos.mpr hdivisor)
  · by_cases hdvd : b.toInt ∣ a.toInt
    · exact .inl (Int.tmod_eq_zero_of_dvd hdvd)
    · right
      rw [Int.sign_tmod, if_neg hdvd]

end Eval

end Treewalk
