import Treewalk.Proofs.Eval.Integers

/-!
# When an overflow is reported

A remainder and a power are refused by tests that are not about the result itself: a remainder
together with its quotient, and a power as soon as the exponent has more than 32 bits. Both results
may be words all the same. A remainder always is one, and so is every power of `-1`, `0` and `1`.

`Eval.integerBinary_overflows` says exactly for which operands an overflow is reported only if there
is one: all but the smallest word and `-1` for a remainder, and all but these three bases with an
exponent of more than 32 bits for a power. `Eval.overflow_of_fits` has operands of both kinds for
which an overflow is reported and the result is a word.
-/

set_option autoImplicit false
set_option relaxedAutoImplicit false

namespace Treewalk

namespace Word

variable {i j : Int} {n : Nat}

/-! ### Quotients and remainders -/

theorem fits_of_natAbs_le (h : i.natAbs ≤ 0x7fffffffffffffff) : Fits i := by
  unfold Fits
  omega

theorem fits_tmod (hi : Fits i) (j : Int) : Fits (i.tmod j) := by
  have hle : (i.tmod j).natAbs ≤ i.natAbs := by
    rw [Int.natAbs_tmod]
    exact Nat.mod_le _ _
  have hnonneg : 0 ≤ i → 0 ≤ i.tmod j := Int.tmod_nonneg j
  have hnonpos : i ≤ 0 → i.tmod j ≤ 0 := by
    intro h
    have hneg := Int.tmod_nonneg j (Int.neg_nonneg_of_nonpos h)
    rw [Int.neg_tmod] at hneg
    omega
  unfold Fits at hi ⊢
  omega

/-- The quotient of the smallest word by `-1` is the only one that is no word. -/
theorem fits_tdiv_iff (hi : Fits i) :
    Fits (i.tdiv j) ↔ ¬ (i = -0x8000000000000000 ∧ j = -1) := by
  constructor
  · rintro hquotient ⟨rfl, rfl⟩
    exact absurd hquotient (by decide)
  · intro hne
    obtain rfl | rfl | hj : j = 1 ∨ j = -1 ∨ j.natAbs ≠ 1 := by omega
    · rwa [Int.tdiv_one]
    · rw [Int.tdiv_neg, Int.tdiv_one]
      unfold Fits at hi ⊢
      omega
    · have hhalf : (i.tdiv j).natAbs ≤ i.natAbs / 2 := by
        rw [Int.natAbs_tdiv]
        change i.natAbs / j.natAbs ≤ i.natAbs / 2
        obtain hj | hj : j.natAbs = 0 ∨ 2 ≤ j.natAbs := by omega
        · rw [hj, Nat.div_zero]
          exact Nat.zero_le _
        · exact Nat.div_le_div_left hj (by decide)
      unfold Fits at hi
      exact fits_of_natAbs_le (by omega)

/-! ### Powers -/

theorem fits_pow_of_natAbs_le_one (hi : i.natAbs ≤ 1) (n : Nat) : Fits (i ^ n) := by
  refine fits_of_natAbs_le ?_
  rw [Int.natAbs_pow]
  calc i.natAbs ^ n ≤ 1 ^ n := Nat.pow_le_pow_left hi n
    _ ≤ 0x7fffffffffffffff := by rw [Nat.one_pow]; decide

theorem not_fits_pow (hi : 2 ≤ i.natAbs) (hn : 64 ≤ n) : ¬ Fits (i ^ n) := by
  intro hfits
  have hlarge : 0x10000000000000000 ≤ (i ^ n).natAbs := by
    rw [Int.natAbs_pow]
    calc 0x10000000000000000 = 2 ^ 64 := by decide
      _ ≤ 2 ^ n := Nat.pow_le_pow_right (by decide) hn
      _ ≤ i.natAbs ^ n := Nat.pow_le_pow_left hi n
  unfold Fits at hfits
  omega

/-- A power with a large exponent is a word for three bases only. -/
theorem fits_pow_iff (hn : 64 ≤ n) : Fits (i ^ n) ↔ i.natAbs ≤ 1 := by
  constructor
  · intro hfits
    by_contra hi
    exact not_fits_pow (by omega) hn hfits
  · exact fun hi ↦ fits_pow_of_natAbs_le_one hi n

/-- A power is computed if it is a word, and refused if it is none. -/
theorem pow?_eq (a : Int64) (n : Nat) : pow? a n = ofInt? (a.toInt ^ n) := by
  unfold pow?
  split
  · rfl
  · next hn =>
    split
    · next ha =>
      rw [← pow_mod_two_add_two ha (by omega)]
      rfl
    · next ha => exact (ofInt?_eq_none_iff.mpr (not_fits_pow (by omega) (by omega))).symm

end Word

namespace Eval

variable {operator : BinaryOperator} {a b : Int64} {i : Int}

/-- Where an overflow is reported, the exact result must be no word. -/
theorem yields_iff_of_overflow
    (h : integerBinary operator a b = .error (.integerOverflow a operator b)) :
    Yields operator a b i ↔ ¬ Word.Fits i := by
  unfold Yields
  rw [h]
  split
  · next hi => simp [hi]
  · next hi => simp [hi]

/-! ### Remainders -/

theorem integerBinary_mod (hb : b ≠ 0) :
    integerBinary .mod a b =
      match Word.mod? a b with
      | some r => .ok (.int r)
      | none => .error (.integerOverflow a .mod b) :=
  if_neg hb

theorem yields_mod_iff (hb : b ≠ 0) :
    Yields .mod a b (a.toInt.tmod b.toInt) ↔ ¬ (a = Int64.minValue ∧ b = -1) := by
  have hmin : a = Int64.minValue ∧ b = -1 ↔
      a.toInt = -0x8000000000000000 ∧ b.toInt = -1 := by
    rw [← Int64.toInt_inj, ← Int64.toInt_inj]
    exact Iff.rfl
  rw [hmin, ← Word.fits_tdiv_iff (Word.fits_toInt a)]
  constructor
  · intro hyields
    by_contra hquotient
    -- The quotient is refused, and the remainder with it, though it is a word.
    have hoverflow : integerBinary .mod a b = .error (.integerOverflow a .mod b) := by
      rw [integerBinary_mod hb, Word.mod?, Word.div?, Word.ofInt?_eq_none_iff.mpr hquotient]
      rfl
    exact (yields_iff_of_overflow hoverflow).mp hyields (Word.fits_tmod (Word.fits_toInt a) _)
  · intro hquotient
    refine yields_of_eq ?_
    rw [integerBinary_mod hb, Word.mod?, Word.div?, Word.ofInt?, if_pos hquotient]
    rfl

/-! ### Powers -/

theorem yields_pow_iff (hb : 0 ≤ b.toInt) :
    Yields .pow a b (a.toInt ^ b.toInt.toNat) ↔
      (a.toInt.natAbs ≤ 1 → b.toInt < 0x100000000) := by
  by_cases hsmall : b.toInt < 0x100000000
  · refine iff_of_true (yields_of_eq ?_) fun _ ↦ hsmall
    rw [← Word.pow?_eq]
    exact (if_neg (Int.not_lt.mpr hb)).trans (if_pos hsmall)
  · have hoverflow : integerBinary .pow a b = .error (.integerOverflow a .pow b) := by
      simp only [integerBinary, integerPower, if_neg (Int.not_lt.mpr hb), if_neg hsmall]
    rw [yields_iff_of_overflow hoverflow, Word.fits_pow_iff (by omega)]
    exact ⟨fun hbase h ↦ absurd h hbase, fun h hbase ↦ hsmall (h hbase)⟩

/-! ### Overflows that are reported -/

/-- A remainder is exact, and a power with a natural exponent is exact or reported as an overflow
because it is no word, for these operands and for no others: a remainder for all but the smallest
word and `-1`, a power for all but the bases `-1`, `0` and `1` with an exponent from `2 ^ 32` on. -/
theorem integerBinary_overflows (a b : Int64) :
    (b ≠ 0 →
      (Yields .mod a b (a.toInt.tmod b.toInt) ↔ ¬ (a = Int64.minValue ∧ b = -1))) ∧
    (0 ≤ b.toInt →
      (Yields .pow a b (a.toInt ^ b.toInt.toNat) ↔
        (a.toInt.natAbs ≤ 1 → b.toInt < 0x100000000))) :=
  ⟨yields_mod_iff, yields_pow_iff⟩

/-- Overflows that are reported though the result is a word: the remainder of the smallest word by
`-1`, and a power of `1`. -/
theorem overflow_of_fits :
    (integerBinary .mod Int64.minValue (-1) =
        .error (.integerOverflow Int64.minValue .mod (-1)) ∧
      Word.Fits (Int64.minValue.toInt.tmod (-1))) ∧
    integerBinary .pow 1 0x100000000 = .error (.integerOverflow 1 .pow 0x100000000) ∧
      Word.Fits (1 ^ 0x100000000) := by
  refine ⟨⟨by rfl, by decide⟩, by rfl, ?_⟩
  rw [one_pow]
  decide

end Eval

end Treewalk
