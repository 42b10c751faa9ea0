import Treewalk.Proofs.Eval.Framing

/-!
# Ranges are intervals

The length of a range is counted in words: a difference and, if the end belongs to the range, a sum,
each of which may be missing. Here it is compared with the count over the unbounded integers
(`RangeBound.count`). Where the two bounds are in order, the count in words is missing only where
the exact one is far beyond the limit (`Eval.rangeLength?_eq`), so a missing count is rightly taken
for one that is too large. What a range has for its elements are words from the first bound on, and
none of the sums that give them leaves the words (`Eval.interval_eq_ok`).
-/

set_option autoImplicit false
set_option relaxedAutoImplicit false

namespace Treewalk

/-- How many integers there are from `a` to `b`, with the end or without. -/
def RangeBound.count (sort : RangeBound) (a b : Int) : Int :=
  match sort with
  | .inclusive => max 0 (b - a + 1)
  | .exclusive => max 0 (b - a)

theorem RangeBound.count_eq_zero {a b : Int} (h : b < a) (sort : RangeBound) :
    sort.count a b = 0 := by
  cases sort <;> simp only [count] <;> omega

theorem RangeBound.count_of_le {a b : Int} (h : a ≤ b) (sort : RangeBound) :
    sort.count a b = b - a + sort.extra.toInt := by
  cases sort with
  | inclusive =>
    have hextra : RangeBound.inclusive.extra.toInt = 1 := by decide
    simp only [count, hextra]
    omega
  | exclusive =>
    have hextra : RangeBound.exclusive.extra.toInt = 0 := by decide
    simp only [count, hextra]
    omega

theorem RangeBound.count_nonneg (sort : RangeBound) (a b : Int) : 0 ≤ sort.count a b := by
  cases sort <;> simp only [count] <;> omega

/-- The last integer of a range is not beyond its end. -/
theorem RangeBound.add_count_le {a b : Int} (h : a ≤ b) (sort : RangeBound) :
    a + sort.count a b ≤ b + 1 := by
  cases sort <;> simp only [count] <;> omega

/-- A sum of words that is a word is computed exactly. -/
theorem Word.toInt_add_ofNat {a : Int64} {i : Nat} (hi : Word.Fits i)
    (h : Word.Fits (a.toInt + i)) : (a + Int64.ofNat i).toInt = a.toInt + i := by
  obtain ⟨hlow, hhigh⟩ := h
  rw [Int64.toInt_add, Int64.toInt_ofNat_of_lt (by unfold Word.Fits at hi; omega)]
  exact Int.bmod_eq_of_le_mul_two (by omega) (by omega)

namespace Eval

variable {sort : RangeBound} {a b : Int64}

/-- Between bounds in order, the count in words is the exact one, and it is missing where that is no
word. -/
theorem rangeLength?_eq (h : a.toInt ≤ b.toInt) :
    rangeLength? sort a b = Word.ofInt? (sort.count a.toInt b.toInt) := by
  rw [sort.count_of_le h, rangeLength?, Word.sub?]
  have hextra : 0 ≤ sort.extra.toInt := by cases sort <;> decide
  by_cases hspan : Word.Fits (b.toInt - a.toInt)
  · rw [Word.ofInt?, if_pos hspan, Option.bind_some, Word.add?, Word.toInt_ofInt hspan]
  · -- The difference is not negative, so it is too large, and so is the sum.
    have hsum : ¬ Word.Fits (b.toInt - a.toInt + sort.extra.toInt) := by
      unfold Word.Fits at hspan ⊢
      omega
    rw [Word.ofInt?_eq_none_iff.mpr hspan, Word.ofInt?_eq_none_iff.mpr hsum, Option.bind_none]

/-- Between bounds in order, a range is refused exactly if it is too large. -/
theorem interval_of_le (h : a.toInt ≤ b.toInt) :
    interval sort a b =
      if 10000000 < sort.count a.toInt b.toInt then .error (.rangeTooLarge a b)
      else .ok ((Array.range (sort.count a.toInt b.toInt).toNat).map fun (i : Nat) ↦
        a + Int64.ofNat i) := by
  have hnot : ¬ b < a := by
    rw [Int64.lt_iff_toInt_lt]
    omega
  rw [interval, if_neg hnot, rangeLength?_eq h]
  by_cases hfits : Word.Fits (sort.count a.toInt b.toInt)
  · rw [Word.ofInt?, if_pos hfits]
    dsimp only
    rw [Word.toInt_ofInt hfits]
    rfl
  · -- A count that is no word is missing, which is reported as one beyond the limit.
    have hlarge : 10000000 < sort.count a.toInt b.toInt := by
      have hnonneg := sort.count_nonneg a.toInt b.toInt
      unfold Word.Fits at hfits
      omega
    rw [Word.ofInt?_eq_none_iff.mpr hfits, if_pos hlarge]

theorem interval_of_lt (h : b.toInt < a.toInt) : interval sort a b = .ok #[] := by
  rw [interval, if_pos (Int64.lt_iff_toInt_lt.mpr h)]

theorem interval_eq_error (h : 10000000 < sort.count a.toInt b.toInt) :
    interval sort a b = .error (.rangeTooLarge a b) := by
  by_cases hlt : b.toInt < a.toInt
  · rw [sort.count_eq_zero hlt] at h
    omega
  · rw [interval_of_le (by omega), if_pos h]

/-- A range that is not too large has the integers between its bounds for its elements. -/
theorem interval_eq_ok (h : sort.count a.toInt b.toInt ≤ 10000000) :
    ∃ words : Array Int64, interval sort a b = .ok words ∧
      (words.size : Int) = sort.count a.toInt b.toInt ∧
      ∀ i : Nat, i < words.size → ∃ w : Int64, words[i]? = some w ∧ w.toInt = a.toInt + i := by
  by_cases hlt : b.toInt < a.toInt
  · exact ⟨#[], interval_of_lt hlt, by rw [sort.count_eq_zero hlt]; rfl,
      fun i hi ↦ absurd hi (Nat.not_lt_zero i)⟩
  · have hle : a.toInt ≤ b.toInt := by omega
    have hnonneg := sort.count_nonneg a.toInt b.toInt
    refine ⟨_, by rw [interval_of_le hle, if_neg (by omega)], ?_, fun i hi ↦ ?_⟩
    · rw [Array.size_map, Array.size_range]
      omega
    · rw [Array.size_map, Array.size_range] at hi
      -- The element is not beyond the second bound, so it is a word.
      have hlast := sort.add_count_le hle
      have hlow := (Word.fits_toInt a).1
      have hhigh := (Word.fits_toInt b).2
      have hfits : Word.Fits (a.toInt + i) := ⟨by omega, by omega⟩
      have hoffset : Word.Fits (i : Int) := ⟨by omega, by omega⟩
      refine ⟨a + Int64.ofNat i, ?_, Word.toInt_add_ofNat hoffset hfits⟩
      rw [Array.getElem?_map, Array.getElem?_range, if_pos hi]
      rfl

theorem range_of_error {e : RuntimeError} (h : interval sort a b = .error e) (s : Store) :
    range sort (.int a) (.int b) s = .error (.failed e) s := by
  rw [range, run_bind, h]
  rfl

theorem range_of_ok {words : Array Int64} (h : interval sort a b = .ok words) (s : Store) :
    range sort (.int a) (.int b) s =
      .ok (.array ⟨s.cells.size⟩) (s.allocate (.array (words.map Value.int))).2 := by
  rw [range, run_bind, h]
  rfl

/-- A range between values that are not both integers is refused. -/
theorem range_of_kind {start stop : Value} (h : start.kind ≠ .integer ∨ stop.kind ≠ .integer)
    (sort : RangeBound) (s : Store) :
    range sort start stop s = .error (.failed (.invalidRange start.kind stop.kind)) s := by
  unfold range
  split
  · simp [Value.kind] at h
  · rfl

/-- A range between two integers is refused exactly if more than ten million integers lie between
them, counted without bounds. Any other range is a new array, all that is new, and its elements are
these integers from the first on. Bounds that are not both integers are refused by their kinds. -/
theorem range_exact (sort : RangeBound) (s : Store) :
    (∀ a b : Int64,
      (range sort (.int a) (.int b) s = .error (.failed (.rangeTooLarge a b)) s ↔
        10000000 < sort.count a.toInt b.toInt) ∧
      (sort.count a.toInt b.toInt ≤ 10000000 → ∃ (id : CellId) (xs : Array Value) (t : Store),
        range sort (.int a) (.int b) s = .ok (.array id) t ∧
        s.allocate (.array xs) = (id, t) ∧ (s.Sound → s.NewArray t id) ∧
        t.elements id = xs ∧ (xs.size : Int) = sort.count a.toInt b.toInt ∧
        ∀ i : Nat, i < xs.size →
          ∃ w : Int64, xs[i]? = some (.int w) ∧ w.toInt = a.toInt + i)) ∧
    ∀ start stop : Value, start.kind ≠ .integer ∨ stop.kind ≠ .integer →
      range sort start stop s = .error (.failed (.invalidRange start.kind stop.kind)) s := by
  refine ⟨fun a b ↦ ⟨⟨fun h ↦ ?_, fun h ↦ ?_⟩, fun h ↦ ?_⟩, fun start stop h ↦ ?_⟩
  · refine Int.not_le.mp fun hle ↦ ?_
    obtain ⟨words, hwords, -⟩ := interval_eq_ok hle
    cases h.symm.trans (range_of_ok hwords s)
  · exact range_of_error (interval_eq_error h) s
  · obtain ⟨words, hwords, hsize, hget⟩ := interval_eq_ok h
    have hrange := range_of_ok hwords s
    refine ⟨_, words.map Value.int, _, hrange, rfl, fun hs ↦ ?_, ?_, ?_, fun i hi ↦ ?_⟩
    · exact (builds_range s.has_of_scalar sort (.int a) (.int b)).newArray hs hrange
    · exact Store.elements_of_cell (s.cell_allocate_new _)
    · rw [Array.size_map, hsize]
    · rw [Array.size_map] at hi
      obtain ⟨w, hw, hvalue⟩ := hget i hi
      exact ⟨w, by rw [Array.getElem?_map, hw]; rfl, hvalue⟩
  · exact range_of_kind h sort s

end Eval

end Treewalk
