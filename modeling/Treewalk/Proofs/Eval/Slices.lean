import Treewalk.Builtin.Call
import Treewalk.Proofs.Eval.Assignment

/-!
# Slices, elements and lengths

Arrays and strings are sequences of parts: the elements of an array, or the characters of a string,
each as a string of its own (`Store.parts`). Every operation on sequences has a rule in terms of the
parts, the same for arrays and strings: a length counts them (`Builtin.len_eq`), an index takes one
of them (`Eval.index_eq`), a slice is what lies between two places among them (`Eval.gives_slice`),
and a sum puts those of both operands together (`Eval.gives_add`). The bounds of a slice and an
index are words; those out of range are moved into it in one case and give `null` in the other. That
the operations agree with each other is then a matter of lists.

A slice or a sum of arrays makes an array, so the parts are those in the store at hand. The
sequences that were there before keep their parts (`Store.Keeps`).
-/

set_option autoImplicit false
set_option relaxedAutoImplicit false

namespace Treewalk

namespace Store

/-- An array that is in the store, or a string. -/
inductive IsSequence (s : Store) : Value → Prop where
  | array {id : CellId} {xs : Array Value} :
      s.cells[id.index]? = some (.array xs) → IsSequence s (.array id)
  | str (text : String) : IsSequence s (.str text)

/-- The parts of a sequence: the elements of an array, or the characters of a string. -/
def parts (s : Store) : Value → List Value
  | .array id => (s.elements id).toList
  | .str text => text.toList.map fun c ↦ .str (String.singleton c)
  | _ => []

/-- The sequences of the store `s` have the same parts in the store `t`. -/
def Keeps (s t : Store) : Prop :=
  ∀ v : Value, s.IsSequence v → t.IsSequence v ∧ t.parts v = s.parts v

variable {s t u : Store} {v w : Value}

theorem Keeps.refl (s : Store) : s.Keeps s :=
  fun _ hv ↦ ⟨hv, rfl⟩

theorem Keeps.trans (h : s.Keeps t) (h' : t.Keeps u) : s.Keeps u := by
  intro v hv
  obtain ⟨ht, hparts⟩ := h v hv
  obtain ⟨hu, hparts'⟩ := h' v ht
  exact ⟨hu, hparts'.trans hparts⟩

theorem keeps_allocate (s : Store) (cell : Cell) : s.Keeps (s.allocate cell).2 := by
  intro v hv
  cases hv with
  | array hid =>
    have hid' : (s.allocate cell).2.cells[_]? = some _ := cell_allocate hid
    refine ⟨.array hid', ?_⟩
    rw [parts, parts, elements_of_cell hid', elements_of_cell hid]
  | str text => exact ⟨.str text, rfl⟩

end Store

/-- Started in the state `s`, the computation gives a result, and `Q` holds of it and of the state
that is left. -/
def Succeeds {ε σ α : Type} (m : EStateM ε σ α) (s : σ) (Q : α → σ → Prop) : Prop :=
  Ensures m s Q fun _ _ ↦ False

theorem Succeeds.bind {ε σ α β : Type} {m : EStateM ε σ α} {f : α → EStateM ε σ β} {s : σ}
    {R : α → σ → Prop} {Q : β → σ → Prop} (hm : Succeeds m s R)
    (hf : ∀ (a : α) (t : σ), R a t → Succeeds (f a) t Q) : Succeeds (m >>= f) s Q :=
  ensures_bind.mpr (hm.imp hf fun _ _ h ↦ h)

/-- The computation gives a sequence of a kind with certain parts, and the sequences that were there
keep theirs. -/
def GivesSequence (m : Eval Value) (s : Store) (kind : ValueKind) (parts : List Value) : Prop :=
  Succeeds m s fun v t ↦ t.IsSequence v ∧ v.kind = kind ∧ s.Keeps t ∧ t.parts v = parts

/-! ### Words as places -/

namespace Word

/-- The place of a bound in a sequence of `n` parts: the integer, moved into the range from zero to
`n`. -/
def place (n : Nat) (i : Int64) : Int :=
  max 0 (min i.toInt n)

theorem natCast_clamp (i : Int64) (n : Nat) : (clamp i n : Int) = place n i := by
  unfold clamp place
  omega

theorem clamp_mono {i j : Int64} (h : i ≤ j) (n : Nat) : clamp i n ≤ clamp j n := by
  rw [Int64.le_iff_toInt_le] at h
  unfold clamp
  omega

theorem clamp_le (i : Int64) (n : Nat) : clamp i n ≤ n :=
  Nat.min_le_right _ _

theorem clamp_of_toInt_eq {i : Int64} {n : Nat} (h : i.toInt = n) : clamp i n = n := by
  unfold clamp
  omega

theorem slot?_of_lt {i : Int64} {n : Nat} (h : 0 ≤ i.toInt) (h' : i.toInt < n) :
    slot? i n = some i.toInt.toNat :=
  if_pos ⟨h, h'⟩

theorem slot?_of_not_lt {i : Int64} {n : Nat} (h : ¬ (0 ≤ i.toInt ∧ i.toInt < n)) :
    slot? i n = none :=
  if_neg h

theorem toInt_ofCount {n : Nat} (h : Fits n) : (ofCount n).toInt = n := by
  rw [ofCount, ofInt?, if_pos h, Option.getD_some, toInt_ofInt h]

end Word

/-! ### Rules in terms of the parts -/

section Rules

variable {s : Store} {t u : Value}

theorem Builtin.len_eq (ht : s.IsSequence t) :
    Builtin.len t s = .ok (.int (Word.ofCount (s.parts t).length)) s := by
  cases ht with
  | array => rfl
  | str text =>
    rw [Store.parts, List.length_map, String.length_toList]
    rfl

namespace Eval

theorem index_eq (ht : s.IsSequence t) (i : Int64) :
    index t (.int i) s =
      .ok (((Word.slot? i (s.parts t).length).bind fun slot ↦
        (s.parts t)[slot]?).getD .null) s := by
  cases ht with
  | @array id _ _ =>
    rw [Store.parts, Array.length_toList]
    simp only [Array.getElem?_toList]
    rfl
  | str text =>
    rw [Store.parts, List.length_map]
    change EStateM.Result.ok _ s = _
    congr 1
    cases Word.slot? i text.toList.length with
    | none => rfl
    | some slot =>
      simp only [Option.bind_some, List.getElem?_map]
      cases text.toList[slot]? <;> rfl

theorem gives_newArray (xs : Array Value) (s : Store) :
    GivesSequence (newArray xs) s .array xs.toList := by
  refine ⟨.array (s.cell_allocate_new _), rfl, s.keeps_allocate _, ?_⟩
  exact congrArg Array.toList (Store.elements_of_cell (s.cell_allocate_new _))

theorem gives_ofList (cs : List Char) (s : Store) :
    GivesSequence (pure (.str (String.ofList cs))) s .string
      (cs.map fun c ↦ .str (String.singleton c)) := by
  refine ⟨.str _, rfl, .refl s, ?_⟩
  rw [Store.parts, String.toList_ofList]

/-- The place of the start of a slice in a sequence of `n` parts. -/
def startPlace (n : Nat) : Option Int64 → Nat
  | none => 0
  | some i => Word.clamp i n

/-- The place of the end of a slice. -/
def stopPlace (n : Nat) : Option Int64 → Nat
  | none => n
  | some i => Word.clamp i n

theorem bounds_eq (kind : ValueKind) (n : Nat) (start stop : Option Int64) :
    bounds kind n (start.map Value.int) (stop.map Value.int) =
      .ok (startPlace n start, max (startPlace n start) (stopPlace n stop)) := by
  cases start <;> cases stop <;> rfl

/-- A slice has the parts between the places of its bounds. -/
theorem gives_slice (ht : s.IsSequence t) (start stop : Option Int64) :
    GivesSequence (slice t (start.map Value.int) (stop.map Value.int)) s t.kind
      ((s.parts t).extract (startPlace (s.parts t).length start)
        (stopPlace (s.parts t).length stop)) := by
  -- An end before the start is as good as one at the start.
  have hmax : ∀ first last : Nat, max first last - first = last - first := by omega
  unfold GivesSequence Succeeds
  cases ht with
  | @array id _ _ =>
    rw [slice, ensures_bind, ensures_get]
    dsimp only
    rw [bounds_eq, List.extract, ← hmax, ← List.extract, Store.parts, Array.length_toList,
      ← Array.toList_extract]
    exact gives_newArray _ s
  | str text =>
    rw [slice]
    dsimp only
    rw [bounds_eq, List.extract, ← hmax, Store.parts, List.length_map, ← List.map_drop,
      ← List.map_take]
    exact gives_ofList _ s

/-- A sum of two sequences of one kind has the parts of both. -/
theorem gives_add (ht : s.IsSequence t) (hu : s.IsSequence u) (hkind : t.kind = u.kind) :
    GivesSequence (binary .add t u) s t.kind (s.parts t ++ s.parts u) := by
  cases ht with
  | @array id _ _ =>
    cases hu with
    | @array id' _ _ =>
      rw [Store.parts, Store.parts, ← Array.toList_append]
      exact gives_newArray _ s
    | str text => cases hkind
  | str text =>
    cases hu with
    | array => cases hkind
    | str text' =>
      have h := gives_ofList (text ++ text').toList s
      rw [String.ofList_toList, String.toList_append, List.map_append] at h
      exact h

/-! ### Agreement -/

/-- The element of a sequence under an index in range is the part at that place. -/
theorem index_of_getElem? (ht : s.IsSequence t) {i : Int64} {x : Value} (hi : 0 ≤ i.toInt)
    (hx : (s.parts t)[i.toInt.toNat]? = some x) : index t (.int i) s = .ok x s := by
  have hlt : i.toInt < (s.parts t).length := by
    obtain ⟨h, -⟩ := List.getElem?_eq_some_iff.mp hx
    omega
  rw [index_eq ht, Word.slot?_of_lt hi hlt, Option.bind_some, hx]
  rfl

/-- The length of a slice between two words is the distance of their places, which is a word. -/
theorem len_slice {v : Value} {s' : Store} {xs : List Value} {i j : Int64}
    (hv : s'.IsSequence v)
    (hparts : s'.parts v = xs.extract (Word.clamp i xs.length) (Word.clamp j xs.length)) :
    ∃ w : Int64, Builtin.len v s' = .ok (.int w) s' ∧
      w.toInt = max 0 (Word.place xs.length j - Word.place xs.length i) := by
  have hlength : ((s'.parts v).length : Int) =
      max 0 (Word.place xs.length j - Word.place xs.length i) := by
    have hi := Word.natCast_clamp i xs.length
    have hj := Word.natCast_clamp j xs.length
    have hle := Word.clamp_le j xs.length
    rw [hparts, List.length_take, List.length_drop]
    omega
  -- Neither place is negative, and that of `j` is not beyond `j`.
  have hfits : Word.Fits ((s'.parts v).length : Int) := by
    have hj := Word.fits_toInt j
    rw [hlength]
    unfold Word.Fits Word.place at *
    omega
  exact ⟨_, Builtin.len_eq hv, (Word.toInt_ofCount hfits).trans hlength⟩

/-- The element of a slice is the one that stands as many places behind the place of the start. -/
theorem index_slice {v : Value} {s' : Store} {xs : List Value} {i j m : Int64}
    (hv : s'.IsSequence v)
    (hparts : s'.parts v = xs.extract (Word.clamp i xs.length) (Word.clamp j xs.length))
    (hm : 0 ≤ m.toInt)
    (hlt : m.toInt < max 0 (Word.place xs.length j - Word.place xs.length i)) :
    ∃ (k : Int64) (x : Value), k.toInt = Word.place xs.length i + m.toInt ∧
      xs[k.toInt.toNat]? = some x ∧ index v (.int m) s' = .ok x s' := by
  have hi := Word.natCast_clamp i xs.length
  have hj := Word.natCast_clamp j xs.length
  have hle := Word.clamp_le j xs.length
  have hfits : Word.Fits (Word.place xs.length i + m.toInt) := by
    have hj := Word.fits_toInt j
    unfold Word.Fits Word.place at *
    omega
  have hk := Word.toInt_ofInt hfits
  have hslot : (Int64.ofInt (Word.place xs.length i + m.toInt)).toInt.toNat =
      Word.clamp i xs.length + m.toInt.toNat := by
    rw [hk]
    omega
  have hrange : Word.clamp i xs.length + m.toInt.toNat < xs.length := by omega
  refine ⟨_, xs[Word.clamp i xs.length + m.toInt.toNat], hk, ?_, index_of_getElem? hv hm ?_⟩
  · rw [hslot]
    exact List.getElem?_eq_getElem hrange
  · rw [hparts, List.getElem?_take, if_pos (by omega), List.getElem?_drop]
    exact List.getElem?_eq_getElem hrange

/-- A slice up to a place and one from there on are the whole together. -/
theorem extract_append_extract (xs : List Value) {first middle last : Nat} (h : first ≤ middle)
    (h' : middle ≤ last) :
    xs.extract first middle ++ xs.extract middle last = xs.extract first last := by
  have hdrop : xs.drop middle = (xs.drop first).drop (middle - first) := by
    rw [List.drop_drop, Nat.add_sub_of_le h]
  have hlength : last - first = (middle - first) + (last - middle) := by omega
  rw [List.extract, List.extract, List.extract, hdrop, hlength, List.take_add]

/-- The sum of two slices of a value. -/
def addSlices (t : Value) (start stop start' stop' : Option Value) : Eval Value := do
  let u ← slice t start stop
  let v ← slice t start' stop'
  binary .add u v

theorem gives_addSlices (ht : s.IsSequence t) (start stop start' stop' : Option Int64) :
    GivesSequence (addSlices t (start.map Value.int) (stop.map Value.int) (start'.map Value.int)
      (stop'.map Value.int)) s t.kind
      ((s.parts t).extract (startPlace (s.parts t).length start)
          (stopPlace (s.parts t).length stop) ++
        (s.parts t).extract (startPlace (s.parts t).length start')
          (stopPlace (s.parts t).length stop')) := by
  refine (gives_slice ht start stop).bind fun u s₁ ⟨hu, hkind, hkeeps, hparts⟩ ↦ ?_
  obtain ⟨ht₁, htparts⟩ := hkeeps t ht
  refine (gives_slice ht₁ start' stop').bind fun v s₂ ⟨hv, hkind', hkeeps', hparts'⟩ ↦ ?_
  obtain ⟨hu₂, huparts⟩ := hkeeps' u hu
  refine (gives_add hu₂ hv (hkind.trans hkind'.symm)).imp ?_ fun _ _ h ↦ h
  rintro w s₃ ⟨hw, hkind'', hkeeps'', hsum⟩
  refine ⟨hw, hkind''.trans hkind, (hkeeps.trans hkeeps').trans hkeeps'', ?_⟩
  rw [hsum, huparts, hparts, hparts', htparts]

/-- The parts before a place and those from there on are all parts. -/
theorem gives_addSlices_halves (ht : s.IsSequence t) (i : Int64) :
    GivesSequence (addSlices t none (some (.int i)) (some (.int i)) none) s t.kind
      (s.parts t) := by
  have hsum := gives_addSlices ht none (some i) (some i) none
  have hparts : (s.parts t).extract 0 (Word.clamp i (s.parts t).length) ++
      (s.parts t).extract (Word.clamp i (s.parts t).length) (s.parts t).length = s.parts t :=
    (extract_append_extract _ (Nat.zero_le _) (Word.clamp_le i _)).trans List.take_length
  rwa [startPlace, stopPlace, startPlace, stopPlace, hparts] at hsum

/-- Slices that meet are the slice over both. -/
theorem gives_addSlices_adjacent (ht : s.IsSequence t) {i j k : Int64} (hij : i ≤ j)
    (hjk : j ≤ k) :
    GivesSequence (addSlices t (some (.int i)) (some (.int j)) (some (.int j)) (some (.int k))) s
      t.kind ((s.parts t).extract (Word.clamp i (s.parts t).length)
        (Word.clamp k (s.parts t).length)) := by
  have hsum := gives_addSlices ht (some i) (some j) (some j) (some k)
  have hparts := extract_append_extract (s.parts t)
    (Word.clamp_mono hij (s.parts t).length) (Word.clamp_mono hjk (s.parts t).length)
  rwa [startPlace, stopPlace, startPlace, stopPlace, hparts] at hsum

/-- A missing start is as good as zero. -/
theorem slice_none_start (ht : s.IsSequence t) (stop : Option Value) :
    slice t none stop s = slice t (some (.int 0)) stop s := by
  have hzero (kind : ValueKind) (n : Nat) :
      bounds kind n none stop = bounds kind n (some (.int 0)) stop := by
    rw [bounds, bounds, bound, bound, Word.clamp]
    simp
  cases ht with
  | array => simp only [slice, hzero]
  | str text => simp only [slice, hzero]

/-- A missing end is as good as the length. -/
theorem slice_none_stop (ht : s.IsSequence t) (start : Option Value) {w : Int64}
    (hw : w.toInt = (s.parts t).length) :
    slice t start none s = slice t start (some (.int w)) s := by
  have hlength (kind : ValueKind) (n : Nat) (hn : w.toInt = n) :
      bounds kind n start none = bounds kind n start (some (.int w)) := by
    simp only [bounds, bound, Word.clamp_of_toInt_eq hn]
  cases ht with
  | @array id _ _ =>
    rw [Store.parts, Array.length_toList] at hw
    simp only [slice, run_bind, run_get, hlength _ _ hw]
  | str text =>
    rw [Store.parts, List.length_map] at hw
    simp only [slice, hlength _ _ hw]

/-! ### Strings -/

/-- An element of a string is a string, so only an index out of range gives `null`. -/
theorem index_str_eq_null_iff (text : String) (i : Int64) (s : Store) :
    index (.str text) (.int i) s = .ok .null s ↔ ¬ (0 ≤ i.toInt ∧ i.toInt < text.length) := by
  rw [index_eq (.str text), Store.parts, List.length_map, String.length_toList]
  constructor
  · rintro h ⟨hi, hlt⟩
    rw [← String.length_toList] at hlt
    have hrange : i.toInt.toNat < text.toList.length := by omega
    rw [← String.length_toList, Word.slot?_of_lt hi hlt, Option.bind_some, List.getElem?_map,
      List.getElem?_eq_getElem hrange] at h
    cases h
  · intro h
    rw [Word.slot?_of_not_lt h]
    rfl

theorem slice_str (text : String) (start stop : Option Int64) (s : Store) :
    slice (.str text) (start.map Value.int) (stop.map Value.int) s =
      .ok (.str (String.ofList (text.toList.extract (startPlace text.toList.length start)
        (max (startPlace text.toList.length start) (stopPlace text.toList.length stop))))) s := by
  rw [slice]
  dsimp only
  rw [bounds_eq]
  rfl

/-- An element of a string is the slice from its place to the next. -/
theorem index_str_eq_slice {text : String} {i : Int64} (hi : 0 ≤ i.toInt)
    (hlt : i.toInt < text.length) (s : Store) :
    ∃ c : Char, text.toList[i.toInt.toNat]? = some c ∧
      index (.str text) (.int i) s = .ok (.str (String.singleton c)) s ∧
      ∀ j : Int64, Word.add? i 1 = some j →
        slice (.str text) (some (.int i)) (some (.int j)) s =
          .ok (.str (String.singleton c)) s := by
  rw [← String.length_toList] at hlt
  have hrange : i.toInt.toNat < text.toList.length := by omega
  have hget := List.getElem?_eq_getElem hrange
  refine ⟨_, hget, index_of_getElem? (.str text) hi ?_, fun j hj ↦ ?_⟩
  · rw [Store.parts, List.getElem?_map, hget]
    rfl
  · have hnext : j.toInt = i.toInt + 1 := Word.ofInt?_eq_some_iff.mp hj
    have hstart : Word.clamp i text.toList.length = i.toInt.toNat := by
      unfold Word.clamp
      omega
    have hstop : Word.clamp j text.toList.length = i.toInt.toNat + 1 := by
      unfold Word.clamp
      omega
    have hmax : max i.toInt.toNat (i.toInt.toNat + 1) - i.toInt.toNat = 1 := by omega
    have hslice := slice_str text (some i) (some j) s
    rw [startPlace, stopPlace, hstart, hstop, List.extract, hmax,
      List.drop_eq_getElem_cons hrange, List.take_succ_cons, List.take_zero,
      ← String.singleton_eq_ofList] at hslice
    exact hslice

/-- Slices, indices, lengths and sums of a sequence agree. The length of a slice is the distance of
the places of its bounds, and its elements are those from the first place on. A slice up to a bound
and the one from there on are the whole together, and slices that meet are the slice over both. A
missing bound is as good as zero or the length. An index into a string gives `null` exactly if it is
out of range, and else the slice of one character. -/
theorem slices_agree (ht : s.IsSequence t) :
    (∀ i j : Int64, Succeeds (slice t (some (.int i)) (some (.int j))) s fun u s' ↦
      u.kind = t.kind ∧
      (∃ w : Int64, Builtin.len u s' = .ok (.int w) s' ∧
        w.toInt = max 0 (Word.place (s.parts t).length j - Word.place (s.parts t).length i)) ∧
      ∀ m : Int64, 0 ≤ m.toInt →
        m.toInt < max 0 (Word.place (s.parts t).length j - Word.place (s.parts t).length i) →
        ∃ (k : Int64) (x : Value), k.toInt = Word.place (s.parts t).length i + m.toInt ∧
          (s.parts t)[k.toInt.toNat]? = some x ∧ index u (.int m) s' = .ok x s' ∧
          index t (.int k) s = .ok x s ∧ index t (.int k) s' = .ok x s') ∧
    (∀ i : Int64, Succeeds (addSlices t none (some (.int i)) (some (.int i)) none) s
      fun v s' ↦ v.kind = t.kind ∧ s'.parts v = s.parts t ∧ s'.parts t = s.parts t) ∧
    (∀ i j k : Int64, i ≤ j → j ≤ k →
      Succeeds (do
        let v ← addSlices t (some (.int i)) (some (.int j)) (some (.int j)) (some (.int k))
        let w ← slice t (some (.int i)) (some (.int k))
        return (v, w)) s fun p s' ↦ p.1.kind = p.2.kind ∧ s'.parts p.1 = s'.parts p.2) ∧
    (∀ bound : Option Value, slice t none bound s = slice t (some (.int 0)) bound s) ∧
    (∀ n : Int64, n.toInt = (s.parts t).length → Builtin.len t s = .ok (.int n) s ∧
      ∀ bound : Option Value, slice t bound none s = slice t bound (some (.int n)) s) ∧
    ∀ text : String, t = .str text → (s.parts t).length = text.length ∧ ∀ i : Int64,
      (index t (.int i) s = .ok .null s ↔ ¬ (0 ≤ i.toInt ∧ i.toInt < text.length)) ∧
      (0 ≤ i.toInt → i.toInt < text.length →
        ∃ c : Char, text.toList[i.toInt.toNat]? = some c ∧
          index t (.int i) s = .ok (.str (String.singleton c)) s ∧
          ∀ j : Int64, Word.add? i 1 = some j →
            slice t (some (.int i)) (some (.int j)) s = .ok (.str (String.singleton c)) s) := by
  refine ⟨fun i j ↦ ?_, fun i ↦ ?_, fun i j k hij hjk ↦ ?_, slice_none_start ht,
    fun n hn ↦ ⟨?_, fun bound ↦ slice_none_stop ht bound hn⟩, ?_⟩
  · refine (gives_slice ht (some i) (some j)).imp ?_ fun _ _ h ↦ h
    rintro u s' ⟨hu, hkind, hkeeps, hparts⟩
    refine ⟨hkind, len_slice hu hparts, fun m hm hlt ↦ ?_⟩
    obtain ⟨k, x, hk, hx, hindex⟩ := index_slice hu hparts hm hlt
    obtain ⟨ht', hsame⟩ := hkeeps t ht
    have hnonneg : 0 ≤ k.toInt := by
      unfold Word.place at hk
      omega
    exact ⟨k, x, hk, hx, hindex, index_of_getElem? ht hnonneg hx,
      index_of_getElem? ht' hnonneg (by rw [hsame, hx])⟩
  · refine (gives_addSlices_halves ht i).imp ?_ fun _ _ h ↦ h
    rintro v s' ⟨-, hkind, hkeeps, hparts⟩
    exact ⟨hkind, hparts, (hkeeps t ht).2⟩
  · refine (gives_addSlices_adjacent ht hij hjk).bind ?_
    rintro v s₁ ⟨hv, hkind, hkeeps, hparts⟩
    obtain ⟨ht₁, htparts⟩ := hkeeps t ht
    refine (gives_slice ht₁ (some i) (some k)).bind ?_
    rintro w s₂ ⟨-, hkind', hkeeps', hparts'⟩
    refine ⟨hkind.trans hkind'.symm, ?_⟩
    rw [(hkeeps' v hv).2, hparts, hparts', htparts]
    rfl
  · rw [Builtin.len_eq ht]
    have hfits : Word.Fits ((s.parts t).length : Int) := hn ▸ Word.fits_toInt n
    rw [Int64.toInt_inj.mp ((Word.toInt_ofCount hfits).trans hn.symm)]
  · rintro text rfl
    refine ⟨by rw [Store.parts, List.length_map, String.length_toList], fun i ↦ ⟨?_, ?_⟩⟩
    · exact index_str_eq_null_iff text i s
    · exact fun hi hlt ↦ index_str_eq_slice hi hlt s

/-- An array of two numbers, cut before its start and behind its first element, and a string with a
character of two bytes. -/
theorem slices_agree_paired :
    pairedStore.IsSequence (.array ⟨0⟩) ∧ pairedStore.IsSequence (.str "hé") ∧
    Succeeds (slice (.array ⟨0⟩) (some (.int (-5))) (some (.int 1))) pairedStore (fun u s' ↦
      Builtin.len u s' = .ok (.int 1) s' ∧ index u (.int 0) s' = .ok (.int 1) s') ∧
    Succeeds (addSlices (.array ⟨0⟩) none (some (.int 1)) (some (.int 1)) none) pairedStore
      (fun v s' ↦ s'.parts v = [.int 1, .int 2]) ∧
    index (.str "hé") (.int 1) pairedStore = .ok (.str "é") pairedStore ∧
    slice (.str "hé") (some (.int 1)) (some (.int 2)) pairedStore =
      .ok (.str "é") pairedStore := by
  have harray : pairedStore.IsSequence (.array ⟨0⟩) := .array rfl
  have hparts : pairedStore.parts (.array ⟨0⟩) = [.int 1, .int 2] := rfl
  obtain ⟨hslice, hhalves, -⟩ := slices_agree harray
  obtain ⟨-, -, -, -, -, hstring⟩ := slices_agree (.str "hé" : pairedStore.IsSequence _)
  obtain ⟨c, hc, hindex, hnext⟩ := ((hstring "hé" rfl).2 1).2 (by decide) (by decide)
  obtain rfl : 'é' = c := by
    have h : "hé".toList[(1 : Int64).toInt.toNat]? = some 'é' := by decide
    exact Option.some.inj (h.symm.trans hc)
  refine ⟨harray, .str _, (hslice (-5) 1).imp ?_ fun _ _ h ↦ h, ?_, hindex, hnext 2 (by decide)⟩
  · rintro u s' ⟨-, ⟨w, hlen, hw⟩, helement⟩
    obtain rfl : w = 1 := Int64.toInt_inj.mp (by rw [hw, hparts]; decide)
    obtain ⟨k, x, hk, hx, hindex, -⟩ := helement 0 (by decide) (by rw [hparts]; decide)
    rw [hk, hparts] at hx
    obtain rfl : Value.int 1 = x := Option.some.inj hx
    exact ⟨hlen, hindex⟩
  · exact (hhalves 1).imp (fun v s' h ↦ h.2.1.trans hparts) fun _ _ h ↦ h

end Eval

end Rules

end Treewalk
