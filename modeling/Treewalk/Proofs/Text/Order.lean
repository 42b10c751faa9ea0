import Mathlib.Data.List.Lex
import Treewalk.Eval.Operator
import Treewalk.Proofs.Outcome

/-!
# The order of strings

Strings are ordered by the scalar values of their characters, from the left on, and a string comes
before every longer one that it begins. `Text.Precedes` is this order. The encoding of a character
takes one to four bytes, and its first byte tells how many; so of two characters the smaller one has
the encoding with the smaller byte where the two first differ, whatever follows
(`Text.lex_encodings`). Hence the order of the strings is that of their encodings, byte by byte.

The comparison operators on strings all decide about this order, and a common beginning of two
strings makes no difference to it.
-/

set_option autoImplicit false
set_option relaxedAutoImplicit false

namespace Treewalk

namespace Text

/-- The scalar values of the characters of a text. -/
def scalars (text : String) : List Nat :=
  text.toList.map Char.toNat

/-- The bytes of the encoding of a text. -/
def encoding (text : String) : List UInt8 :=
  text.toUTF8.data.toList

/-- The lexicographic order by scalar values. -/
def Precedes (a b : String) : Prop :=
  List.Lex (· < ·) (scalars a) (scalars b)

variable {a b : String}

/-! ### A total order -/

theorem scalars_injective : Function.Injective scalars := by
  intro a b h
  have hchars : a.toList = b.toList := List.map_injective_iff.mpr (fun _ _ ↦ Char.toNat_inj.mp) h
  exact String.toList_inj.mp hchars

theorem precedes_or_eq_or (a b : String) : Precedes a b ∨ a = b ∨ Precedes b a := by
  rcases trichotomous_of (List.Lex (· < ·)) (scalars a) (scalars b) with h | h | h
  · exact Or.inl h
  · exact Or.inr (Or.inl (scalars_injective h))
  · exact Or.inr (Or.inr h)

theorem not_precedes_self (a : String) : ¬ Precedes a a :=
  List.lex_irrefl Nat.lt_irrefl (scalars a)

theorem Precedes.trans {c : String} (hab : Precedes a b) (hbc : Precedes b c) : Precedes a c :=
  List.lex_trans Nat.lt_trans hab hbc

theorem Precedes.not_precedes (h : Precedes a b) : ¬ Precedes b a := fun h' ↦
  not_precedes_self a (h.trans h')

instance : IsStrictTotalOrder String Precedes where
  trichotomous a b hab hba := by
    rcases precedes_or_eq_or a b with h | h | h
    · exact absurd h hab
    · exact h
    · exact absurd h hba
  irrefl := not_precedes_self
  trans _ _ _ := Precedes.trans

theorem precedes_append_iff (c : String) : Precedes (c ++ a) (c ++ b) ↔ Precedes a b := by
  unfold Precedes scalars
  rw [String.toList_append, String.toList_append, List.map_append, List.map_append]
  induction c.toList.map Char.toNat with
  | nil => rfl
  | cons n ns ih => rw [List.cons_append, List.cons_append, List.lex_cons_iff, ih]

/-- The order of the characters is that of their scalar values. -/
theorem lex_map_toNat_iff {cs ds : List Char} :
    List.Lex (· < ·) (cs.map Char.toNat) (ds.map Char.toNat) ↔ List.Lex (· < ·) cs ds := by
  induction cs generalizing ds with
  | nil => cases ds <;> simp
  | cons c cs ih =>
    cases ds with
    | nil => simp
    | cons d ds =>
      rw [List.map_cons, List.map_cons, List.cons_lex_cons_iff, List.cons_lex_cons_iff, ih,
        Char.toNat_inj]
      rfl

theorem lt_iff_precedes : a < b ↔ Precedes a b :=
  lex_map_toNat_iff.symm

/-! ### The order of the encodings -/

theorem encoding_eq (text : String) :
    encoding text = text.toList.flatMap String.utf8EncodeChar := by
  rw [encoding, String.toUTF8_eq_toByteArray, ← String.utf8Encode_toList]
  exact List.toList_data_toByteArray

theorem toNat_lt (c : Char) : c.toNat < 0x110000 := by
  rcases c.valid with h | h
  · exact h.trans (by decide)
  · exact h.2

/-- Numbers are compared by how often they hold `64`, and then by what is left over. -/
theorem lt_iff_div_mod (m n : Nat) :
    m < n ↔ m / 64 < n / 64 ∨ m / 64 = n / 64 ∧ m % 64 < n % 64 := by
  omega

theorem lex_cons_ofNat_iff {m n : Nat} (hm : m < 256) (hn : n < 256) {xs ys : List UInt8} :
    List.Lex (· < ·) (UInt8.ofNat m :: xs) (UInt8.ofNat n :: ys) ↔
      m < n ∨ m = n ∧ List.Lex (· < ·) xs ys := by
  have hlt : UInt8.ofNat m < UInt8.ofNat n ↔ m < n := by
    rw [UInt8.lt_iff_toNat_lt, UInt8.toNat_ofNat_of_lt' hm, UInt8.toNat_ofNat_of_lt' hn]
  have heq : UInt8.ofNat m = UInt8.ofNat n ↔ m = n := by
    rw [← UInt8.toNat_inj, UInt8.toNat_ofNat_of_lt' hm, UInt8.toNat_ofNat_of_lt' hn]
  rw [List.cons_lex_cons_iff, hlt, heq]

/-- The encodings of two characters differ in the way the characters do, and this is seen before
what follows them. -/
theorem lex_encodings {c d : Char} (h : c.toNat < d.toNat) (xs ys : List UInt8) :
    List.Lex (· < ·) (String.utf8EncodeChar c ++ xs) (String.utf8EncodeChar d ++ ys) := by
  have hc := toNat_lt c
  have hd := toNat_lt d
  unfold Char.toNat at h hc hd
  unfold String.utf8EncodeChar
  generalize c.val.toNat = m at h hc
  generalize d.val.toNat = n at h hd
  -- The bytes behind the first one are digits to the base `64`, so the numbers are compared digit by
  -- digit as well.
  have hsecond : ∀ k : Nat, k / 64 / 64 = k / 4096 := fun k ↦ Nat.div_div_eq_div_mul k 64 64
  have hthird : ∀ k : Nat, k / 4096 / 64 = k / 262144 := fun k ↦
    Nat.div_div_eq_div_mul k 4096 64
  rw [lt_iff_div_mod, lt_iff_div_mod (m / 64), hsecond, hsecond, lt_iff_div_mod (m / 4096), hthird,
    hthird] at h
  have hm : m / 262144 % 8 = m / 262144 := Nat.mod_eq_of_lt (by omega)
  have hn : n / 262144 % 8 = n / 262144 := Nat.mod_eq_of_lt (by omega)
  dsimp only
  rw [hm, hn]
  split_ifs
  -- The smaller number never has the longer encoding.
  all_goals try omega
  all_goals
    simp only [List.cons_append, List.nil_append]
    repeat rw [lex_cons_ofNat_iff (by omega) (by omega)]
    omega

theorem lex_flatMap_encodings {cs ds : List Char}
    (h : List.Lex (· < ·) (cs.map Char.toNat) (ds.map Char.toNat)) :
    List.Lex (· < ·) (cs.flatMap String.utf8EncodeChar) (ds.flatMap String.utf8EncodeChar) := by
  induction cs generalizing ds with
  | nil =>
    cases ds with
    | nil => exact absurd h List.not_lex_nil
    | cons d ds =>
      obtain ⟨b, bs, hd⟩ := List.exists_cons_of_ne_nil (String.utf8EncodeChar_ne_nil (c := d))
      rw [List.flatMap_cons, hd]
      exact List.Lex.nil
  | cons c cs ih =>
    cases ds with
    | nil => exact absurd h List.not_lex_nil
    | cons d ds =>
      rw [List.flatMap_cons, List.flatMap_cons]
      rcases List.cons_lex_cons_iff.mp h with hlt | ⟨heq, hlex⟩
      · exact lex_encodings hlt _ _
      · rw [Char.toNat_inj.mp heq]
        exact List.Lex.append_left _ (ih hlex) _

/-- The order by scalar values is the order of the encodings, byte by byte. -/
theorem precedes_iff_lex_encoding :
    Precedes a b ↔ List.Lex (· < ·) (encoding a) (encoding b) := by
  have hforward : ∀ {x y : String}, Precedes x y → List.Lex (· < ·) (encoding x) (encoding y) := by
    intro x y h
    rw [encoding_eq, encoding_eq]
    exact lex_flatMap_encodings h
  constructor
  · exact hforward
  · intro h
    have hself : ¬ List.Lex (· < ·) (encoding a) (encoding a) :=
      List.lex_irrefl UInt8.lt_irrefl (encoding a)
    rcases precedes_or_eq_or a b with hab | rfl | hba
    · exact hab
    · exact absurd h hself
    · exact (hself (List.lex_trans UInt8.lt_trans h (hforward hba))).elim

end Text

/-! ### The operators -/

namespace Eval

/-- An operator on two strings answers whether something is the case, and does nothing else. -/
def Decides (operator : BinaryOperator) (a b : String) (p : Prop) : Prop :=
  ∃ r : Bool, binary operator (.str a) (.str b) = pure (.bool r) ∧ (r = true ↔ p)

variable {operator : BinaryOperator} {a b : String} {p : Prop}

theorem decides_of_decide {q : Prop} [Decidable q]
    (h : binary operator (.str a) (.str b) = pure (.bool (decide q))) (hq : q ↔ p) :
    Decides operator a b p :=
  ⟨decide q, h, decide_eq_true_iff.trans hq⟩

/-- What an operator decides is what it answers with `true`. -/
theorem Decides.eq_true_iff (h : Decides operator a b p) :
    binary operator (.str a) (.str b) = pure (.bool true) ↔ p := by
  obtain ⟨r, hr, hp⟩ := h
  rw [hr, ← hp]
  constructor
  · intro heq
    have hvalue := EStateM.Result.ok.inj (congrFun heq Store.empty)
    exact Value.bool.inj hvalue.1
  · intro h
    rw [h]

theorem decides_less (a b : String) : Decides .less a b (Text.Precedes a b) :=
  decides_of_decide rfl Text.lt_iff_precedes

theorem decides_greater (a b : String) : Decides .greater a b (Text.Precedes b a) :=
  decides_of_decide rfl Text.lt_iff_precedes

theorem decides_equal (a b : String) : Decides .equal a b (a = b) :=
  decides_of_decide rfl Iff.rfl

/-- Of less, equal and greater, exactly one holds. -/
theorem existsUnique_comparison (a b : String) :
    ∃! operator, operator ∈ [BinaryOperator.less, .equal, .greater] ∧
      binary operator (.str a) (.str b) = pure (.bool true) := by
  have hless := (decides_less a b).eq_true_iff
  have hequal := (decides_equal a b).eq_true_iff
  have hgreater := (decides_greater a b).eq_true_iff
  have hself := Text.not_precedes_self a
  rcases Text.precedes_or_eq_or a b with h | rfl | h
  · have hnot := h.not_precedes
    exact ⟨.less, ⟨by simp, hless.mpr h⟩, by grind⟩
  · exact ⟨.equal, ⟨by simp, hequal.mpr rfl⟩, by grind⟩
  · have hnot := h.not_precedes
    exact ⟨.greater, ⟨by simp, hgreater.mpr h⟩, by grind⟩

/-- The comparisons of strings are those of one strict total order, the lexicographic order by
scalar values, and it is that of the encodings by bytes. Text in front of both strings makes no
difference. -/
theorem strings_ordered :
    IsStrictTotalOrder String Text.Precedes ∧
    ∀ a b : String,
      (Decides .less a b (Text.Precedes a b) ∧ Decides .greater a b (Text.Precedes b a) ∧
        Decides .lessEqual a b (¬ Text.Precedes b a) ∧
        Decides .greaterEqual a b (¬ Text.Precedes a b) ∧
        Decides .equal a b (a = b) ∧ Decides .notEqual a b (a ≠ b)) ∧
      (∃! operator, operator ∈ [BinaryOperator.less, .equal, .greater] ∧
        binary operator (.str a) (.str b) = pure (.bool true)) ∧
      (Text.Precedes a b ↔ List.Lex (· < ·) (Text.encoding a) (Text.encoding b)) ∧
      ∀ c : String, ∃ d e : String,
        binary .add (.str c) (.str a) = pure (.str d) ∧
        binary .add (.str c) (.str b) = pure (.str e) ∧
        Decides .less d e (Text.Precedes a b) := by
  refine ⟨inferInstance, fun a b ↦ ⟨?_, existsUnique_comparison a b,
    Text.precedes_iff_lex_encoding, fun c ↦ ⟨c ++ a, c ++ b, rfl, rfl, ?_⟩⟩⟩
  · exact ⟨decides_less a b, decides_greater a b,
      decides_of_decide rfl (not_congr Text.lt_iff_precedes),
      decides_of_decide rfl (not_congr Text.lt_iff_precedes), decides_equal a b,
      decides_of_decide rfl Iff.rfl⟩
  · rw [← Text.precedes_append_iff c]
    exact decides_less (c ++ a) (c ++ b)

end Eval

end Treewalk
