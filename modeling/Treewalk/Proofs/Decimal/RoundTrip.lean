import Mathlib.Data.List.Induction
import Mathlib.Data.Nat.Digits.Defs
import Treewalk.Proofs.Grammar.Reparsing
import Treewalk.Proofs.Lines

/-!
# Integers and their decimal texts

An integer is written as its digits, behind a minus sign if it is negative. This text is read in two
places: by the builtin `int`, which takes an optional sign and digits between white space
(`Decimal.Written`), and by the language itself, where a minus sign is an operator before a natural
number. Both give the integer back, except that the least one is no text of the language, as the
number behind its sign is beyond the integers.
-/

set_option autoImplicit false
set_option relaxedAutoImplicit false

namespace Treewalk

/-! ### White space around a text -/

namespace Text

variable {core text : List Char}

/-- A text is a part of itself with white space around that part. -/
def Between (core text : List Char) : Prop :=
  ∃ before after, text = before ++ (core ++ after) ∧ before.all isBlank = true ∧
    after.all isBlank = true

theorem between_trim (text : List Char) : Between (trim text) text := by
  let rest := (text.dropWhile isBlank).reverse
  refine ⟨text.takeWhile isBlank, (rest.takeWhile isBlank).reverse, ?_, List.all_takeWhile, ?_⟩
  · rw [trim, ← List.reverse_append, List.takeWhile_append_dropWhile, List.reverse_reverse,
      List.takeWhile_append_dropWhile]
  · rw [List.all_reverse]
    exact List.all_takeWhile

/-- A part without white space is what is left when the white space around it is taken off. -/
theorem trim_of_between (h : Between core text) (hne : core ≠ [])
    (hcore : ∀ c ∈ core, isBlank c = false) : trim text = core := by
  obtain ⟨before, after, rfl, hbefore, hafter⟩ := h
  have hfirst : ∀ c ∈ (core ++ after).head?, isBlank c = false := by
    intro c hc
    rw [List.head?_append, List.head?_eq_some_head hne, Option.some_or] at hc
    exact hcore c (Option.mem_some_iff.mp hc ▸ List.head_mem hne)
  have hlast : ∀ c ∈ core.reverse.head?, isBlank c = false := by
    intro c hc
    exact hcore c (List.mem_reverse.mp (List.mem_of_mem_head? hc))
  rw [trim, (Scanner.takeWhile_append_of_head hbefore hfirst).2, List.reverse_append,
    (Scanner.takeWhile_append_of_head (by rwa [List.all_reverse]) hlast).2, List.reverse_reverse]

end Text

/-! ### Texts that denote integers -/

namespace Decimal

variable {ds text : List Char} {i : Int}

/-- The number with the given digits, the last one of which counts units. -/
def denoted (ds : List Char) : Nat :=
  Nat.ofDigits 10 (ds.reverse.map fun d ↦ d.toNat - '0'.toNat)

/-- One or more decimal digits. -/
def IsDigits (ds : List Char) : Prop :=
  ds ≠ [] ∧ ds.all isDigit = true

/-- An optional sign and digits, with the integer that they denote. -/
inductive Numeral : List Char → Int → Prop
  | unsigned {ds : List Char} : IsDigits ds → Numeral ds (denoted ds)
  | plus {ds : List Char} : IsDigits ds → Numeral ('+' :: ds) (denoted ds)
  | minus {ds : List Char} : IsDigits ds → Numeral ('-' :: ds) (-(denoted ds : Int))

/-- A text with an optional sign and digits between white space, and the integer that they
denote. -/
def Written (text : List Char) (i : Int) : Prop :=
  ∃ core, Text.Between core text ∧ Numeral core i

theorem digitsValue_eq (ds : List Char) : digitsValue ds = denoted ds := by
  unfold digitsValue denoted
  induction ds using List.reverseRecOn with
  | nil => rfl
  | append_singleton ds d ih =>
    rw [List.foldl_append, List.foldl_cons, List.foldl_nil, ih, List.reverse_append,
      List.reverse_singleton, List.singleton_append, List.map_cons, Nat.ofDigits_cons]
    exact Nat.add_comm _ _

theorem readNat?_eq_some_iff {n : Nat} : readNat? ds = some n ↔ IsDigits ds ∧ denoted ds = n := by
  rw [← digitsValue_eq]
  simp [readNat?, IsDigits]

theorem readInt?_eq (text : List Char) :
    readInt? text =
      (readNat? (takeSign text).2).map fun (n : Nat) ↦
        if (takeSign text).1 then -(n : Int) else n := by
  rcases h : takeSign text with ⟨negative, digits⟩
  simp only [readInt?, h]
  cases readNat? digits <;> rfl

theorem readInt?_eq_some_iff : readInt? text = some i ↔ Numeral text i := by
  rw [readInt?_eq]
  constructor
  · intro h
    obtain ⟨n, hn, rfl⟩ := Option.map_eq_some_iff.mp h
    obtain ⟨hdigits, rfl⟩ := readNat?_eq_some_iff.mp hn
    revert hdigits
    fun_cases takeSign text with
    | case1 cs => exact .plus
    | case2 cs => exact .minus
    | case3 => exact .unsigned
  · intro h
    cases h with
    | unsigned hdigits =>
      rw [takeSign_of_isDigit hdigits.2, readNat?_eq_some_iff.mpr ⟨hdigits, rfl⟩]
      rfl
    | plus hdigits =>
      rw [takeSign, readNat?_eq_some_iff.mpr ⟨hdigits, rfl⟩]
      rfl
    | minus hdigits =>
      rw [takeSign, readNat?_eq_some_iff.mpr ⟨hdigits, rfl⟩]
      rfl

theorem isBlank_of_isDigit {c : Char} (h : isDigit c = true) : Text.isBlank c = false := by
  simp only [isDigit, Bool.and_eq_true, decide_eq_true_eq, Char.le_def,
    UInt32.le_iff_toNat_le] at h
  have hlow : 48 ≤ c.toNat := h.1
  have hhigh : c.toNat ≤ 57 := h.2
  simp only [Text.isBlank, Bool.or_eq_false_iff, Bool.and_eq_false_iff, decide_eq_false_iff_not]
  omega

theorem Numeral.ne_nil (h : Numeral text i) : text ≠ [] := by
  cases h with
  | unsigned hdigits => exact hdigits.1
  | plus => exact List.cons_ne_nil _ _
  | minus => exact List.cons_ne_nil _ _

theorem Numeral.isBlank_eq_false (h : Numeral text i) : ∀ c ∈ text, Text.isBlank c = false := by
  have hall : ∀ {ds : List Char}, IsDigits ds → ∀ c ∈ ds, Text.isBlank c = false :=
    fun hdigits c hc ↦ isBlank_of_isDigit (List.all_eq_true.mp hdigits.2 c hc)
  cases h with
  | unsigned hdigits => exact hall hdigits
  | plus hdigits => exact List.forall_mem_cons.mpr ⟨by decide, hall hdigits⟩
  | minus hdigits => exact List.forall_mem_cons.mpr ⟨by decide, hall hdigits⟩

/-- What the builtin reads after taking off white space is what is written between white space. -/
theorem readInt?_trim_eq_some_iff : readInt? (Text.trim text) = some i ↔ Written text i := by
  rw [readInt?_eq_some_iff]
  constructor
  · intro h
    exact ⟨Text.trim text, Text.between_trim text, h⟩
  · rintro ⟨core, hbetween, h⟩
    rw [Text.trim_of_between hbetween h.ne_nil h.isBlank_eq_false]
    exact h

theorem readWord?_eq_some_iff {source : String} {n : Int64} :
    readWord? source = some n ↔ Written source.toList n.toInt := by
  rw [readWord?, Option.bind_eq_some_iff]
  constructor
  · rintro ⟨i, hi, hn⟩
    rw [Word.ofInt?_eq_some_iff.mp hn]
    exact readInt?_trim_eq_some_iff.mp hi
  · intro h
    exact ⟨n.toInt, readInt?_trim_eq_some_iff.mpr h, Word.ofInt?_eq_some_iff.mpr rfl⟩

theorem isDigits_repr (k : Nat) : IsDigits k.repr.toList := by
  rw [Nat.toList_repr]
  exact ⟨Nat.toDigits_ne_nil, List.all_eq_true.mpr fun c ↦ Scanner.isDigit_of_mem_toDigits⟩

theorem denoted_repr (k : Nat) : denoted k.repr.toList = k := by
  rw [← digitsValue_eq, Nat.toList_repr]
  exact Nat.ofDigitChars_ten_toDigits

end Decimal

/-! ### The text of an integer -/

namespace Word

variable {m n : Int64}

/-- The text of a negative integer is a minus sign and the text of its opposite. -/
theorem text_of_neg (hn : n.toInt < 0) (hm : m.toInt = -n.toInt) : text n = "-" ++ text m := by
  obtain ⟨k, hk, htext⟩ := exists_text_eq_repr (v := m) (by omega)
  rw [htext, text]
  split
  · next j hj =>
    rw [hj] at hn
    exact absurd hn (Int.not_lt.mpr (Int.natCast_nonneg j))
  · next j hj =>
    have hkj : k = j + 1 := by omega
    rw [hkj]

/-- Every negative integer but the least one has an opposite. -/
theorem exists_opposite (hn : n.toInt < 0) (hne : n ≠ Int64.minValue) :
    ∃ m : Int64, m.toInt = -n.toInt ∧ neg? m = some n := by
  have hleast : n.toInt ≠ Int64.minValue.toInt := fun h ↦ hne (Int64.toInt_inj.mp h)
  have hfits : Fits (-n.toInt) := by
    have := fits_toInt n
    rw [Int64.toInt_minValue] at hleast
    unfold Fits at *
    omega
  refine ⟨Int64.ofInt (-n.toInt), toInt_ofInt hfits, ?_⟩
  rw [neg?, toInt_ofInt hfits, Int.neg_neg]
  exact ofInt?_eq_some_iff.mpr rfl

theorem numeral_text (n : Int64) : Decimal.Numeral (text n).toList n.toInt := by
  unfold text
  cases hn : n.toInt with
  | ofNat k =>
    have h := Decimal.Numeral.unsigned (Decimal.isDigits_repr k)
    rwa [Decimal.denoted_repr] at h
  | negSucc k =>
    have h := Decimal.Numeral.minus (Decimal.isDigits_repr (k + 1))
    rw [Decimal.denoted_repr] at h
    show Decimal.Numeral ("-" ++ (k + 1).repr).toList _
    rw [String.toList_append]
    exact h

end Word

theorem Builtin.int_str_eq_iff {text : String} {n : Int64} :
    Builtin.int (.str text) = .int n ↔ Decimal.Written text.toList n.toInt := by
  rw [← Decimal.readWord?_eq_some_iff, Builtin.int]
  cases Decimal.readWord? text with
  | none => simp [Misuse.value]
  | some w => simp

theorem Builtin.int_str_of_not_written {text : String}
    (h : ∀ n : Int64, ¬ Decimal.Written text.toList n.toInt) :
    Builtin.int (.str text) = (Misuse.unreadable text .integer).value := by
  have hnone : Decimal.readWord? text = none := by
    rw [Option.eq_none_iff_forall_ne_some]
    intro n hn
    exact h n (Decimal.readWord?_eq_some_iff.mp hn)
  rw [Builtin.int, hnone]

/-! ### The text of an integer as a program -/

/-- A natural number at the end of a text is read as an operand. -/
theorem reads_int {m : Int64} (hm : 0 ≤ m.toInt) {level : Precedence} (p : Position) :
    Reads (.expression level) (Scanner.tokensFrom p (Word.text m).toList) (.int p m) [] := by
  obtain ⟨k, hk, htext⟩ := Word.exists_text_eq_repr hm
  have hsplits : Scanner.Splits .int k.repr.toList [] := Scanner.splits_natural k rfl
  have htokens := hsplits.tokensFrom_append p
  rw [List.append_nil, Scanner.tokensFrom_nil, Scanner.literal_of_ne (by decide),
    String.ofList_toList] at htokens
  rw [htext, htokens]
  refine .expression (.int rfl ?_) (.stop (Nat.not_lt_zero _))
  rw [Decimal.readInt?_repr, Option.bind_some, Word.ofInt?_eq_some_iff, hk]

/-- A minus sign before a number is read as an operator. -/
theorem reads_negated {m : Int64} (hm : 0 ≤ m.toInt) (p : Position) :
    ∃ q, Reads (.expression .lowest) (Scanner.tokensFrom p ("-" ++ Word.text m).toList)
      (.unary p .negate (.int q m)) [] := by
  have hbreaks : Scanner.Breaks (Word.text m).toList := by
    have h := (Expr.Plain.int (p := default) hm).breaks []
    rwa [List.append_nil] at h
  have htokens := (Scanner.splits_symbol (k := .minus) (w := ['-']) (by decide)
    hbreaks).tokensFrom_append p
  refine ⟨p.after ['-'], ?_⟩
  rw [String.toList_append]
  show Reads _ (Scanner.tokensFrom p (['-'] ++ (Word.text m).toList)) _ _
  rw [htokens]
  exact .expression (.unary rfl (reads_int hm _)) (.stop (Nat.not_lt_zero _))

/-- The text of an integer is read as an expression that comes to the integer. -/
theorem reads_text {n : Int64} (hne : n ≠ Int64.minValue) (p : Position) :
    ∃ e : Expr, Reads (.expression .lowest) (Scanner.tokensFrom p (Word.text n).toList) e [] ∧
      ∀ (depth : Nat) (scope : ScopeId) (s : Store),
        Eval.expr Builtin.table (depth + 2) scope e s = .ok (.int n) s := by
  by_cases hn : n.toInt < 0
  · obtain ⟨m, hm, hneg⟩ := Word.exists_opposite hn hne
    obtain ⟨q, hreads⟩ := reads_negated (m := m) (by omega) p
    rw [Word.text_of_neg hn hm]
    refine ⟨_, hreads, fun depth scope s ↦ ?_⟩
    show Eval.ofExcept (Eval.unary .negate (.int m)) s = _
    rw [Eval.unary, hneg]
    rfl
  · exact ⟨_, reads_int (by omega) p, fun depth scope s ↦ rfl⟩

theorem evaluate_text {n : Int64} (hne : n ≠ Int64.minValue) (depth : Nat) (scope : ScopeId)
    (s : Store) : evaluate (depth + 4) (Word.text n) scope s = .finished (some (.int n)) s := by
  obtain ⟨e, hreads, heval⟩ := reads_text hne .start
  have hlength := hreads.length_lt rfl
  obtain ⟨t, ts, htokens⟩ := List.exists_cons_of_ne_nil (List.ne_nil_of_length_pos hlength)
  rw [htokens] at hreads
  have hprogram : Parsed.ofSource (Word.text n) = ⟨[.expr t.position e], []⟩ := by
    refine (Parsed.ofSource_eq_iff _ _).mpr (.cons ?_ .nil)
    rw [Token.ofSource, htokens]
    exact .openStatement (.expr hreads) rfl (by decide)
  rw [evaluate_eq_ofBlock (by rw [hprogram]), hprogram]
  show Evaluation.ofBlock ((do
    return some (← Eval.expr Builtin.table (depth + 2) scope e) : Eval (Option Value)) s) = _
  rw [run_bind, heval]
  rfl

/-- The text of an integer is read back by the builtin `int`, and by the language unless it is the
least integer. The builtin reads an integer from exactly those texts in which it is written between
white space, and answers all other texts with an error. -/
theorem integer_texts :
    (∀ (n : Int64) (s : Store), ∃ text : String,
      s.inspect? (.int n) = some text ∧
      Builtin.string (.int n) s = .ok (.str text) s ∧
      Builtin.int (.str text) = .int n ∧
      (n ≠ Int64.minValue → ∀ (depth : Nat) (scope : ScopeId),
        evaluate (depth + 4) text scope s = .finished (some (.int n)) s)) ∧
    ∀ text : String,
      (∀ n : Int64, Builtin.int (.str text) = .int n ↔ Decimal.Written text.toList n.toInt) ∧
      ((∀ n : Int64, ¬ Decimal.Written text.toList n.toInt) →
        ∃ message : String, Builtin.int (.str text) = .error message) := by
  constructor
  · intro n s
    refine ⟨Word.text n, rfl, rfl, ?_, fun hne depth scope ↦ evaluate_text hne depth scope s⟩
    exact Builtin.int_str_eq_iff.mpr ⟨_, ⟨[], [], by simp, rfl, rfl⟩, Word.numeral_text n⟩
  · intro text
    exact ⟨fun n ↦ Builtin.int_str_eq_iff, fun h ↦ ⟨_, Builtin.int_str_of_not_written h⟩⟩

/-- The least integer that is a text of the language, and a text without digits. -/
theorem integer_texts_least :
    let n := Int64.minValue + 1
    n ≠ Int64.minValue ∧
    evaluate 4 "-9223372036854775807" ⟨0⟩ Store.empty = .finished (some (.int n)) Store.empty ∧
    (∀ m : Int64, ¬ Decimal.Written " + ".toList m.toInt) ∧
    ∃ message : String, Builtin.int (.str " + ") = .error message := by
  intro n
  have hne : n ≠ Int64.minValue := by decide
  have hnot : ∀ m : Int64, ¬ Decimal.Written " + ".toList m.toInt := by
    intro m hm
    have hread := Decimal.readWord?_eq_some_iff.mpr hm
    have hnone : Decimal.readWord? " + " = none := by decide
    rw [hnone] at hread
    cases hread
  obtain ⟨text, htext, -, -, hevaluate⟩ := integer_texts.1 n Store.empty
  have hminus : text = "-9223372036854775807" := by
    have hdigits : Word.text n = "-9223372036854775807" := by decide
    rw [← hdigits]
    exact (Option.some.inj htext).symm
  rw [← hminus]
  exact ⟨hne, hevaluate hne 0 ⟨0⟩, hnot, (integer_texts.2 " + ").2 hnot⟩

example : (Parsed.ofSource (Word.text Int64.minValue)).errors.isEmpty = false := by
  decide +kernel

end Treewalk
