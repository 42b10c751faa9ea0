import Mathlib
import Treewalk.Builtin.Call
import Treewalk.Proofs.Store.Nesting
import Treewalk.Store.Equality

/-!
# Laws of structural equality

One step of the comparison of two values compares them as operands or their parts in pairs
(`Store.Matches`). What holds of the comparison of the parts holds of the whole, so structural
equality is symmetric and transitive at every depth. In an acyclic store the comparison always ends,
since it goes no deeper than the first value is nested.

Equality of floats is symmetric and transitive, and only what is no number differs from itself.
-/

set_option autoImplicit false
set_option relaxedAutoImplicit false

namespace Treewalk

/-! ### Equality of operands -/

namespace Value

variable {u v w : Value}

/-- Equal operands are the same value, or else floats or builtins. -/
theorem sameAs_cases (h : v.sameAs w = true) :
    v = w ∨ (∃ x y, v = .float x ∧ w = .float y ∧ (x == y) = true) ∨
      ∃ a b, v = .builtin a ∧ w = .builtin b ∧ a.name = b.name := by
  unfold sameAs at h
  split at h
  case h_2 x y => exact .inr (.inl ⟨x, y, rfl, rfl, h⟩)
  case h_9 a b => exact .inr (.inr ⟨a, b, rfl, rfl, of_decide_eq_true h⟩)
  all_goals simp_all

theorem sameAs_symm (h : v.sameAs w = true) : w.sameAs v = true := by
  rcases sameAs_cases h with rfl | ⟨x, y, rfl, rfl, hxy⟩ | ⟨a, b, rfl, rfl, hab⟩
  · exact h
  · exact BEq.symm hxy
  · exact decide_eq_true hab.symm

theorem sameAs_trans (h : u.sameAs v = true) (h' : v.sameAs w = true) : u.sameAs w = true := by
  rcases sameAs_cases h with rfl | ⟨x, y, rfl, rfl, hxy⟩ | ⟨a, b, rfl, rfl, hab⟩
  · exact h'
  · rcases sameAs_cases h' with rfl | ⟨y, z, ⟨⟩, rfl, hyz⟩ | ⟨b, c, ⟨⟩, -⟩
    · exact h
    · exact BEq.trans hxy hyz
  · rcases sameAs_cases h' with rfl | ⟨y, z, ⟨⟩, -⟩ | ⟨b, c, ⟨⟩, rfl, hbc⟩
    · exact h
    · exact decide_eq_true (hab.trans hbc)

end Value

/-! ### One step of the comparison -/

/-- Entries that are found by the same key, with related keys and values. -/
structure Entry.Matches (R : Value → Value → Prop) (d e : Entry) : Prop where
  slot : d.slot = e.slot
  key : R d.key e.key
  value : R d.value e.value

namespace Store

/-- Two values that are equal as operands, or whose parts are related in pairs. -/
inductive Matches (s : Store) (R : Value → Value → Prop) : Value → Value → Prop where
  | same {v w : Value} : v.sameAs w = true → Matches s R v w
  | arrays {a b : CellId} : List.Forall₂ R (s.elements a).toList (s.elements b).toList →
      Matches s R (.array a) (.array b)
  | hashes {a b : CellId} : List.Forall₂ (Entry.Matches R) (s.entries a) (s.entries b) →
      Matches s R (.hash a) (.hash b)
  | results {v w : Value} : Matches s R v w → Matches s R (.pending v) (.pending w)

variable {s : Store} {R : Value → Value → Prop} {u v w : Value}

theorem matches_array_iff {a b : CellId} :
    s.Matches R (.array a) (.array b) ↔
      a = b ∨ List.Forall₂ R (s.elements a).toList (s.elements b).toList := by
  constructor
  · intro h
    cases h with
    | same h => exact .inl (of_decide_eq_true h)
    | arrays h => exact .inr h
  · rintro (h | h)
    · exact .same (decide_eq_true h)
    · exact .arrays h

theorem matches_hash_iff {a b : CellId} :
    s.Matches R (.hash a) (.hash b) ↔
      a = b ∨ List.Forall₂ (Entry.Matches R) (s.entries a) (s.entries b) := by
  constructor
  · intro h
    cases h with
    | same h => exact .inl (of_decide_eq_true h)
    | hashes h => exact .inr h
  · rintro (h | h)
    · exact .same (decide_eq_true h)
    · exact .hashes h

theorem matches_pending_iff : s.Matches R (.pending v) (.pending w) ↔ s.Matches R v w := by
  refine ⟨fun h ↦ ?_, .results⟩
  cases h with
  | same h => exact absurd h Bool.false_ne_true
  | results h => exact h

theorem allEqual_eq_true_iff {α : Type} {eq : α → α → Option Bool} {xs ys : List α} :
    allEqual eq xs ys = some true ↔ List.Forall₂ (fun x y ↦ eq x y = some true) xs ys := by
  fun_induction allEqual eq xs ys with
  | case1 x xs y ys h ih => simp [h, ih]
  | case2 x xs y ys h =>
    have hne : eq x y ≠ some true := h
    simp [hne]
  | case3 => simp
  | case4 xs ys h h' =>
    refine ⟨nofun, fun hall ↦ ?_⟩
    cases hall with
    | nil => exact absurd rfl (h' rfl)
    | cons _ _ => exact absurd rfl (h _ _ _ _ rfl)

theorem entryEqual_eq_true_iff {eq : Value → Value → Option Bool} {d e : Entry} :
    entryEqual eq d e = some true ↔ d.Matches (fun v w ↦ eq v w = some true) e := by
  unfold entryEqual
  constructor
  · intro h
    split at h
    next hslot =>
      split at h
      next hkey => exact ⟨hslot, hkey, h⟩
      next hkey => exact (hkey h).elim
    next => cases h
  · rintro ⟨hslot, hkey, hvalue⟩
    rw [if_pos hslot, hkey]
    exact hvalue

/-- The comparison of two cells succeeds if they are one or their parts are equal in pairs. -/
theorem cellsEqual_iff {α : Type} {eq : α → α → Option Bool} {xs ys : List α} {a b : CellId} :
    (if a = b then some true
      else if xs.length = ys.length then allEqual eq xs ys else some false) = some true ↔
      a = b ∨ List.Forall₂ (fun x y ↦ eq x y = some true) xs ys := by
  rw [← allEqual_eq_true_iff]
  by_cases hab : a = b
  · simp [hab]
  · by_cases hlength : xs.length = ys.length
    · simp [hab, hlength]
    · have hne : allEqual eq xs ys ≠ some true := fun h ↦
        hlength (allEqual_eq_true_iff.mp h).length_eq
      simp [hab, hlength, hne]

/-- A comparison succeeds if the values match, with the parts compared one level less deep. -/
theorem equalWithin_succ_eq_true_iff {depth : Nat} :
    s.equalWithin (depth + 1) v w = some true ↔
      s.Matches (fun v w ↦ s.equalWithin depth v w = some true) v w := by
  rw [equalWithin]
  generalize s.equalWithin depth = eq
  fun_induction Value.settleBoth v w with
  | case1 v w ih => rw [ih, matches_pending_iff]
  | case2 v w hvw =>
    split
    next a b heq =>
      obtain ⟨rfl, rfl⟩ := Prod.mk.inj heq
      rw [matches_array_iff]
      exact cellsEqual_iff
    next a b heq =>
      obtain ⟨rfl, rfl⟩ := Prod.mk.inj heq
      rw [matches_hash_iff, cellsEqual_iff]
      simp only [entryEqual_eq_true_iff]
    next harrays hhashes heq =>
      obtain ⟨rfl, rfl⟩ := Prod.mk.inj heq
      rw [Option.some.injEq]
      refine ⟨.same, fun h ↦ ?_⟩
      cases h with
      | same h => exact h
      | @arrays a b _ => exact absurd rfl (harrays a b rfl)
      | @hashes a b _ => exact absurd rfl (hhashes a b rfl)
      | @results v w _ => exact absurd rfl (hvw v w rfl)

/-! ### What one step preserves -/

theorem forall₂_trans {α : Type} {R : α → α → Prop} (hR : ∀ x y z, R x y → R y z → R x z)
    {xs ys zs : List α} (h : List.Forall₂ R xs ys) (h' : List.Forall₂ R ys zs) :
    List.Forall₂ R xs zs := by
  induction h generalizing zs with
  | nil => exact h'
  | cons hxy _ ih =>
    cases h' with
    | cons hyz h' => exact .cons (hR _ _ _ hxy hyz) (ih h')

theorem forall₂_symm {α : Type} {R : α → α → Prop} (hR : ∀ x y, R x y → R y x) {xs ys : List α}
    (h : List.Forall₂ R xs ys) : List.Forall₂ R ys xs :=
  (h.imp hR).flip

theorem Matches.symm (hR : ∀ v w, R v w → R w v) (h : s.Matches R v w) : s.Matches R w v := by
  induction h with
  | same h => exact .same (Value.sameAs_symm h)
  | arrays h => exact .arrays (forall₂_symm hR h)
  | hashes h =>
    refine .hashes (forall₂_symm (fun d e hde ↦ ?_) h)
    exact ⟨hde.slot.symm, hR _ _ hde.key, hR _ _ hde.value⟩
  | results _ ih => exact .results ih

theorem Matches.trans (hR : ∀ u v w, R u v → R v w → R u w) (h : s.Matches R u v)
    (h' : s.Matches R v w) : s.Matches R u w := by
  induction h generalizing w with
  | same h =>
    rcases Value.sameAs_cases h with rfl | ⟨x, y, rfl, rfl, -⟩ | ⟨a, b, rfl, rfl, -⟩
    · exact h'
    · cases h' with
      | same h' => exact .same (Value.sameAs_trans h h')
    · cases h' with
      | same h' => exact .same (Value.sameAs_trans h h')
  | arrays h =>
    cases h' with
    | same h' =>
      obtain rfl | ⟨x, y, ⟨⟩, -⟩ | ⟨a, b, ⟨⟩, -⟩ := Value.sameAs_cases h'
      exact .arrays h
    | arrays h' => exact .arrays (forall₂_trans hR h h')
  | hashes h =>
    cases h' with
    | same h' =>
      obtain rfl | ⟨x, y, ⟨⟩, -⟩ | ⟨a, b, ⟨⟩, -⟩ := Value.sameAs_cases h'
      exact .hashes h
    | hashes h' =>
      refine .hashes (forall₂_trans (fun c d e hcd hde ↦ ?_) h h')
      exact ⟨hcd.slot.trans hde.slot, hR _ _ _ hcd.key hde.key, hR _ _ _ hcd.value hde.value⟩
  | results _ ih =>
    cases h' with
    | same h' => exact absurd h' Bool.false_ne_true
    | results h' => exact .results (ih h')

/-- A value without floats inside. -/
def FloatFree (s : Store) (v : Value) : Prop :=
  ∀ x : Float, ¬ s.Inside v (.float x)

theorem FloatFree.part {p : Value} (hv : s.FloatFree v) (h : s.Part v p) : s.FloatFree p :=
  fun x hx ↦ hv x (.head h hx)

/-- Matching values without floats have the same text if their parts have. -/
theorem Matches.showWithin_eq {depth : Nat}
    (hR : ∀ v w, s.FloatFree v → R v w → s.showWithin depth v = s.showWithin depth w)
    (h : s.Matches R v w) (hv : s.FloatFree v) :
    s.showWithin (depth + 1) v = s.showWithin (depth + 1) w := by
  induction h with
  | same h =>
    rcases Value.sameAs_cases h with rfl | ⟨x, y, rfl, rfl, -⟩ | ⟨a, b, rfl, rfl, -⟩
    · rfl
    · exact absurd .refl (hv x)
    · rfl
  | arrays h =>
    have hparts := (List.forall₂_and_left _ _).mpr
      ⟨fun x hx ↦ hv.part (.element (Array.mem_toList_iff.mp hx)), h⟩
    exact showWithin_array_congr (hparts.imp fun x y hxy ↦ hR x y hxy.1 hxy.2)
  | hashes h =>
    have hparts := (List.forall₂_and_left _ _).mpr
      ⟨fun e he ↦ And.intro (hv.part (.key he)) (hv.part (.value he)), h⟩
    refine showWithin_hash_congr (hparts.imp fun d e hde ↦ ?_)
    exact ⟨hR _ _ hde.1.1 hde.2.key, hR _ _ hde.1.2 hde.2.value⟩
  | results _ ih => exact ih (hv.part (.result _))

/-! ### Comparisons to a depth -/

section Depth

variable {depth : Nat}

theorem equalWithin_symm (h : s.equalWithin depth v w = some true) :
    s.equalWithin depth w v = some true := by
  induction depth generalizing v w with
  | zero => cases h
  | succ depth ih =>
    rw [equalWithin_succ_eq_true_iff] at h ⊢
    exact h.symm fun v w ↦ ih

theorem equalWithin_trans (h : s.equalWithin depth u v = some true)
    (h' : s.equalWithin depth v w = some true) : s.equalWithin depth u w = some true := by
  induction depth generalizing u v w with
  | zero => cases h
  | succ depth ih =>
    rw [equalWithin_succ_eq_true_iff] at h h' ⊢
    exact h.trans (fun u v w ↦ ih) h'

theorem showWithin_eq_of_equalWithin (hv : s.FloatFree v)
    (h : s.equalWithin depth v w = some true) : s.showWithin depth v = s.showWithin depth w := by
  induction depth generalizing v w with
  | zero => cases h
  | succ depth ih =>
    rw [equalWithin_succ_eq_true_iff] at h
    exact h.showWithin_eq (fun v w hv hvw ↦ ih hv hvw) hv

theorem isSome_allEqual {α : Type} {eq : α → α → Option Bool} {xs : List α}
    (h : ∀ x ∈ xs, ∀ y, (eq x y).isSome) (ys : List α) : (allEqual eq xs ys).isSome := by
  fun_induction allEqual eq xs ys with
  | case1 x xs y ys _ ih => exact ih fun x hx ↦ h x (.tail _ hx)
  | case2 x xs y ys _ => exact h x (by simp) y
  | case3 => rfl
  | case4 => rfl

theorem isSome_entryEqual {eq : Value → Value → Option Bool} {d e : Entry}
    (hkey : (eq d.key e.key).isSome) (hvalue : (eq d.value e.value).isSome) :
    (entryEqual eq d e).isSome := by
  unfold entryEqual
  split
  next =>
    split
    next => exact hvalue
    next => exact hkey
  next => rfl

/-- A comparison ends if those of the parts of the first value do. -/
theorem isSome_equalWithin_succ
    (h : ∀ p q, s.Part v.settled p → (s.equalWithin depth p q).isSome) :
    (s.equalWithin (depth + 1) v w).isSome := by
  rw [equalWithin]
  fun_induction Value.settleBoth v w with
  | case1 v w ih => exact ih h
  | case2 v w hvw =>
    split
    next a b heq =>
      obtain ⟨rfl, rfl⟩ := Prod.mk.inj heq
      split
      next => rfl
      next =>
        split
        next => exact isSome_allEqual (fun x hx y ↦ h x y (.element (Array.mem_toList_iff.mp hx))) _
        next => rfl
    next a b heq =>
      obtain ⟨rfl, rfl⟩ := Prod.mk.inj heq
      split
      next => rfl
      next =>
        split
        next =>
          refine isSome_allEqual (fun d hd e ↦ ?_) _
          exact isSome_entryEqual (h _ _ (.key hd)) (h _ _ (.value hd))
        next => rfl
    next => rfl

theorem isSome_equalWithin (hs : s.Acyclic) (v w : Value) (h : (s.below v).card < depth) :
    (s.equalWithin depth v w).isSome := by
  induction depth generalizing v w with
  | zero => omega
  | succ depth ih =>
    refine isSome_equalWithin_succ fun p q hp ↦ ?_
    have hlt := card_below_lt hs hp
    exact ih p q (by omega)

end Depth

/-! ### The laws -/

/-- Structural equality always has an answer and obeys its laws: it is symmetric and transitive, it
holds of what is equal as operands, of every value with itself if all floats inside are numbers, and
between values without floats only if they have the same text. An array contains a value if one of
its elements is equal to it. -/
structure LawfulEquality (s : Store) : Prop where
  ends : ∀ v w : Value, ∃ b : Bool, s.equal? v w = some b
  symm : ∀ v w : Value, s.equal? v w = s.equal? w v
  trans : ∀ u v w : Value,
    s.equal? u v = some true → s.equal? v w = some true → s.equal? u w = some true
  of_sameAs : ∀ v w : Value, v.sameAs w = true → s.equal? v w = some true
  refl : ∀ v : Value, (∀ x : Float, s.Inside v (.float x) → x.isNaN = false) →
    s.equal? v v = some true
  text : ∀ v w : Value, s.FloatFree v → s.equal? v w = some true →
    ∃ text : String, s.inspect? v = some text ∧ s.inspect? w = some text
  contains : ∀ (id : CellId) (v : Value), ∃ b : Bool,
    Builtin.contains (.array id) v s = .ok (.bool b) s ∧
      (b = true ↔ ∃ x ∈ s.elements id, s.equal? x v = some true)

theorem matches_self (h : ∀ x : Float, s.Inside v (.float x) → x.isNaN = false) :
    s.Matches R v v := by
  induction v with
  | float x =>
    have hx : x ≠ Float.nan := by simpa using h x .refl
    exact .same (Float.beq_self_iff.mpr hx)
  | pending v ih => exact .results (ih fun x hx ↦ h x (.head (.result v) hx))
  | _ => exact .same (by simp [Value.sameAs])

theorem Acyclic.isSome_equal? (hs : s.Acyclic) (v w : Value) : (s.equal? v w).isSome := by
  refine isSome_equalWithin hs v w ?_
  have hle := s.card_below_le v
  have hsquare := Nat.le_mul_self s.cells.size
  omega

/-- Equal values without floats have one text. -/
theorem Acyclic.inspect?_eq (hs : s.Acyclic) (hv : s.FloatFree v)
    (h : s.equal? v w = some true) : s.inspect? v = s.inspect? w := by
  have hsquare := Nat.le_mul_self s.cells.size
  have hdepth : ∀ u, s.inspect? u = s.showWithin (s.cells.size * s.cells.size + 1) u := by
    intro u
    have hle := s.card_below_le u
    exact showWithin_eq hs u (by omega) (by omega)
  rw [hdepth, hdepth]
  exact showWithin_eq_of_equalWithin hv h

theorem exists_contains? {xs : List Value} (h : ∀ x ∈ xs, (s.equal? x v).isSome) :
    ∃ b : Bool, s.contains? v xs = some b ∧ (b = true ↔ ∃ x ∈ xs, s.equal? x v = some true) := by
  induction xs with
  | nil => exact ⟨false, rfl, by simp⟩
  | cons x xs ih =>
    obtain ⟨hx, hxs⟩ := List.forall_mem_cons.mp h
    obtain ⟨b, hb⟩ := Option.isSome_iff_exists.mp hx
    cases b with
    | false =>
      obtain ⟨b, hrest, hiff⟩ := ih hxs
      exact ⟨b, by simp [contains?, hb, hrest], by simp [hb, hiff]⟩
    | true => exact ⟨true, by simp [contains?, hb], by simp [hb]⟩

end Store

/-- In every store in which no array and no hash lies in itself, structural equality obeys its
laws. -/
theorem structural_equality {s : Store} (hs : s.Acyclic) : s.LawfulEquality where
  ends v w := Option.isSome_iff_exists.mp (hs.isSome_equal? v w)
  symm v w := by
    obtain ⟨b, hb⟩ := Option.isSome_iff_exists.mp (hs.isSome_equal? v w)
    obtain ⟨c, hc⟩ := Option.isSome_iff_exists.mp (hs.isSome_equal? w v)
    have hiff : s.equal? v w = some true ↔ s.equal? w v = some true :=
      ⟨Store.equalWithin_symm, Store.equalWithin_symm⟩
    rw [hb, hc, Option.some.injEq, Option.some.injEq] at hiff
    rw [hb, hc, Bool.eq_iff_iff.mpr hiff]
  trans u v w := Store.equalWithin_trans
  of_sameAs v w h := Store.equalWithin_succ_eq_true_iff.mpr (.same h)
  refl v h := Store.equalWithin_succ_eq_true_iff.mpr (Store.matches_self h)
  text v w hv h := by
    obtain ⟨text, htext⟩ := Option.isSome_iff_exists.mp (hs.isSome_inspect? v)
    exact ⟨text, htext, (hs.inspect?_eq hv h).symm.trans htext⟩
  contains id v := by
    have hends : ∀ x ∈ (s.elements id).toList, (s.equal? x v).isSome := fun x _ ↦
      hs.isSome_equal? x v
    obtain ⟨b, hb, hiff⟩ := Store.exists_contains? hends
    refine ⟨b, ?_, ?_⟩
    · show (Eval.ofOption _ >>= _) s = _
      rw [hb]
      rfl
    · rw [hiff]
      simp

/-- A store with two arrays of the same contents, and an array with a hash that holds the first. -/
def nestedStore : Store :=
  { Store.empty with
    cells := #[.array #[.int 1], .array #[.int 1],
      .hash [⟨⟨.integer, 2⟩, .int 2, .array ⟨0⟩⟩], .array #[.array ⟨0⟩, .hash ⟨2⟩]] }

/-- The outer array contains the array that it does not hold itself. -/
theorem structural_equality_nested :
    nestedStore.Acyclic ∧ nestedStore.LawfulEquality ∧
    nestedStore.equal? (.array ⟨0⟩) (.array ⟨1⟩) = some true ∧
    Builtin.contains (.array ⟨3⟩) (.array ⟨1⟩) nestedStore = .ok (.bool true) nestedStore := by
  have hstacked : nestedStore.Stacked := by
    intro i cell h
    rcases i with _ | _ | _ | _ | i <;> simp [nestedStore] at h <;> subst h <;>
      simp [Cell.Holds, Value.Before]
  have hlaws := structural_equality hstacked.acyclic
  exact ⟨hstacked.acyclic, hlaws, rfl, rfl⟩

end Treewalk
