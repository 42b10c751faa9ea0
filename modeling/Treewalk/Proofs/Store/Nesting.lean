import Mathlib.Data.Finset.Card
import Mathlib.Data.List.Forall2
import Mathlib.Logic.Relation
import Treewalk.Proofs.Store.Evolution
import Treewalk.Store.Show

/-!
# Values inside values

The parts of a value are the elements of an array, the keys and values of a hash and what a pending
return carries. A store is acyclic if no value lies inside itself. In such a store the number of
cells inside a value grows strictly from the parts of an array or a hash to the whole
(`Store.card_below_lt`), so it bounds how deep the value is nested, and every value has a text
(`Store.Acyclic.isSome_inspect?`). A store is acyclic if its cells hold references to earlier cells
only (`Store.Stacked.acyclic`).
-/

set_option autoImplicit false
set_option relaxedAutoImplicit false

namespace Treewalk

theorem Value.settled_settled (v : Value) : v.settled.settled = v.settled := by
  fun_induction Value.settled v with
  | case1 v ih => exact ih
  | case2 v hv =>
    unfold settled
    split
    next w => exact absurd rfl (hv w)
    next => rfl

theorem Value.settled_ne_pending (v w : Value) : v.settled ≠ .pending w := by
  fun_induction Value.settled v with
  | case1 v ih => exact ih
  | case2 v hv => exact hv w

/-- A value that refers to no cell from the given number on. -/
def Value.Before (n : Nat) : Value → Prop
  | .array id => id.index < n
  | .hash id => id.index < n
  | .pending v => v.Before n
  | _ => True

theorem Value.Before.mono {m n : Nat} {v : Value} (h : v.Before m) (hmn : m ≤ n) : v.Before n := by
  induction v with
  | array id => exact Nat.lt_of_lt_of_le h hmn
  | hash id => exact Nat.lt_of_lt_of_le h hmn
  | pending v ih => exact ih h
  | _ => trivial

namespace Store

/-! ### Parts -/

/-- The second value is a part of the first. -/
inductive Part (s : Store) : Value → Value → Prop where
  | element {id : CellId} {x : Value} : x ∈ s.elements id → Part s (.array id) x
  | key {id : CellId} {e : Entry} : e ∈ s.entries id → Part s (.hash id) e.key
  | value {id : CellId} {e : Entry} : e ∈ s.entries id → Part s (.hash id) e.value
  | result (v : Value) : Part s (.pending v) v

/-- The second value is the first or lies in it at any depth. -/
def Inside (s : Store) : Value → Value → Prop :=
  Relation.ReflTransGen s.Part

/-- No value lies in itself. -/
def Acyclic (s : Store) : Prop :=
  ∀ v : Value, ¬ Relation.TransGen s.Part v v

variable {s : Store} {v p : Value}

theorem inside_settled (s : Store) (v : Value) : s.Inside v v.settled := by
  fun_induction Value.settled v with
  | case1 v ih => exact .head (.result v) ih
  | case2 v hv => exact .refl

theorem Part.inside (h : s.Part v.settled p) : s.Inside v p :=
  .tail (s.inside_settled v) h

/-- The value that refers to a cell. -/
def ref (s : Store) (i : Nat) : Value :=
  match s.cells[i]? with
  | some (.hash _) => .hash ⟨i⟩
  | _ => .array ⟨i⟩

/-- What has parts is a pending return or refers to a cell that holds them. -/
theorem Part.exists_cell (h : s.Part v p) (hv : v ≠ .pending p) :
    ∃ (i : Nat) (cell : Cell), s.cells[i]? = some cell ∧ s.ref i = v ∧
      ∀ P : Value → Prop, cell.Holds P → P p := by
  cases h with
  | @element id x hx =>
    unfold elements at hx
    split at hx
    next xs hcell => exact ⟨id.index, .array xs, hcell, by rw [ref, hcell], fun P h ↦ h p hx⟩
    next => simp at hx
  | @key id e he =>
    unfold entries at he
    split at he
    next t hcell => exact ⟨id.index, .hash t, hcell, by rw [ref, hcell], fun P h ↦ (h e he).1⟩
    next => simp at he
  | @value id e he =>
    unfold entries at he
    split at he
    next t hcell => exact ⟨id.index, .hash t, hcell, by rw [ref, hcell], fun P h ↦ (h e he).2⟩
    next => simp at he
  | result v => exact absurd rfl hv

/-! ### Acyclic stores -/

/-- A store is acyclic if no cell lies in itself. -/
theorem acyclic_of_ref (h : ∀ i : Nat, ¬ Relation.TransGen s.Part (s.ref i) (s.ref i)) :
    s.Acyclic := by
  intro v
  induction v with
  | pending w ih =>
    intro hv
    obtain ⟨p, ⟨⟩, hback⟩ := Relation.TransGen.head'_iff.mp hv
    exact ih (.tail' hback (.result w))
  | _ =>
    intro hv
    obtain ⟨p, hp, -⟩ := Relation.TransGen.head'_iff.mp hv
    obtain ⟨i, -, -, href, -⟩ := hp.exists_cell nofun
    exact h i (href ▸ hv)

/-- Every cell refers to earlier cells only. -/
def Stacked (s : Store) : Prop :=
  ∀ (i : Nat) (cell : Cell), s.cells[i]? = some cell → cell.Holds (·.Before i)

theorem before_ref (s : Store) {i n : Nat} : (s.ref i).Before n ↔ i < n := by
  unfold ref
  split <;> rfl

theorem ref_ne_pending (s : Store) (i : Nat) (v : Value) : s.ref i ≠ .pending v := by
  unfold ref
  split <;> nofun

theorem ref_injective {i j : Nat} (h : s.ref i = s.ref j) : i = j := by
  refine Nat.le_antisymm (Nat.lt_succ_iff.mp ?_) (Nat.lt_succ_iff.mp ?_)
  · exact s.before_ref.mp (h ▸ s.before_ref.mpr (Nat.lt_succ_self j))
  · exact s.before_ref.mp (h ▸ s.before_ref.mpr (Nat.lt_succ_self i))

theorem Stacked.before_of_ref (hs : s.Stacked) {i : Nat} (h : s.Part (s.ref i) p) : p.Before i := by
  obtain ⟨j, cell, hcell, href, hholds⟩ := h.exists_cell (s.ref_ne_pending i p)
  obtain rfl := ref_injective href
  exact hholds _ (hs j cell hcell)

theorem Stacked.before_part (hs : s.Stacked) (h : s.Part v p) {n : Nat} (hv : v.Before n) :
    p.Before n := by
  by_cases hpending : v = .pending p
  · subst hpending
    exact hv
  · obtain ⟨i, -, -, rfl, -⟩ := h.exists_cell hpending
    exact (hs.before_of_ref h).mono (s.before_ref.mp hv).le

/-- A store is acyclic if every cell refers to earlier ones only. -/
theorem Stacked.acyclic (hs : s.Stacked) : s.Acyclic := by
  refine acyclic_of_ref fun i hi ↦ ?_
  have hbefore : ∀ p, Relation.TransGen s.Part (s.ref i) p → p.Before i := by
    intro p h
    induction h with
    | single h => exact hs.before_of_ref h
    | tail _ h ih => exact hs.before_part h ih
  exact Nat.lt_irrefl i (s.before_ref.mp (hbefore _ hi))

/-! ### Cells inside a value -/

open Classical in
/-- The cells inside a value. -/
noncomputable def below (s : Store) (v : Value) : Finset Nat :=
  {i ∈ Finset.range s.cells.size | s.Inside v (s.ref i)}

theorem mem_below {i : Nat} : i ∈ s.below v ↔ i < s.cells.size ∧ s.Inside v (s.ref i) := by
  simp [below]

theorem card_below_le (s : Store) (v : Value) : (s.below v).card ≤ s.cells.size := by
  classical
  exact (Finset.card_filter_le _ _).trans_eq (Finset.card_range _)

/-- A part of an array or a hash has fewer cells inside than the whole. -/
theorem card_below_lt (hs : s.Acyclic) (hp : s.Part v.settled p) :
    (s.below p).card < (s.below v).card := by
  obtain ⟨i, cell, hcell, href, -⟩ := hp.exists_cell (v.settled_ne_pending p)
  have hi : i < s.cells.size := (Array.getElem?_eq_some_iff.mp hcell).1
  have hsub : s.below p ⊆ s.below v := by
    intro j hj
    obtain ⟨hlt, hin⟩ := mem_below.mp hj
    exact mem_below.mpr ⟨hlt, hp.inside.trans hin⟩
  have hmem : i ∈ s.below v := mem_below.mpr ⟨hi, href ▸ s.inside_settled v⟩
  have hnot : i ∉ s.below p := by
    intro h
    have hback : s.Inside p v.settled := href ▸ (mem_below.mp h).2
    exact hs _ (.head' hp hback)
  exact Finset.card_lt_card ((Finset.ssubset_iff_of_subset hsub).mpr ⟨i, hmem, hnot⟩)

/-! ### Texts -/

/-- Lists are mapped to the same if their elements are, place by place. -/
theorem mapM_congr {α β γ : Type} {f : α → Option γ} {g : β → Option γ} {xs : List α} {ys : List β}
    (h : List.Forall₂ (fun x y ↦ f x = g y) xs ys) : xs.mapM f = ys.mapM g := by
  induction h with
  | nil => rfl
  | cons hxy _ ih => rw [List.mapM_cons, List.mapM_cons, hxy, ih]

theorem isSome_mapM {α β : Type} {f : α → Option β} {xs : List α}
    (h : ∀ x ∈ xs, (f x).isSome) : (xs.mapM f).isSome := by
  induction xs with
  | nil => rfl
  | cons x xs ih =>
    obtain ⟨hx, hxs⟩ := List.forall_mem_cons.mp h
    obtain ⟨y, hy⟩ := Option.isSome_iff_exists.mp hx
    obtain ⟨ys, hys⟩ := Option.isSome_iff_exists.mp (ih hxs)
    simp [List.mapM_cons, hy, hys]

theorem showWithin_settled (s : Store) (depth : Nat) (v : Value) :
    s.showWithin depth v.settled = s.showWithin depth v := by
  cases depth with
  | zero => rfl
  | succ depth =>
    unfold showWithin
    rw [v.settled_settled]

/-- A value has a text if its parts have. -/
theorem isSome_showWithin_succ {depth : Nat}
    (h : ∀ p, s.Part v.settled p → (s.showWithin depth p).isSome) :
    (s.showWithin (depth + 1) v).isSome := by
  unfold showWithin
  cases hv : v.settled with
  | array id =>
    rw [hv] at h
    rw [Option.isSome_map]
    exact isSome_mapM fun x hx ↦ h x (.element (Array.mem_toList_iff.mp hx))
  | hash id =>
    rw [hv] at h
    rw [Option.isSome_map]
    refine isSome_mapM fun e he ↦ ?_
    obtain ⟨key, hkey⟩ := Option.isSome_iff_exists.mp (h _ (.key he))
    obtain ⟨value, hvalue⟩ := Option.isSome_iff_exists.mp (h _ (.value he))
    simp [hkey, hvalue]
  | pending w => exact absurd hv (v.settled_ne_pending w)
  | int _ | float _ | str _ | bool _ | null | function _ | builtin _ | error _ => rfl

section Congruence

variable {depth depth' : Nat} {a b : CellId}

theorem showWithin_array_congr
    (h : List.Forall₂ (fun x y ↦ s.showWithin depth x = s.showWithin depth' y)
      (s.elements a).toList (s.elements b).toList) :
    s.showWithin (depth + 1) (.array a) = s.showWithin (depth' + 1) (.array b) :=
  congrArg (Option.map _) (mapM_congr h)

theorem showWithin_hash_congr
    (h : List.Forall₂ (fun d e ↦ s.showWithin depth d.key = s.showWithin depth' e.key ∧
        s.showWithin depth d.value = s.showWithin depth' e.value) (s.entries a) (s.entries b)) :
    s.showWithin (depth + 1) (.hash a) = s.showWithin (depth' + 1) (.hash b) := by
  refine congrArg (Option.map _) (mapM_congr (h.imp fun d e hde ↦ ?_))
  rw [hde.1, hde.2]

end Congruence

/-- A value has the same text at two depths if its parts have. -/
theorem showWithin_succ_congr {depth depth' : Nat}
    (h : ∀ p, s.Part v.settled p → s.showWithin depth p = s.showWithin depth' p) :
    s.showWithin (depth + 1) v = s.showWithin (depth' + 1) v := by
  rw [← showWithin_settled, ← showWithin_settled s (depth' + 1)]
  cases hv : v.settled with
  | array id =>
    rw [hv] at h
    refine showWithin_array_congr (List.forall₂_same.mpr fun x hx ↦ ?_)
    exact h x (.element (Array.mem_toList_iff.mp hx))
  | hash id =>
    rw [hv] at h
    refine showWithin_hash_congr (List.forall₂_same.mpr fun e he ↦ ?_)
    exact ⟨h _ (.key he), h _ (.value he)⟩
  | pending w => exact absurd hv (v.settled_ne_pending w)
  | _ => rfl

/-- The depth of the search makes no difference once it exceeds the number of cells inside. -/
theorem showWithin_eq (hs : s.Acyclic) {depth depth' : Nat} (v : Value)
    (h : (s.below v).card < depth) (h' : (s.below v).card < depth') :
    s.showWithin depth v = s.showWithin depth' v := by
  induction depth generalizing depth' v with
  | zero => omega
  | succ depth ih =>
    obtain ⟨depth', rfl⟩ : ∃ n, depth' = n + 1 := ⟨depth' - 1, by omega⟩
    refine showWithin_succ_congr fun p hp ↦ ?_
    have hlt := card_below_lt hs hp
    exact ih p (by omega) (by omega)

theorem isSome_showWithin (hs : s.Acyclic) {depth : Nat} (v : Value)
    (h : (s.below v).card < depth) : (s.showWithin depth v).isSome := by
  induction depth generalizing v with
  | zero => omega
  | succ depth ih =>
    refine isSome_showWithin_succ fun p hp ↦ ?_
    have hlt := card_below_lt hs hp
    exact ih p (by omega)

/-- In an acyclic store every value has a text. -/
theorem Acyclic.isSome_inspect? (hs : s.Acyclic) (v : Value) : (s.inspect? v).isSome :=
  isSome_showWithin hs v (Nat.lt_succ_of_le (s.card_below_le v))

end Store

end Treewalk
