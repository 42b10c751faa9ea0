import Treewalk.Value.Table

/-!
# Tables in order

A table is well formed when its entries stand in the strict order of their slots, so that no two
share a slot, and every entry stands under the key of the value written for it. Inserting an entry
and erasing a key keep a table well formed, and neither changes what is found under another key.
-/

set_option autoImplicit false
set_option relaxedAutoImplicit false

namespace Treewalk

/-! ### The order of keys -/

namespace Key

theorem lt_iff {j k : Key} :
    j < k ↔ j.kind.rank < k.kind.rank ∨ j.kind = k.kind ∧ j.bits < k.bits :=
  Iff.rfl

theorem lt_irrefl (k : Key) : ¬ k < k := by
  rw [lt_iff]
  rintro (h | ⟨-, h⟩)
  · exact Nat.lt_irrefl _ h
  · exact UInt64.lt_irrefl _ h

theorem lt_trans {i j k : Key} (hij : i < j) (hjk : j < k) : i < k := by
  rw [lt_iff] at hij hjk ⊢
  rcases hij with hij | ⟨hij, hb⟩
  · rcases hjk with hjk | ⟨hjk, -⟩
    · exact .inl (Nat.lt_trans hij hjk)
    · exact .inl (hjk ▸ hij)
  · rcases hjk with hjk | ⟨hjk, hb'⟩
    · exact .inl (hij ▸ hjk)
    · exact .inr ⟨hij.trans hjk, UInt64.lt_trans hb hb'⟩

theorem rank_injective {a b : KeyKind} (h : a.rank = b.rank) : a = b := by
  cases a <;> cases b <;> simp_all [KeyKind.rank]

/-- Of two different keys one comes before the other. -/
theorem lt_of_not_lt {j k : Key} (h : ¬ j < k) (hne : j ≠ k) : k < j := by
  rw [lt_iff] at h ⊢
  obtain ⟨hr, hb⟩ := not_or.mp h
  rcases Nat.lt_or_eq_of_le (Nat.le_of_not_lt hr) with hr | hr
  · exact .inl hr
  · have hk : k.kind = j.kind := rank_injective hr
    have hle : k.bits ≤ j.bits := UInt64.not_lt.mp fun hlt ↦ hb ⟨hk.symm, hlt⟩
    refine .inr ⟨hk, UInt64.lt_of_le_of_ne hle fun he ↦ hne ?_⟩
    cases j
    cases k
    simp_all

end Key

/-! ### Well-formed tables -/

namespace Table

/-- The entries stand in the strict order of their slots, each under the key of the value that was
written for it. -/
structure WellFormed (t : Table) : Prop where
  sorted : t.Pairwise fun a b ↦ a.slot < b.slot
  keyed : ∀ e ∈ t, Key.ofValue? e.key = some e.slot

theorem wellFormed_nil : WellFormed [] :=
  ⟨.nil, by simp⟩

theorem mem_insert {entry e : Entry} {t : Table} (h : e ∈ insert entry t) : e = entry ∨ e ∈ t := by
  fun_induction insert entry t <;> grind

theorem sorted_insert {entry : Entry} {t : Table} (h : t.Pairwise fun a b ↦ a.slot < b.slot) :
    (insert entry t).Pairwise fun a b ↦ a.slot < b.slot := by
  fun_induction insert entry t with
  | case1 => exact List.pairwise_singleton _ _
  | case2 e t hlt =>
    refine .cons (fun x hx ↦ ?_) h
    rcases List.mem_cons.mp hx with rfl | hx
    · exact hlt
    · exact Key.lt_trans hlt (List.rel_of_pairwise_cons h hx)
  | case3 e t hlt heq =>
    obtain ⟨he, ht⟩ := List.pairwise_cons.mp h
    exact .cons (fun x hx ↦ heq ▸ he x hx) ht
  | case4 e t hlt hne ih =>
    obtain ⟨he, ht⟩ := List.pairwise_cons.mp h
    refine .cons (fun x hx ↦ ?_) (ih ht)
    rcases mem_insert hx with rfl | hx
    · exact Key.lt_of_not_lt hlt hne
    · exact he x hx

theorem WellFormed.insert {entry : Entry} {t : Table} (h : t.WellFormed)
    (he : Key.ofValue? entry.key = some entry.slot) : (Table.insert entry t).WellFormed := by
  refine ⟨sorted_insert h.sorted, fun e hm ↦ ?_⟩
  rcases mem_insert hm with rfl | hm
  · exact he
  · exact h.keyed e hm

theorem WellFormed.erase {t : Table} (h : t.WellFormed) (k : Key) : (t.erase k).WellFormed :=
  ⟨h.sorted.filter _, fun e hm ↦ h.keyed e (List.mem_filter.mp hm).1⟩

/-! ### Looking up -/

theorem get?_insert (entry : Entry) (t : Table) (k : Key) :
    (insert entry t).get? k = if k = entry.slot then some entry else t.get? k := by
  fun_induction insert entry t <;> grind [get?]

/-- Every entry of a well-formed table is what is found under its slot. -/
theorem WellFormed.get?_slot {t : Table} (h : t.WellFormed) {e : Entry} (he : e ∈ t) :
    t.get? e.slot = some e := by
  have hs := h.sorted
  clear h
  induction t with
  | nil => simp at he
  | cons a t ih =>
    obtain ⟨ha, ht⟩ := List.pairwise_cons.mp hs
    rcases List.mem_cons.mp he with rfl | he
    · simp [get?]
    · have hne : a.slot ≠ e.slot := fun h ↦ Key.lt_irrefl _ (h ▸ ha e he)
      simpa [get?, hne] using ih he ht

end Table

end Treewalk
