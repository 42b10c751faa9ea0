import Mathlib.Data.List.Sort
import Treewalk.Proofs.Eval.Keys

/-!
# Updates of a hash in any order

A table in order is determined by what is found under each key. Hence updates of a hash under
different keys may be made in any order (`Table.changeAll_perm`), and the table that a list of
entries makes holds, under each key, the last of them with that key. A literal and stores into a new
hash, one for each entry, come to the same table (`Table.madeFrom_insertAll`), so it depends on the
order of the entries only where they share a key.
-/

set_option autoImplicit false
set_option relaxedAutoImplicit false

namespace Treewalk

/-! ### Tables with the same entries -/

namespace Table

theorem mem_of_get? {t : Table} {k : Key} {e : Entry} (h : t.get? k = some e) :
    e ∈ t ∧ e.slot = k :=
  ⟨List.mem_of_find?_eq_some h, by simpa using List.find?_some h⟩

theorem WellFormed.mem_iff {t : Table} (ht : t.WellFormed) (e : Entry) :
    e ∈ t ↔ t.get? e.slot = some e :=
  ⟨ht.get?_slot, fun h ↦ (mem_of_get? h).1⟩

/-- Tables in order are the same if the same is found in them. -/
theorem WellFormed.ext {t u : Table} (ht : t.WellFormed) (hu : u.WellFormed)
    (h : ∀ k, t.get? k = u.get? k) : t = u := by
  have hirrefl : Std.Irrefl fun a b : Entry ↦ a.slot < b.slot := ⟨fun e ↦ Key.lt_irrefl e.slot⟩
  have hasymm : Std.Antisymm fun a b : Entry ↦ a.slot < b.slot :=
    ⟨fun a b hab hba ↦ absurd (Key.lt_trans hab hba) (Key.lt_irrefl a.slot)⟩
  refine ht.sorted.eq_of_mem_iff hu.sorted fun e ↦ ?_
  rw [ht.mem_iff, hu.mem_iff, h]

end Table

/-! ### Updates -/

/-- A store into a hash or a deletion from it. -/
inductive Update where
  | put (key value : Value)
  | remove (key : Value)

namespace Update

/-- The value that an update names as its key. -/
def key : Update → Value
  | put k _ => k
  | remove k => k

/-- Makes an update of a hash. -/
def perform (id : CellId) : Update → Eval Unit
  | put k v => Eval.store (.hash id) k v
  | remove k => discard (Builtin.delete (.hash id) k)

/-- What an update leaves under its key. -/
def left (slot : Key) : Update → Option Entry
  | put k v => some ⟨slot, k, v⟩
  | remove _ => none

/-- What an update makes of a table under a key. -/
def changeAt (slot : Key) : Update → Table → Table
  | put k v => Table.insert ⟨slot, k, v⟩
  | remove _ => fun t ↦ t.erase slot

/-- What an update makes of a table; it leaves it as it is if its value cannot be a key. -/
def change (u : Update) : Table → Table :=
  match Key.ofValue? u.key with
  | some slot => u.changeAt slot
  | none => fun t ↦ t

variable {u v : Update} {slot : Key}

theorem change_of_some (h : Key.ofValue? u.key = some slot) : u.change = u.changeAt slot := by
  rw [change, h]

theorem change_of_none (h : Key.ofValue? u.key = none) (t : Table) : u.change t = t := by
  rw [change, h]

theorem get?_change (h : Key.ofValue? u.key = some slot) (t : Table) (k : Key) :
    (u.change t).get? k = if k = slot then u.left slot else t.get? k := by
  rw [change_of_some h]
  cases u with
  | put key value => exact Table.get?_insert _ t k
  | remove key => exact Table.get?_erase t slot k

theorem wellFormed_change (u : Update) {t : Table} (ht : t.WellFormed) :
    (u.change t).WellFormed := by
  cases h : Key.ofValue? u.key with
  | none => rwa [change_of_none h]
  | some slot =>
    rw [change_of_some h]
    cases u with
    | put key value => exact ht.insert h
    | remove key => exact ht.erase slot

/-- Two updates under different keys may change places. -/
theorem change_comm {t : Table} (ht : t.WellFormed)
    (h : Key.ofValue? u.key ≠ Key.ofValue? v.key) :
    u.change (v.change t) = v.change (u.change t) := by
  cases hu : Key.ofValue? u.key with
  | none => rw [change_of_none hu, change_of_none hu]
  | some i =>
    cases hv : Key.ofValue? v.key with
    | none => rw [change_of_none hv, change_of_none hv]
    | some j =>
      have hij : i ≠ j := fun hij ↦ h (by rw [hu, hv, hij])
      have hl := u.wellFormed_change (v.wellFormed_change ht)
      have hr := v.wellFormed_change (u.wellFormed_change ht)
      refine hl.ext hr fun k ↦ ?_
      simp only [get?_change hu, get?_change hv]
      by_cases hk : k = i
      · simp [hk, hij]
      · simp [hk]

/-- An update of a hash whose key can be one changes its table and nothing else. -/
theorem perform_eq (id : CellId) (h : (Key.ofValue? u.key).isSome) (s : Store) :
    u.perform id s = .ok ⟨⟩ (s.modifyEntries id u.change) := by
  obtain ⟨slot, hslot⟩ := Option.isSome_iff_exists.mp h
  rw [change_of_some hslot]
  cases u with
  | put k v =>
    have hk : Eval.keyOf k = .ok slot := Eval.keyOf_eq hslot
    show (Eval.ofExcept (Eval.keyOf k) >>= _) s = _
    rw [hk]
    rfl
  | remove k =>
    have hk : Key.ofValue? k = some slot := hslot
    simp only [perform, Builtin.delete, hk]
    rfl

end Update

/-! ### Updates one after the other -/

namespace Table

/-- The table with updates made one after the other. -/
def changeAll (t : Table) (us : List Update) : Table :=
  us.foldl (fun t u ↦ u.change t) t

/-- Updates under different keys come to the same table in any order. -/
theorem changeAll_perm {us vs : List Update} (hp : us.Perm vs)
    (h : us.Pairwise fun u v ↦ Key.ofValue? u.key ≠ Key.ofValue? v.key) {t : Table}
    (ht : t.WellFormed) : t.changeAll us = t.changeAll vs := by
  induction hp generalizing t with
  | nil => rfl
  | cons u _ ih => exact ih h.of_cons (u.wellFormed_change ht)
  | swap u v us =>
    have hne : Key.ofValue? v.key ≠ Key.ofValue? u.key := List.rel_of_pairwise_cons h (by simp)
    show changeAll (u.change (v.change t)) us = changeAll (v.change (u.change t)) us
    rw [Update.change_comm ht hne.symm]
  | trans hp _ ih₁ ih₂ =>
    exact (ih₁ h ht).trans (ih₂ (hp.pairwise h fun hne ↦ hne.symm) ht)

end Table

namespace Store

theorem ext_cells (s : Store) {xs ys : Array Cell} (h : ∀ i : Nat, xs[i]? = ys[i]?) :
    { s with cells := xs } = { s with cells := ys } := by
  rw [Array.ext_getElem? h]

theorem modifyCell_id (s : Store) (id : CellId) : s.modifyCell id (fun c ↦ c) = s := by
  refine s.ext_cells fun i ↦ ?_
  rw [Array.getElem?_modify]
  simp

/-- A change of a cell depends on what it makes of its contents only. -/
theorem modifyCell_congr {s : Store} {id : CellId} {f g : Cell → Cell}
    (h : ∀ c, s.cells[id.index]? = some c → f c = g c) : s.modifyCell id f = s.modifyCell id g := by
  refine s.ext_cells fun i ↦ ?_
  rw [Array.getElem?_modify, Array.getElem?_modify]
  by_cases hi : id.index = i
  · subst hi
    rw [if_pos rfl, if_pos rfl]
    exact Option.map_congr h
  · rw [if_neg hi, if_neg hi]

theorem modifyCell_modifyCell (s : Store) (id : CellId) (f g : Cell → Cell) :
    (s.modifyCell id f).modifyCell id g = s.modifyCell id (g ∘ f) := by
  refine s.ext_cells fun i ↦ ?_
  simp only [modifyCell, Array.getElem?_modify]
  by_cases hi : id.index = i
  · simp [hi]
  · simp [hi]

theorem modifyCell_allocate (s : Store) (cell : Cell) (f : Cell → Cell) :
    (s.allocate cell).2.modifyCell (s.allocate cell).1 f = (s.allocate (f cell)).2 := by
  refine s.ext_cells fun i ↦ ?_
  simp only [allocate, Array.getElem?_modify, Array.getElem?_push]
  by_cases hi : s.cells.size = i
  · simp [hi]
  · simp [hi, Ne.symm hi]

theorem modifyEntries_id (s : Store) (id : CellId) : s.modifyEntries id (fun t ↦ t) = s := by
  refine Eq.trans (modifyCell_congr fun c _ ↦ ?_) (s.modifyCell_id id)
  cases c <;> rfl

theorem modifyEntries_modifyEntries (s : Store) (id : CellId) (f g : Table → Table) :
    (s.modifyEntries id f).modifyEntries id g = s.modifyEntries id fun t ↦ g (f t) := by
  refine (s.modifyCell_modifyCell id _ _).trans (modifyCell_congr fun c _ ↦ ?_)
  cases c <;> rfl

theorem modifyEntries_congr {s : Store} {id : CellId} {t : Table}
    (hid : s.cells[id.index]? = some (.hash t)) {f g : Table → Table} (h : f t = g t) :
    s.modifyEntries id f = s.modifyEntries id g := by
  refine modifyCell_congr fun c hc ↦ ?_
  obtain rfl := Option.some.inj (hid.symm.trans hc)
  exact congrArg Cell.hash h

end Store

/-- Updates of a hash that all have keys change its table and nothing else. -/
theorem Update.perform_all (id : CellId) {us : List Update}
    (h : ∀ u ∈ us, (Key.ofValue? u.key).isSome) (s : Store) :
    forM us (Update.perform id) s = .ok ⟨⟩ (s.modifyEntries id fun t ↦ t.changeAll us) := by
  induction us generalizing s with
  | nil => exact congrArg _ (s.modifyEntries_id id).symm
  | cons u us ih =>
    obtain ⟨hu, hus⟩ := List.forall_mem_cons.mp h
    rw [List.forM_cons, run_bind, perform_eq id hu]
    exact (ih hus _).trans (congrArg _ (s.modifyEntries_modifyEntries id _ _))

/-! ### Hashes from entries -/

/-- The store that puts an entry in. -/
def Entry.update (e : Entry) : Update :=
  .put e.key e.value

namespace Table

theorem changeAll_update {es : List Entry} (h : ∀ e ∈ es, Key.ofValue? e.key = some e.slot)
    (t : Table) : t.changeAll (es.map Entry.update) = t.insertAll es := by
  induction es generalizing t with
  | nil => rfl
  | cons e es ih =>
    obtain ⟨he, hes⟩ := List.forall_mem_cons.mp h
    have hchange : e.update.change t = Table.insert e t := by
      rw [Update.change_of_some (u := e.update) he]
      rfl
    show changeAll (e.update.change t) (es.map Entry.update) = insertAll (Table.insert e t) es
    rw [hchange, ih hes]

theorem wellFormed_changeAll (us : List Update) {t : Table} (ht : t.WellFormed) :
    (t.changeAll us).WellFormed := by
  induction us generalizing t with
  | nil => exact ht
  | cons u us ih => exact ih (u.wellFormed_change ht)

theorem wellFormed_insertAll {es : List Entry} (h : ∀ e ∈ es, Key.ofValue? e.key = some e.slot)
    {t : Table} (ht : t.WellFormed) : (t.insertAll es).WellFormed := by
  rw [← changeAll_update h]
  exact wellFormed_changeAll _ ht

/-- Entries under different keys come to the same table in any order. -/
theorem insertAll_perm {es es' : List Entry} (hp : es'.Perm es)
    (h : ∀ e ∈ es, Key.ofValue? e.key = some e.slot) (hes : (es.map Entry.slot).Nodup) {t : Table}
    (ht : t.WellFormed) : t.insertAll es' = t.insertAll es := by
  have hne : (es.map Entry.update).Pairwise fun u v ↦ Key.ofValue? u.key ≠ Key.ofValue? v.key := by
    refine List.pairwise_map.mpr ((List.pairwise_map.mp hes).imp_of_mem fun {e f} he hf hef ↦ ?_)
    show Key.ofValue? e.key ≠ Key.ofValue? f.key
    rw [h e he, h f hf]
    exact fun heq ↦ hef (Option.some.inj heq)
  rw [← changeAll_update h, ← changeAll_update fun e he ↦ h e (hp.mem_iff.mp he)]
  exact (changeAll_perm (hp.symm.map Entry.update) hne ht).symm

/-- Under each key there is the last of the entries put in with that key, if there is one. -/
theorem get?_insertAll_eq (t : Table) (es : List Entry) (slot : Key) :
    (t.insertAll es).get? slot =
      (es.reverse.find? fun e ↦ e.slot = slot).or (t.get? slot) := by
  induction es generalizing t with
  | nil => rfl
  | cons e es ih =>
    show ((Table.insert e t).insertAll es).get? slot = _
    rw [ih, get?_insert, List.reverse_cons, List.find?_append, Option.or_assoc]
    by_cases h : slot = e.slot
    · simp [h]
    · simp [h, Ne.symm h]

end Table

/-- Makes a hash and stores entries into it, one after the other. -/
def Eval.storeAll (es : List Entry) : Eval Value := do
  let v ← newHash []
  forM es fun e ↦ store v e.key e.value
  return v

/-- A new hash with the table is what either way to make a hash from entries comes to: a literal
whose pairs have these entries, and stores of them into an empty hash. -/
structure Table.MadeFrom (table : Table) (es : List Entry) : Prop where
  literal : ∀ (known : List Builtin) (depth : Nat) (scope : ScopeId) (position : Position)
      (pairs : List (Expr × Expr)) (s t : Store),
    Eval.literal known depth scope pairs s = .ok es t →
      Eval.expr known (depth + 1) scope (.hash position pairs) s = Eval.newHash table t
  stores : ∀ s : Store, Eval.storeAll es s = Eval.newHash table s

theorem Eval.forM_store (id : CellId) {es : List Entry}
    (h : ∀ e ∈ es, Key.ofValue? e.key = some e.slot) (s : Store) :
    forM es (fun e ↦ Eval.store (.hash id) e.key e.value) s =
      .ok ⟨⟩ (s.modifyEntries id fun t ↦ t.insertAll es) := by
  have hkeys : ∀ u ∈ es.map Entry.update, (Key.ofValue? u.key).isSome := by
    intro u hu
    obtain ⟨e, he, rfl⟩ := List.mem_map.mp hu
    exact Option.isSome_of_eq_some (h e he)
  have hall := Update.perform_all id hkeys s
  simp only [List.forM_map, Table.changeAll_update h] at hall
  exact hall

theorem Eval.storeAll_eq {es : List Entry} (h : ∀ e ∈ es, Key.ofValue? e.key = some e.slot)
    (s : Store) : Eval.storeAll es s = Eval.newHash (Table.insertAll [] es) s := by
  let id := (s.allocate (.hash [])).1
  have hnew : Eval.newHash [] s = .ok (Value.hash id) (s.allocate (.hash [])).2 := rfl
  have hstores := Eval.forM_store id h (s.allocate (.hash [])).2
  rw [Store.modifyEntries, s.modifyCell_allocate] at hstores
  simp only [Eval.storeAll, run_bind, hnew, hstores]
  rfl

theorem Table.madeFrom_insertAll {es : List Entry}
    (h : ∀ e ∈ es, Key.ofValue? e.key = some e.slot) : (Table.insertAll [] es).MadeFrom es where
  literal known depth scope position pairs s t hes := by
    rw [Eval.expr_hash, run_bind, hes]
  stores := Eval.storeAll_eq h

/-- In a hash in order, updates under different keys come to the same store in whatever order they
are made. Entries come to one table, which holds under each key the last of them with that key; a
literal and stores into an empty hash both make a new hash with it. If no two of the entries share a
key, they do so in every order, so that the hash prints alike and has the same keys and values. -/
theorem hash_any_order :
    (∀ (s : Store) (id : CellId) (t : Table), s.cells[id.index]? = some (.hash t) →
      t.WellFormed → ∀ us vs : List Update, us.Perm vs →
        (∀ u ∈ us, (Key.ofValue? u.key).isSome) →
        us.Pairwise (fun u v ↦ Key.ofValue? u.key ≠ Key.ofValue? v.key) →
          ∃ s' : Store, forM us (Update.perform id) s = .ok ⟨⟩ s' ∧
            forM vs (Update.perform id) s = .ok ⟨⟩ s') ∧
    ∀ es : List Entry, (∀ e ∈ es, Key.ofValue? e.key = some e.slot) →
      ∃ table : Table, table.WellFormed ∧
        (∀ slot, table.get? slot = es.reverse.find? fun e ↦ e.slot = slot) ∧
        table.MadeFrom es ∧
        ((es.map Entry.slot).Nodup → ∀ es' : List Entry, es'.Perm es → table.MadeFrom es') := by
  constructor
  · intro s id t hid ht us vs hp hkeys hne
    have hkeys' : ∀ v ∈ vs, (Key.ofValue? v.key).isSome := fun v hv ↦ hkeys v (hp.mem_iff.mpr hv)
    refine ⟨_, Update.perform_all id hkeys s, (Update.perform_all id hkeys' s).trans ?_⟩
    exact congrArg _ (Store.modifyEntries_congr hid (Table.changeAll_perm hp hne ht).symm)
  · intro es hes
    refine ⟨Table.insertAll [] es, Table.wellFormed_insertAll hes Table.wellFormed_nil,
      fun slot ↦ ?_, Table.madeFrom_insertAll hes, fun hnodup es' hp ↦ ?_⟩
    · rw [Table.get?_insertAll_eq]
      exact Option.or_none
    · rw [← Table.insertAll_perm hp hes hnodup Table.wellFormed_nil]
      exact Table.madeFrom_insertAll fun e he ↦ hes e (hp.mem_iff.mp he)

/-- A store and a deletion in either order, and a hash made from two entries in either order. -/
theorem hash_any_order_signed :
    (∃ s : Store,
      forM [.put (.int 7) .null, .remove (.int (-1))] (Update.perform ⟨0⟩) signedStore = .ok ⟨⟩ s ∧
      forM [.remove (.int (-1)), .put (.int 7) .null] (Update.perform ⟨0⟩) signedStore =
        .ok ⟨⟩ s) ∧
    ∃ table : Table, table.MadeFrom signedTable ∧ table.MadeFrom signedTable.reverse := by
  have hkeyed : ∀ e ∈ signedTable, Key.ofValue? e.key = some e.slot := by
    simp [signedTable]
    decide
  have hsorted : signedTable.Pairwise fun a b ↦ a.slot < b.slot := by
    simp [signedTable]
    decide
  obtain ⟨hupdates, hentries⟩ := hash_any_order
  constructor
  · refine hupdates signedStore ⟨0⟩ signedTable rfl ⟨hsorted, hkeyed⟩ _ _ (.swap _ _ []) ?_ ?_
    · simp [Update.key, Key.ofValue?]
    · simp [Update.key, Key.ofValue?]
      decide
  · obtain ⟨table, -, -, hmade, hperm⟩ := hentries signedTable hkeyed
    exact ⟨table, hmade, hperm (by simp [signedTable]) _ signedTable.reverse_perm⟩

end Treewalk
