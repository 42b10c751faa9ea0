import Treewalk.Proofs.Eval.Confinement

/-!
# Hashes stay in order

Whatever is evaluated, starting from a store without hashes, the table of every hash stays well
formed. So the length of a hash and its lists of keys and values agree with each other and with what
is found under its keys. Storing and deleting under a key leaves what is found under another key as
it was, if the two are of different kinds, different integers or different booleans.
-/

set_option autoImplicit false
set_option relaxedAutoImplicit false

namespace Treewalk

/-- Stores that come from one without hashes by making scopes, binding names and evaluating
programs, statements and expressions, in any order and in any scopes. -/
inductive Reachable : Store → Prop where
  | start {s : Store} : (∀ cell ∈ s.cells, ∀ t : Table, cell ≠ .hash t) → Reachable s
  | openGlobal {s : Store} : Reachable s → Reachable s.openGlobal.2
  | enclose {s : Store} (outer : ScopeId) : Reachable s → Reachable (s.enclose outer).2
  | bind {s : Store} (id : ScopeId) (name : String) (v : Value) :
      Reachable s → Reachable (s.bind id name v)
  | expr {s : Store} (known : List Builtin) (depth : Nat) (scope : ScopeId) (e : Expr) :
      Reachable s → Reachable (after (Eval.expr known depth scope e) s)
  | stmt {s : Store} (known : List Builtin) (depth : Nat) (scope : ScopeId) (statement : Stmt) :
      Reachable s → Reachable (after (Eval.stmt known depth scope statement) s)
  | program {s : Store} (known : List Builtin) (depth : Nat) (scope : ScopeId) (program : Program) :
      Reachable s → Reachable (after (Eval.program known depth scope program) s)

/-- Two values that are never found under the same key. -/
inductive Value.Apart : Value → Value → Prop where
  | kind {v w : Value} : v.kind ≠ w.kind → Apart v w
  | int {a b : Int64} : a ≠ b → Apart (.int a) (.int b)
  | bool {a b : Bool} : a ≠ b → Apart (.bool a) (.bool b)

/-- The kind of the values with keys of a kind. -/
def KeyKind.toValueKind : KeyKind → ValueKind
  | integer => .integer
  | float => .float
  | string => .string
  | boolean => .boolean

/-! ### Order of the tables -/

theorem Store.ordered_of_forall_ne_hash {s : Store}
    (h : ∀ cell ∈ s.cells, ∀ t : Table, cell ≠ .hash t) : s.Ordered := by
  intro cell hc
  cases cell with
  | array xs => trivial
  | hash t => exact absurd rfl (h _ hc t)

theorem Reachable.ordered {s : Store} (h : Reachable s) : s.Ordered := by
  induction h with
  | start h => exact Store.ordered_of_forall_ne_hash h
  | openGlobal _ ih => exact ih
  | enclose outer _ ih => exact ih
  | bind id name v _ ih => exact ih
  | @expr s known depth scope e _ ih =>
    have h := (Eval.confinedAt lasting_true known depth).expr scope e
    exact (h.evolves s.holds_true).ordered ih
  | @stmt s known depth scope statement _ ih =>
    have h := (Eval.confinedAt lasting_true known depth).stmt scope statement
    exact (h.evolves s.holds_true).ordered ih
  | @program s known depth scope program _ ih =>
    have h := Eval.confined_program lasting_true known depth scope program
    exact (h.evolves s.holds_true).ordered ih

/-! ### Looking up a key -/

theorem Eval.keyOf_eq {k : Value} {slot : Key} (h : Key.ofValue? k = some slot) :
    Eval.keyOf k = .ok slot := by
  rw [Eval.keyOf, h]

theorem Eval.index_hash (s : Store) (id : CellId) {k : Value} {slot : Key}
    (h : Key.ofValue? k = some slot) :
    Eval.index (.hash id) k s = .ok (((s.entries id).get? slot).elim .null Entry.value) s := by
  show (Eval.ofExcept (Eval.keyOf k) >>= _) s = _
  rw [Eval.keyOf_eq h]
  rfl

theorem Eval.index_hash_of_none (s : Store) (id : CellId) {k : Value}
    (h : Key.ofValue? k = none) :
    Eval.index (.hash id) k s = .error (.failed (.unusableKey k.kind)) s := by
  show (Eval.ofExcept (Eval.keyOf k) >>= _) s = _
  rw [Eval.keyOf, h]
  rfl

theorem Builtin.contains_hash (s : Store) (id : CellId) {k : Value} {slot : Key}
    (h : Key.ofValue? k = some slot) :
    Builtin.contains (.hash id) k s = .ok (.bool ((s.entries id).get? slot).isSome) s := by
  simp [Builtin.contains, h]

theorem Builtin.contains_hash_of_none (s : Store) (id : CellId) {k : Value}
    (h : Key.ofValue? k = none) :
    Builtin.contains (.hash id) k s = .ok (Misuse.unusableKey k.kind).value s := by
  simp [Builtin.contains, h]

namespace Store

section Cells

variable {s : Store} {id : CellId}

theorem entries_of_cell {t : Table} (h : s.cells[id.index]? = some (.hash t)) :
    s.entries id = t := by
  rw [entries, h]

/-- A new cell leaves the ones that are there. -/
theorem cell_allocate {cell c : Cell} (h : s.cells[id.index]? = some c) :
    (s.allocate cell).2.cells[id.index]? = some c := by
  obtain ⟨hi, rfl⟩ := Array.getElem?_eq_some_iff.mp h
  exact Array.getElem?_push_lt hi

theorem cell_allocate_new (s : Store) (cell : Cell) :
    (s.allocate cell).2.cells[(s.allocate cell).1.index]? = some cell :=
  Array.getElem?_push_size

theorem elements_of_cell {xs : Array Value} (h : s.cells[id.index]? = some (.array xs)) :
    s.elements id = xs := by
  rw [elements, h]

/-- A change of the entries of a hash is a change of its table. -/
theorem cell_modifyEntries {t : Table} (h : s.cells[id.index]? = some (.hash t))
    (f : Table → Table) : (s.modifyEntries id f).cells[id.index]? = some (.hash (f t)) := by
  rw [modifyEntries, modifyCell, Array.getElem?_modify, if_pos rfl, h]
  rfl

end Cells

/-- Looking up a key in a hash has the same outcome in both stores. -/
def SameLookup (s t : Store) (id : CellId) (k : Value) : Prop :=
  answer (Eval.index (.hash id) k) t = answer (Eval.index (.hash id) k) s ∧
    answer (Builtin.contains (.hash id) k) t = answer (Builtin.contains (.hash id) k) s

theorem sameLookup_of_get? {s t : Store} {id : CellId} {k : Value}
    (h : ∀ slot, Key.ofValue? k = some slot →
      (t.entries id).get? slot = (s.entries id).get? slot) : s.SameLookup t id k := by
  unfold SameLookup answer
  cases hk : Key.ofValue? k with
  | some slot =>
    simp only [Eval.index_hash _ id hk, Builtin.contains_hash _ id hk, h slot hk, and_self]
  | none =>
    simp only [Eval.index_hash_of_none _ id hk, Builtin.contains_hash_of_none _ id hk, and_self]

end Store

/-! ### Changing another key -/

theorem Key.kind_of_ofValue? {v : Value} {slot : Key} (h : Key.ofValue? v = some slot) :
    v.kind = slot.kind.toValueKind := by
  cases v <;> cases h <;> rfl

/-- Values that are apart have different keys. -/
theorem Value.Apart.slot_ne {v w : Value} (h : v.Apart w) {j k : Key}
    (hj : Key.ofValue? v = some j) (hk : Key.ofValue? w = some k) : j ≠ k := by
  rintro rfl
  cases h with
  | kind hne => exact hne ((Key.kind_of_ofValue? hj).trans (Key.kind_of_ofValue? hk).symm)
  | @int a b hne =>
    have hbits : a.toUInt64 = b.toUInt64 := congrArg Key.bits (Option.some.inj (hj.trans hk.symm))
    exact hne (congrArg Int64.ofUInt64 hbits)
  | @bool a b hne =>
    have hbits := congrArg Key.bits (Option.some.inj (hj.trans hk.symm))
    cases a <;> cases b <;> simp_all

theorem Eval.after_store_hash (s : Store) (id : CellId) (k v : Value) :
    after (Eval.store (.hash id) k v) s =
      match Key.ofValue? k with
      | some slot => s.modifyEntries id (Table.insert ⟨slot, k, v⟩)
      | none => s := by
  show after (Eval.ofExcept (Eval.keyOf k) >>= _) s = _
  unfold Eval.keyOf
  cases Key.ofValue? k <;> rfl

theorem Builtin.after_delete_hash (s : Store) (id : CellId) (k : Value) :
    after (Builtin.delete (.hash id) k) s =
      match Key.ofValue? k with
      | some slot => s.modifyEntries id fun t ↦ t.erase slot
      | none => s := by
  unfold Builtin.delete
  cases Key.ofValue? k <;> rfl

section Others

variable {s : Store} {id : CellId} {t : Table} {k l : Value}

/-- Storing under a key leaves what is found under values with other keys. -/
theorem Eval.sameLookup_store_of_slot_ne (hid : s.cells[id.index]? = some (.hash t))
    (h : ∀ i j, Key.ofValue? k = some i → Key.ofValue? l = some j → i ≠ j) (v : Value) :
    s.SameLookup (after (Eval.store (.hash id) k v) s) id l := by
  rw [Eval.after_store_hash]
  refine Store.sameLookup_of_get? fun slot hslot ↦ ?_
  split
  next j hj =>
    rw [Store.entries_of_cell (Store.cell_modifyEntries hid _), Store.entries_of_cell hid,
      Table.get?_insert, if_neg (h j slot hj hslot).symm]
  next => rfl

/-- So does deleting. -/
theorem Builtin.sameLookup_delete_of_slot_ne (hid : s.cells[id.index]? = some (.hash t))
    (h : ∀ i j, Key.ofValue? k = some i → Key.ofValue? l = some j → i ≠ j) :
    s.SameLookup (after (Builtin.delete (.hash id) k) s) id l := by
  rw [Builtin.after_delete_hash]
  refine Store.sameLookup_of_get? fun slot hslot ↦ ?_
  split
  next j hj =>
    rw [Store.entries_of_cell (Store.cell_modifyEntries hid _), Store.entries_of_cell hid,
      Table.get?_erase, if_neg (h j slot hj hslot).symm]
  next => rfl

theorem Eval.sameLookup_store (hid : s.cells[id.index]? = some (.hash t)) (h : k.Apart l)
    (v : Value) : s.SameLookup (after (Eval.store (.hash id) k v) s) id l :=
  Eval.sameLookup_store_of_slot_ne hid (fun _ _ ↦ h.slot_ne) v

theorem Builtin.sameLookup_delete (hid : s.cells[id.index]? = some (.hash t)) (h : k.Apart l) :
    s.SameLookup (after (Builtin.delete (.hash id) k) s) id l :=
  Builtin.sameLookup_delete_of_slot_ne hid fun _ _ ↦ h.slot_ne

end Others

/-! ### Listing keys and values -/

/-- Two arrays list the keys and the values of a hash with `n` entries: they have as many elements
as the hash has entries, and under each key the value at the same place is found. -/
structure Store.Lists (s : Store) (id keys values : CellId) (n : Nat) : Prop where
  len : Builtin.len (.hash id) s = .ok (.int (Word.ofCount n)) s
  size_keys : (s.elements keys).size = n
  size_values : (s.elements values).size = n
  index : ∀ (i : Nat) (k v : Value), (s.elements keys)[i]? = some k →
    (s.elements values)[i]? = some v → Eval.index (.hash id) k s = .ok v s
  contains : ∀ k ∈ s.elements keys, Builtin.contains (.hash id) k s = .ok (.bool true) s

theorem Store.lists_of_wellFormed {s : Store} {id keys values : CellId} {t : Table}
    (ht : t.WellFormed) (hid : s.cells[id.index]? = some (.hash t))
    (hkeys : s.elements keys = (t.map Entry.key).toArray)
    (hvalues : s.elements values = (t.map Entry.value).toArray) :
    s.Lists id keys values t.length := by
  have hentries := Store.entries_of_cell hid
  refine ⟨?_, by simp [hkeys], by simp [hvalues], fun i k v hk hv ↦ ?_, fun k hk ↦ ?_⟩
  · rw [← hentries]
    rfl
  · rw [hkeys, List.getElem?_toArray, List.getElem?_map] at hk
    rw [hvalues, List.getElem?_toArray, List.getElem?_map] at hv
    obtain ⟨e, he, rfl⟩ := Option.map_eq_some_iff.mp hk
    rw [he] at hv
    obtain rfl := Option.some.inj hv
    have hmem := List.mem_of_getElem? he
    rw [Eval.index_hash s id (ht.keyed e hmem), hentries, ht.get?_slot hmem]
    rfl
  · rw [hkeys] at hk
    obtain ⟨e, he, rfl⟩ := List.mem_map.mp (List.mem_toArray.mp hk)
    rw [Builtin.contains_hash s id (ht.keyed e he), hentries, ht.get?_slot he]
    rfl

/-- Listing the keys of a hash and then its values makes two arrays with them. -/
theorem Store.exists_lists {s : Store} {id : CellId} {t : Table} (ht : t.WellFormed)
    (hid : s.cells[id.index]? = some (.hash t)) :
    ∃ (keys values : CellId) (s₁ s₂ : Store),
      Builtin.keys (.hash id) s = .ok (.array keys) s₁ ∧
      Builtin.values (.hash id) s₁ = .ok (.array values) s₂ ∧
      s₂.Lists id keys values t.length := by
  let ks := ((s.entries id).map Entry.key).toArray
  let s₁ := (s.allocate (.array ks)).2
  let vs := ((s₁.entries id).map Entry.value).toArray
  let s₂ := (s₁.allocate (.array vs)).2
  have hid₁ : s₁.cells[id.index]? = some (.hash t) := Store.cell_allocate hid
  have hid₂ : s₂.cells[id.index]? = some (.hash t) := Store.cell_allocate hid₁
  have hks : s₂.elements (s.allocate (.array ks)).1 = ks :=
    Store.elements_of_cell (Store.cell_allocate (Store.cell_allocate_new s _))
  have hvs : s₂.elements (s₁.allocate (.array vs)).1 = vs :=
    Store.elements_of_cell (Store.cell_allocate_new s₁ _)
  refine ⟨_, _, s₁, s₂, rfl, rfl, Store.lists_of_wellFormed ht hid₂ (hks.trans ?_) (hvs.trans ?_)⟩
  · rw [← Store.entries_of_cell hid]
  · rw [← Store.entries_of_cell hid₁]

/-! ### Hashes in reachable stores -/

/-- In every store that can be reached, the table of a hash is well formed; its length, keys and
values agree with each other and with what is found under its keys; and a key leaves alone what is
found under another that is apart from it. -/
theorem reachable_hash {s : Store} (hs : Reachable s) {id : CellId} {t : Table}
    (hid : s.cells[id.index]? = some (.hash t)) :
    t.WellFormed ∧
    (∃ (keys values : CellId) (s₁ s₂ : Store),
      Builtin.keys (.hash id) s = .ok (.array keys) s₁ ∧
      Builtin.values (.hash id) s₁ = .ok (.array values) s₂ ∧
      s₂.Lists id keys values t.length) ∧
    ∀ k l : Value, k.Apart l →
      (∀ v : Value, s.SameLookup (after (Eval.store (.hash id) k v) s) id l) ∧
      s.SameLookup (after (Builtin.delete (.hash id) k) s) id l := by
  have ht : t.WellFormed := hs.ordered _ (Array.mem_of_getElem? hid)
  refine ⟨ht, Store.exists_lists ht hid, fun k l hkl ↦ ⟨fun v ↦ ?_, ?_⟩⟩
  · exact Eval.sameLookup_store hid hkl v
  · exact Builtin.sameLookup_delete hid hkl

/-- What a binding of a hash with the keys `-1` and `2` leaves. -/
def signedStore : Store :=
  after
    (Eval.program [] 9 ⟨0⟩
      [.bind default ⟨"h", default⟩ (.hash default
        [(.unary default .negate (.int default 1), .bool default true),
          (.int default 2, .bool default false)])])
    Store.empty.openGlobal.2

/-- The table of that hash: a negative key comes after one that is not. -/
def signedTable : Table :=
  [⟨⟨.integer, 2⟩, .int 2, .bool false⟩, ⟨⟨.integer, 0xffffffffffffffff⟩, .int (-1), .bool true⟩]

theorem reachable_hash_signed :
    Reachable signedStore ∧ signedStore.cells[0]? = some (.hash signedTable) ∧
    signedTable.WellFormed ∧
    (∃ (keys values : CellId) (s₁ s₂ : Store),
      Builtin.keys (.hash ⟨0⟩) signedStore = .ok (.array keys) s₁ ∧
      Builtin.values (.hash ⟨0⟩) s₁ = .ok (.array values) s₂ ∧
      s₂.Lists ⟨0⟩ keys values 2) ∧
    (Value.int (-1)).Apart (.int 2) ∧
    signedStore.SameLookup (after (Builtin.delete (.hash ⟨0⟩) (.int (-1))) signedStore) ⟨0⟩
      (.int 2) := by
  have hs : Reachable signedStore := by
    refine .program [] 9 ⟨0⟩ _ (.openGlobal (.start ?_))
    simp [Store.empty]
  have hid : signedStore.cells[0]? = some (.hash signedTable) := by rfl
  have hne : (Value.int (-1)).Apart (.int 2) := .int (by decide)
  obtain ⟨ht, hlists, hlookup⟩ := @reachable_hash signedStore hs ⟨0⟩ signedTable hid
  exact ⟨hs, hid, ht, hlists, hne, (hlookup _ _ hne).2⟩

end Treewalk
