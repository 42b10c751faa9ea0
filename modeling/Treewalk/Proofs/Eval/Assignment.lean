import Treewalk.Proofs.Eval.Hashes
import Treewalk.Proofs.Eval.Soundness

/-!
# Storing under an index

A statement that stores a value under an index of a name evaluates the value, finds what the name is
bound to, evaluates the index, and only then stores. It stores in the cell that the name denoted
before the index was evaluated, whatever that evaluation has bound or stored itself. If nothing can
be stored there, the store is what the evaluations have left (`Eval.Refuses` says when). Otherwise
one element or one entry of that cell is replaced, and nothing else has changed
(`Eval.stmt_store_replaces`).

Values that refer to the same cell are the same value, so all of them see what was stored. Looking
up an element depends on the cell that is looked at only, so values that refer to other cells see no
difference.
-/

set_option autoImplicit false
set_option relaxedAutoImplicit false

namespace Treewalk

/-- The cell that an array or a hash refers to. -/
def Value.cell? : Value → Option CellId
  | .array id | .hash id => some id
  | _ => none

namespace Store

/-- The stores are the same but for the contents of one cell. -/
structure DiffersAt (s t : Store) (id : CellId) : Prop where
  others : ∀ j : CellId, j ≠ id → t.cells[j.index]? = s.cells[j.index]?
  size : t.cells.size = s.cells.size
  closures : t.closures = s.closures
  scopes : t.scopes = s.scopes
  sinks : t.sinks = s.sinks

/-- From `s` to `t`, one element of an array has become the value, and the others have stayed. -/
structure ReplacesElement (s t : Store) (id : CellId) (slot : Nat) (v : Value) : Prop where
  size : (t.elements id).size = (s.elements id).size
  replaced : (t.elements id)[slot]? = some v
  others : ∀ i : Nat, i ≠ slot → (t.elements id)[i]? = (s.elements id)[i]?

/-- From `s` to `t`, the entry of a hash under its key has become the given one, and those under
other keys have stayed. -/
structure ReplacesEntry (s t : Store) (id : CellId) (entry : Entry) : Prop where
  replaced : (t.entries id).get? entry.slot = some entry
  others : ∀ k : Key, k ≠ entry.slot → (t.entries id).get? k = (s.entries id).get? k

variable {s t : Store} {id : CellId}

/-! ### Changes of one cell -/

/-- Values that refer to the same cell are the same. -/
theorem eq_of_cell? {v w : Value} (hv : s.Has v) (hw : s.Has w) (hvid : v.cell? = some id)
    (hwid : w.cell? = some id) : v = w := by
  cases v <;> cases hvid <;> cases w <;> cases hwid
  · rfl
  · cases hv.symm.trans hw
  · cases hv.symm.trans hw
  · rfl

theorem differsAt_modifyCell (s : Store) (id : CellId) (f : Cell → Cell) :
    s.DiffersAt (s.modifyCell id f) id := by
  refine ⟨fun j hj ↦ ?_, Array.size_modify, rfl, rfl, rfl⟩
  have hne : id.index ≠ j.index := fun h ↦ hj (by cases id; cases j; simp_all)
  rw [modifyCell, Array.getElem?_modify, if_neg hne]

theorem elements_setElement (s : Store) (id : CellId) (slot : Nat) (v : Value) :
    (s.setElement id slot v).elements id = (s.elements id).setIfInBounds slot v := by
  rw [elements, elements, setElement, modifyCell, Array.getElem?_modify, if_pos rfl]
  cases s.cells[id.index]? with
  | none => rfl
  | some cell => cases cell <;> rfl

theorem entries_modifyEntries (h : s.kind? id = some .hash) (f : Table → Table) :
    (s.modifyEntries id f).entries id = f (s.entries id) := by
  rw [entries, entries, modifyEntries, modifyCell, Array.getElem?_modify, if_pos rfl]
  obtain ⟨cell, hcell, hkind⟩ := Option.map_eq_some_iff.mp h
  rw [hcell]
  cases cell with
  | array xs => cases hkind
  | hash table => rfl

theorem replacesElement_setElement {slot : Nat} (h : slot < (s.elements id).size) (v : Value) :
    s.ReplacesElement (s.setElement id slot v) id slot v := by
  have helements := s.elements_setElement id slot v
  refine ⟨?_, ?_, fun i hi ↦ ?_⟩
  · rw [helements, Array.size_setIfInBounds]
  · rw [helements, Array.getElem?_setIfInBounds_self_of_lt h]
  · rw [helements, Array.getElem?_setIfInBounds_ne hi.symm]

theorem replacesEntry_insert (h : s.kind? id = some .hash) (entry : Entry) :
    s.ReplacesEntry (s.modifyEntries id (Table.insert entry)) id entry := by
  have hentries := entries_modifyEntries h (Table.insert entry)
  refine ⟨?_, fun k hk ↦ ?_⟩
  · rw [hentries, Table.get?_insert, if_pos rfl]
  · rw [hentries, Table.get?_insert, if_neg hk]

end Store

namespace Eval

variable {s t : Store} {target subscript v w : Value} {id : CellId}

/-! ### Looking up elements -/

/-- Only the cell of a value matters for its elements. -/
theorem answer_index_congr (h : ∀ id, w.cell? = some id → t.cells[id.index]? = s.cells[id.index]?)
    (j : Value) : answer (index w j) t = answer (index w j) s := by
  cases w with
  | array id =>
    have helements : t.elements id = s.elements id := by
      rw [Store.elements, Store.elements, h id rfl]
    cases j with
    | int i => simp [index, answer, helements]
    | _ => rfl
  | hash id =>
    have hentries : t.entries id = s.entries id := by
      rw [Store.entries, Store.entries, h id rfl]
    cases hk : Key.ofValue? j with
    | none => simp only [answer, index_hash_of_none _ id hk]
    | some k => simp only [answer, index_hash _ id hk, hentries]
  | str text => cases j <;> rfl
  | _ => rfl

theorem answer_index_of_differsAt (h : s.DiffersAt t id) (hw : w.cell? ≠ some id) (j : Value) :
    answer (index w j) t = answer (index w j) s := by
  refine answer_index_congr (fun k hk ↦ h.others k ?_) j
  rintro rfl
  exact hw hk

/-! ### What is stored -/

theorem Assigns.exists_differsAt (h : Assigns s target subscript v t) :
    ∃ id, target.cell? = some id ∧ s.DiffersAt t id := by
  cases h with
  | @element id => exact ⟨id, rfl, s.differsAt_modifyCell id _⟩
  | @entry id => exact ⟨id, rfl, s.differsAt_modifyCell id _⟩

/-- An array has one element replaced. -/
theorem Assigns.replacesElement (h : Assigns s (.array id) subscript v t) :
    ∃ i : Int64, subscript = .int i ∧ 0 ≤ i.toInt ∧ i.toInt < (s.elements id).size ∧
      s.ReplacesElement t id i.toInt.toNat v := by
  cases h with
  | @element _ i _ hi hlt =>
    exact ⟨i, rfl, hi, hlt, Store.replacesElement_setElement (by omega) v⟩

/-- A hash has one entry replaced. -/
theorem Assigns.replacesEntry (h : Assigns s (.hash id) subscript v t) (hid : s.Has (.hash id)) :
    ∃ k : Key, Key.ofValue? subscript = some k ∧ s.ReplacesEntry t id ⟨k, subscript, v⟩ := by
  cases h with
  | @entry _ _ _ k hk => exact ⟨k, hk, Store.replacesEntry_insert hid _⟩

/-- What was stored is found under the same index. -/
theorem Assigns.index_eq (h : Assigns s target subscript v t) (htarget : s.Has target) :
    index target subscript t = .ok v t := by
  cases target with
  | array id =>
    obtain ⟨i, rfl, hi, hlt, hreplaces⟩ := h.replacesElement
    have hslot : Word.slot? i (t.elements id).size = some i.toInt.toNat := by
      rw [Word.slot?, hreplaces.size, if_pos ⟨hi, hlt⟩]
    simp only [index, run_bind, run_get, run_pure, hslot, Option.bind_some, hreplaces.replaced,
      Option.getD_some]
  | hash id =>
    obtain ⟨k, hk, hreplaces⟩ := h.replacesEntry htarget
    rw [index_hash t id hk, hreplaces.replaced]
    rfl
  | _ => cases h

/-! ### Statements -/

section Statement

variable {known : List Builtin} {depth : Nat} {scope : ScopeId} {s₁ s₂ : Store}

/-- After the value, what is left is to find the name, the index and the place. -/
theorem stmt_store_eq (position : Position) (name : Name) (subscript e : Expr)
    (hv : expr known depth scope e s = .ok v s₁) (hpending : v.isPending = false) :
    stmt known (depth + 1) scope (.store position name subscript e) s =
      (binding scope name.text >>= fun target ↦ expr known depth scope subscript >>= fun i ↦
        store target i v >>= fun _ ↦ pure none) s₁ := by
  rw [stmt.eq_def]
  simp only [run_bind, hv, hpending, Bool.false_eq_true, ↓reduceIte]

theorem binding_of_none {name : String} (h : s.lookup? scope name = none) :
    binding scope name s = .error (.failed (.identifierNotFound name)) s := by
  simp only [binding, run_bind, run_get, h]
  rfl

theorem binding_of_some {name : String} (h : s.lookup? scope name = some target) :
    binding scope name s = .ok target s := by
  simp only [binding, run_bind, run_get, h, run_pure]

/-- Storing under an index of a name fails and changes nothing, or it replaces one element or entry
of the cell that the name denoted before the index was evaluated. -/
theorem stmt_store_replaces (hs : s.Hosts scope) (position : Position) (name : Name)
    (subscript e : Expr) (hv : expr known depth scope e s = .ok v s₁)
    (hpending : v.isPending = false) :
    (s₁.lookup? scope name.text = none →
      stmt known (depth + 1) scope (.store position name subscript e) s =
        .error (.failed (.identifierNotFound name.text)) s₁) ∧
    ∀ (target i : Value) (s₂ : Store), s₁.lookup? scope name.text = some target →
      expr known depth scope subscript s₁ = .ok i s₂ →
        (∃ err : RuntimeError, Refuses s₂ target i err ∧
          stmt known (depth + 1) scope (.store position name subscript e) s =
            .error (.failed err) s₂) ∨
        ∃ (id : CellId) (t : Store), target.cell? = some id ∧
          stmt known (depth + 1) scope (.store position name subscript e) s = .ok none t ∧
          s₂.DiffersAt t id ∧
          (target = .array id → ∃ n : Int64, i = .int n ∧ 0 ≤ n.toInt ∧
            n.toInt < (s₂.elements id).size ∧ s₂.ReplacesElement t id n.toInt.toNat v) ∧
          (target = .hash id → ∃ k : Key, Key.ofValue? i = some k ∧
            s₂.ReplacesEntry t id ⟨k, i, v⟩) ∧
          (∀ w : Value, t.Has w → w.cell? = some id → index w i t = .ok v t) ∧
          ∀ w j : Value, w.cell? ≠ some id →
            answer (index w j) t = answer (index w j) s₂ := by
  rw [stmt_store_eq position name subscript e hv hpending, run_bind]
  refine ⟨fun hnone ↦ by rw [binding_of_none hnone], fun target i s₂ hsome hi ↦ ?_⟩
  have hvalue := ((soundAt known depth).expr hs e).of_ok hv
  have hindex := ((soundAt known depth).expr (hs.leads hvalue.1) subscript).of_ok hi
  have htarget : s₂.Has target := (hvalue.1.sound.values.lookupWithin hsome).grows hindex.1.grows
  simp only [binding_of_some hsome, run_bind, hi]
  cases hstore : store target i v s₂ with
  | error stop t =>
    obtain ⟨err, rfl, hrefuses, rfl⟩ := (store_effect target i v).of_error hstore
    exact .inl ⟨err, hrefuses, rfl⟩
  | ok _ t =>
    have hassigns := (store_effect target i v).of_ok hstore
    obtain ⟨id, hid, hdiffers⟩ := hassigns.exists_differsAt
    have hleads := hassigns.leads hindex.1.sound hindex.2 (hvalue.2.grows hindex.1.grows)
    refine .inr ⟨id, t, hid, rfl, hdiffers, ?_, ?_, fun w hw hwid ↦ ?_, fun w j hw ↦ ?_⟩
    · rintro rfl
      exact hassigns.replacesElement
    · rintro rfl
      exact hassigns.replacesEntry htarget
    · rw [Store.eq_of_cell? hw (htarget.grows hleads.grows) hwid hid]
      exact hassigns.index_eq htarget
    · exact answer_index_of_differsAt hdiffers hw j

end Statement

/-- What a binding of `a` to an array of two numbers leaves. -/
def pairedStore : Store :=
  after
    (stmt [] 9 ⟨0⟩ (.bind default ⟨"a", default⟩
      (.array default [.int default 1, .int default 2])))
    Store.empty.openGlobal.2

/-- An index that binds `a` to `false` and comes to one. -/
def rebindingIndex : Expr :=
  .conditional default (.bool default true)
    (.mk default [.bind default ⟨"a", default⟩ (.bool default false),
      .expr default (.int default 1)])
    none

theorem pairedStore_hosts : pairedStore.Hosts ⟨0⟩ := by
  have hglobal := Store.sound_empty.openGlobal
  have hhosts : Store.empty.openGlobal.2.Hosts ⟨0⟩ := ⟨hglobal.sound, by decide⟩
  have hstmt := (soundAt [] 9).stmt hhosts (.bind default ⟨"a", default⟩
    (.array default [.int default 1, .int default 2]))
  exact hhosts.leads (Ensures.of_after (hstmt.imp (fun _ _ h ↦ h.1) fun _ _ h ↦ h))

/-- The statement `let a[if (true) { let a = false; 1 }] = 7`. -/
def rebindingStatement : Stmt :=
  .store default ⟨"a", default⟩ rebindingIndex (.int default 7)

/-- The array has its second element replaced, though `a` no longer denotes it. -/
theorem stmt_store_replaces_rebound :
    pairedStore.Hosts ⟨0⟩ ∧
    expr [] 8 ⟨0⟩ (.int default 7) pairedStore = .ok (.int 7) pairedStore ∧
    (Value.int 7).isPending = false ∧
    ∃ t : Store, stmt [] 9 ⟨0⟩ rebindingStatement pairedStore = .ok none t ∧
      (pairedStore.bind ⟨0⟩ "a" (.bool false)).ReplacesElement t ⟨0⟩ 1 (.int 7) ∧
      index (.array ⟨0⟩) (.int 1) t = .ok (.int 7) t ∧
      t.lookup? ⟨0⟩ "a" = some (.bool false) := by
  have hvalue : expr [] 8 ⟨0⟩ (.int default 7) pairedStore = .ok (.int 7) pairedStore := rfl
  have hindex : expr [] 8 ⟨0⟩ rebindingIndex pairedStore =
      .ok (.int 1) (pairedStore.bind ⟨0⟩ "a" (.bool false)) := rfl
  have hstmt : stmt [] 9 ⟨0⟩ rebindingStatement pairedStore =
      .ok none (after (stmt [] 9 ⟨0⟩ rebindingStatement) pairedStore) := rfl
  refine ⟨pairedStore_hosts, hvalue, rfl, _, hstmt, ?_⟩
  rcases (stmt_store_replaces pairedStore_hosts default ⟨"a", default⟩ rebindingIndex
    (.int default 7) hvalue rfl).2 (.array ⟨0⟩) (.int 1) _ rfl hindex with
    ⟨err, -, herror⟩ | ⟨id, t, hid, hok, -, helement, -, hfound, -⟩
  · cases hstmt.symm.trans herror
  · cases hid
    cases hstmt.symm.trans hok
    obtain ⟨n, hn, -, -, hreplaces⟩ := helement rfl
    cases hn
    exact ⟨hreplaces, hfound _ rfl rfl, rfl⟩

end Eval

end Treewalk
