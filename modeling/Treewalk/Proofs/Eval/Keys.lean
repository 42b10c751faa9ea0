import Treewalk.Proofs.Eval.Hashes

/-!
# Keys that a hash tells apart

A hash finds an entry by the kind of its key and 64 bits, and never looks at the key itself. For
integers and booleans these bits are their content; for strings and floats they are a digest of it.
So values are told apart by a hash if they differ in kind, are different integers or booleans, or
are strings or floats with different digests (`Value.discerned_iff`). Of two such keys, neither
storing nor deleting under one touches the other, and a literal keeps the entries of both
(`hash_discerned`).

Digests of different contents may agree. `colliding_keys` gives two strings, and the bits of two
floats, for which they do.
-/

set_option autoImplicit false
set_option relaxedAutoImplicit false

namespace Treewalk

/-- Two values that a hash tells apart. -/
inductive Value.Discerned : Value → Value → Prop where
  | apart {v w : Value} : v.Apart w → Discerned v w
  | str {a b : String} : Digest.ofText a ≠ Digest.ofText b → Discerned (.str a) (.str b)
  | float {x y : Float} : Key.floatDigest x ≠ Key.floatDigest y → Discerned (.float x) (.float y)

theorem Value.Discerned.slot_ne {v w : Value} (h : v.Discerned w) {j k : Key}
    (hj : Key.ofValue? v = some j) (hk : Key.ofValue? w = some k) : j ≠ k := by
  cases h with
  | apart h => exact h.slot_ne hj hk
  | str h =>
    rintro rfl
    exact h (congrArg Key.bits (Option.some.inj (hj.trans hk.symm)))
  | float h =>
    rintro rfl
    exact h (congrArg Key.bits (Option.some.inj (hj.trans hk.symm)))

/-- Values that can be keys are told apart exactly if their keys are different. -/
theorem Value.discerned_iff {v w : Value} {j k : Key} (hj : Key.ofValue? v = some j)
    (hk : Key.ofValue? w = some k) : v.Discerned w ↔ j ≠ k := by
  refine ⟨fun h ↦ h.slot_ne hj hk, fun h ↦ ?_⟩
  by_cases hkind : v.kind = w.kind
  · cases v <;> cases hj <;> cases w <;> cases hk <;> cases hkind
    · exact .apart (.int fun he ↦ h (by rw [he]))
    · exact .float fun he ↦ h (by rw [he])
    · exact .str fun he ↦ h (by rw [he])
    · exact .apart (.bool fun he ↦ h (by rw [he]))
  · exact .apart (.kind hkind)

/-! ### Entries of a literal -/

/-- The table with entries put in one after the other. -/
def Table.insertAll (t : Table) (entries : List Entry) : Table :=
  entries.foldl (fun t e ↦ Table.insert e t) t

namespace Table

theorem get?_insertAll_of_ne {slot : Key} {entries : List Entry}
    (h : ∀ e ∈ entries, slot ≠ e.slot) (t : Table) :
    (t.insertAll entries).get? slot = t.get? slot := by
  induction entries generalizing t with
  | nil => rfl
  | cons e entries ih =>
    obtain ⟨he, hrest⟩ := List.forall_mem_cons.mp h
    exact (ih hrest (Table.insert e t)).trans (by rw [get?_insert, if_neg he])

/-- An entry stays if none behind it has the same slot. -/
theorem get?_insertAll (t : Table) (before : List Entry) {e : Entry} {behind : List Entry}
    (h : ∀ f ∈ behind, e.slot ≠ f.slot) :
    (t.insertAll (before ++ e :: behind)).get? e.slot = some e := by
  have hsplit : t.insertAll (before ++ e :: behind) =
      (Table.insert e (t.insertAll before)).insertAll behind :=
    List.foldl_append
  rw [hsplit, get?_insertAll_of_ne h, get?_insert, if_pos rfl]

end Table

namespace Eval

/-- The entries that the pairs of a hash literal give, in the order in which they are evaluated. -/
def literal (known : List Builtin) :
    Nat → ScopeId → List (Expr × Expr) → Eval (List Entry)
  | 0, _, _ => throw .exhausted
  | _ + 1, _, [] => return []
  | depth + 1, scope, (k, e) :: pairs => do
    let key ← expr known depth scope k
    let slot ← ofExcept (keyOf key)
    let value ← expr known depth scope e
    let rest ← literal known depth scope pairs
    return ⟨slot, key, value⟩ :: rest

variable {known : List Builtin} {depth : Nat} {scope : ScopeId}

/-- The table of a hash literal is that of its entries. -/
theorem entries_eq (pairs : List (Expr × Expr)) (table : Table) :
    entries known depth scope pairs table =
      table.insertAll <$> literal known depth scope pairs := by
  induction depth generalizing pairs table with
  | zero => cases pairs <;> rfl
  | succ depth ih =>
    cases pairs with
    | nil => rfl
    | cons pair pairs =>
      obtain ⟨k, e⟩ := pair
      simp only [entries, literal, ih, map_bind, map_pure]
      rfl

/-- Every entry of a literal stands under the key of the value written for it. -/
theorem confined_literal (pairs : List (Expr × Expr)) :
    Confined (fun _ ↦ True) scope (fun es ↦ ∀ e ∈ es, Key.ofValue? e.key = some e.slot)
      (literal known depth scope pairs) := by
  induction depth generalizing pairs with
  | zero => exact .throw _
  | succ depth ih =>
    cases pairs with
    | nil => exact .pure (by simp)
    | cons pair pairs =>
      obtain ⟨k, e⟩ := pair
      have hc := confinedAt lasting_true known depth
      refine .bind (hc.expr scope k) fun key _ ↦ .bind (.ofExcept fun _ h ↦ h) fun slot hslot ↦ ?_
      refine .bind (hc.expr scope e) fun value _ ↦ .bind (ih pairs) fun rest hrest ↦ .pure ?_
      exact List.forall_mem_cons.mpr ⟨ofValue?_of_keyOf hslot, hrest⟩

theorem keyed_of_literal {pairs : List (Expr × Expr)} {es : List Entry} {s t : Store}
    (h : literal known depth scope pairs s = .ok es t) :
    ∀ e ∈ es, Key.ofValue? e.key = some e.slot :=
  (confined_literal pairs s s.holds_true).of_ok h |>.2

theorem expr_hash (position : Position) (pairs : List (Expr × Expr)) :
    expr known (depth + 1) scope (.hash position pairs) =
      literal known depth scope pairs >>= fun es ↦ newHash (Table.insertAll [] es) := by
  simp only [expr, entries_eq, bind_map_left]

end Eval

/-- In the hash of a literal, an entry is found if its key is told apart from those behind it. -/
theorem Store.found_of_cell {s : Store} {id : CellId} {before behind : List Entry} {e : Entry}
    (hcell : s.cells[id.index]? = some (.hash (Table.insertAll [] (before ++ e :: behind))))
    (hkeyed : ∀ f ∈ before ++ e :: behind, Key.ofValue? f.key = some f.slot)
    (hbehind : ∀ f ∈ behind, e.key.Discerned f.key) :
    Eval.index (.hash id) e.key s = .ok e.value s ∧
      Builtin.contains (.hash id) e.key s = .ok (.bool true) s := by
  have he : Key.ofValue? e.key = some e.slot := hkeyed e (by simp)
  have hne : ∀ f ∈ behind, e.slot ≠ f.slot := fun f hf ↦
    (hbehind f hf).slot_ne he (hkeyed f (by simp [hf]))
  rw [Eval.index_hash s id he, Builtin.contains_hash s id he, Store.entries_of_cell hcell,
    Table.get?_insertAll [] before hne]
  exact ⟨rfl, rfl⟩

/-! ### Keys that are not told apart -/

section Shared

variable {s : Store} {id : CellId} {t : Table} {k l : Value} {slot : Key}

/-- What is stored under a value is found under every other one with the same key. -/
theorem Eval.index_after_store (hid : s.cells[id.index]? = some (.hash t))
    (hk : Key.ofValue? k = some slot) (hl : Key.ofValue? l = some slot) (v : Value) :
    answer (Eval.index (.hash id) l) (after (Eval.store (.hash id) k v) s) = .ok v := by
  have hentries := Store.entries_of_cell
    (Store.cell_modifyEntries hid (Table.insert ⟨slot, k, v⟩))
  simp [Eval.after_store_hash, hk, answer, Eval.index_hash _ id hl, hentries, Table.get?_insert]

/-- What is deleted under a value is gone under every other one with the same key. -/
theorem Builtin.contains_after_delete (hid : s.cells[id.index]? = some (.hash t))
    (hk : Key.ofValue? k = some slot) (hl : Key.ofValue? l = some slot) :
    answer (Builtin.contains (.hash id) l) (after (Builtin.delete (.hash id) k) s) =
      .ok (.bool false) := by
  have hentries := Store.entries_of_cell (Store.cell_modifyEntries hid fun t ↦ t.erase slot)
  simp [Builtin.after_delete_hash, hk, answer, Builtin.contains_hash _ id hl, hentries,
    Table.get?_erase]

end Shared

/-- In every store, storing and deleting under a key of a hash leaves what is found under a key that
is told apart from it. A literal comes to a hash in which every entry is found whose key is told
apart from those behind it. -/
theorem hash_discerned (s : Store) :
    (∀ (id : CellId) (t : Table), s.cells[id.index]? = some (.hash t) →
      ∀ k l : Value, k.Discerned l →
        (∀ v : Value, s.SameLookup (after (Eval.store (.hash id) k v) s) id l) ∧
        s.SameLookup (after (Builtin.delete (.hash id) k) s) id l) ∧
    ∀ (known : List Builtin) (depth : Nat) (scope : ScopeId) (position : Position)
        (pairs : List (Expr × Expr)) (v : Value) (u : Store),
      Eval.expr known (depth + 1) scope (.hash position pairs) s = .ok v u →
        ∃ (id : CellId) (es : List Entry) (t : Store),
          v = .hash id ∧ Eval.literal known depth scope pairs s = .ok es t ∧
          ∀ (before : List Entry) (e : Entry) (behind : List Entry), es = before ++ e :: behind →
            (∀ f ∈ behind, e.key.Discerned f.key) →
              Eval.index (.hash id) e.key u = .ok e.value u ∧
              Builtin.contains (.hash id) e.key u = .ok (.bool true) u := by
  refine ⟨fun id t hid k l hkl ↦ ⟨fun v ↦ ?_, ?_⟩,
    fun known depth scope position pairs v u h ↦ ?_⟩
  · exact Eval.sameLookup_store_of_slot_ne hid (fun _ _ ↦ hkl.slot_ne) v
  · exact Builtin.sameLookup_delete_of_slot_ne hid fun _ _ ↦ hkl.slot_ne
  · rw [Eval.expr_hash, run_bind] at h
    cases hes : Eval.literal known depth scope pairs s with
    | error e t => simp [hes] at h
    | ok es t =>
      rw [hes] at h
      obtain ⟨rfl, rfl⟩ := EStateM.Result.ok.inj h
      refine ⟨_, es, t, rfl, rfl, ?_⟩
      rintro before e behind rfl hbehind
      exact Store.found_of_cell (Store.cell_allocate_new t _) (Eval.keyed_of_literal hes) hbehind

/-- What evaluating a literal with two strings as keys leaves. -/
def pairStore (first second : String) : Store :=
  after
    (Eval.expr [] 4 ⟨0⟩ (.hash default
      [(.str default first, .bool default true), (.str default second, .bool default false)]))
    Store.empty

theorem literal_pair (first second : String) :
    Eval.literal [] 3 ⟨0⟩
        [(.str default first, .bool default true), (.str default second, .bool default false)]
        Store.empty =
      .ok
        [⟨⟨.string, Digest.ofText first⟩, .str first, .bool true⟩,
          ⟨⟨.string, Digest.ofText second⟩, .str second, .bool false⟩]
        Store.empty :=
  rfl

theorem cell_pairStore (first second : String) :
    (pairStore first second).cells[0]? = some (.hash (Table.insertAll []
      [⟨⟨.string, Digest.ofText first⟩, .str first, .bool true⟩,
        ⟨⟨.string, Digest.ofText second⟩, .str second, .bool false⟩])) := by
  rw [pairStore, after, Eval.expr_hash, run_bind, literal_pair]
  exact Store.cell_allocate_new Store.empty _

/-- Two keys with different digests: a literal keeps both, and deleting one leaves the other. -/
theorem hash_discerned_pair :
    (Value.str "a").Discerned (.str "b") ∧
    (∃ (id : CellId) (u : Store),
      Eval.expr [] 4 ⟨0⟩ (.hash default
          [(.str default "a", .bool default true), (.str default "b", .bool default false)])
          Store.empty = .ok (.hash id) u ∧
      Eval.index (.hash id) (.str "a") u = .ok (.bool true) u ∧
      Eval.index (.hash id) (.str "b") u = .ok (.bool false) u) ∧
    (pairStore "a" "b").SameLookup
      (after (Builtin.delete (.hash ⟨0⟩) (.str "a")) (pairStore "a" "b")) ⟨0⟩ (.str "b") := by
  have hne : (Value.str "a").Discerned (.str "b") := .str (by decide +kernel)
  have hkept := (hash_discerned (pairStore "a" "b")).1 ⟨0⟩ _ (cell_pairStore "a" "b") _ _ hne
  have hexpr : ∃ v u, Eval.expr [] 4 ⟨0⟩ (.hash default
      [(.str default "a", .bool default true), (.str default "b", .bool default false)])
      Store.empty = .ok v u := by
    rw [Eval.expr_hash, run_bind, literal_pair]
    exact ⟨_, _, rfl⟩
  obtain ⟨v, u, hexpr⟩ := hexpr
  obtain ⟨id, es, t, rfl, hes, hfound⟩ := (hash_discerned Store.empty).2 _ _ _ _ _ _ _ hexpr
  rw [literal_pair] at hes
  obtain ⟨rfl, -⟩ := EStateM.Result.ok.inj hes
  refine ⟨hne, ⟨id, u, hexpr, ?_, ?_⟩, hkept.2⟩
  · exact (hfound [] _ [_] rfl (by simpa using hne)).1
  · exact (hfound [_] _ [] rfl (by simp)).1

/-- Two different strings with the same digest: a literal keeps the entry of one of them, and
storing or deleting under one changes what is found under the other. The last line is about the bits
of the floats `59666054.5` and `425714620.5`, whose digests agree too. -/
theorem colliding_keys :
    Reachable (pairStore "gtylvkba" "kyoweida") ∧ "gtylvkba" ≠ "kyoweida" ∧
    ((pairStore "gtylvkba" "kyoweida").entries ⟨0⟩).length = 1 ∧
    ¬ (pairStore "gtylvkba" "kyoweida").SameLookup
      (after (Eval.store (.hash ⟨0⟩) (.str "gtylvkba") (.bool true))
        (pairStore "gtylvkba" "kyoweida")) ⟨0⟩ (.str "kyoweida") ∧
    ¬ (pairStore "gtylvkba" "kyoweida").SameLookup
      (after (Builtin.delete (.hash ⟨0⟩) (.str "gtylvkba"))
        (pairStore "gtylvkba" "kyoweida")) ⟨0⟩ (.str "kyoweida") ∧
    Digest.ofWord 0x418c737434000000 = Digest.ofWord 0x41b95fe3bc800000 := by
  have hdigest : Digest.ofText "gtylvkba" = Digest.ofText "kyoweida" := by decide +kernel
  have hslot : Key.ofValue? (.str "gtylvkba") = some ⟨.string, Digest.ofText "kyoweida"⟩ := by
    rw [← hdigest]
    rfl
  have hcell := cell_pairStore "gtylvkba" "kyoweida"
  have hentries : (pairStore "gtylvkba" "kyoweida").entries ⟨0⟩ =
      [⟨⟨.string, Digest.ofText "kyoweida"⟩, .str "kyoweida", .bool false⟩] := by
    rw [Store.entries_of_cell hcell, hdigest]
    simp [Table.insertAll, Table.insert, Key.lt_irrefl]
  refine ⟨.expr [] 4 ⟨0⟩ _ (.start (by simp [Store.empty])), by decide, by rw [hentries]; rfl,
    fun h ↦ ?_, fun h ↦ ?_, by decide +kernel⟩
  · have hstored := h.1
    rw [Eval.index_after_store hcell hslot rfl, answer, Eval.index_hash _ _ rfl, hentries]
      at hstored
    simp [Table.get?] at hstored
  · have hdeleted := h.2
    rw [Builtin.contains_after_delete hcell hslot rfl, answer, Builtin.contains_hash _ _ rfl,
      hentries] at hdeleted
    simp [Table.get?] at hdeleted

end Treewalk
