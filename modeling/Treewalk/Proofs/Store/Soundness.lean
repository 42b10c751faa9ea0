import Treewalk.Proofs.Store.Evolution

/-!
# Stores without dangling references

A value that is an array or a hash refers to a cell, a function to a closure, a closure to the scope
it was made in, and a scope to the one around it and to a sink. A store is sound if everything that
it refers to is there, and a cell is of the kind that the value says. A scope lies in one that was
made before it.

Nothing is ever removed from a store and a cell keeps its kind (`Store.Grows`), so a reference that
is good stays good. Every step that stores values from the store keeps it sound.
-/

set_option autoImplicit false
set_option relaxedAutoImplicit false

namespace Treewalk

/-- The kind of the values that refer to a cell. -/
def Cell.kind : Cell → ValueKind
  | .array _ => .array
  | .hash _ => .hash

namespace Store

/-- The kind of the values that refer to a cell of the store. -/
def kind? (s : Store) (id : CellId) : Option ValueKind :=
  s.cells[id.index]?.map Cell.kind

/-- What a value refers to is in the store. -/
def Has (s : Store) : Value → Prop
  | .array id => s.kind? id = some .array
  | .hash id => s.kind? id = some .hash
  | .function id => id.index < s.closures.size
  | .pending v => s.Has v
  | _ => True

/-- Everything that the store refers to is there. -/
structure Sound (s : Store) : Prop where
  values : s.Holds s.Has
  closures : ∀ f ∈ s.closures, f.scope.index < s.scopes.size
  scopes : ∀ (i : Nat) (scope : Scope), s.scopes[i]? = some scope →
    ∀ outer ∈ scope.outer, outer.index < i
  sinks : ∀ scope ∈ s.scopes, scope.sink.index < s.sinks.size

/-- The store `t` has everything that `s` has. -/
structure Grows (s t : Store) : Prop where
  cells : ∀ (id : CellId) (kind : ValueKind), s.kind? id = some kind → t.kind? id = some kind
  closures : s.closures.size ≤ t.closures.size
  scopes : s.scopes.size ≤ t.scopes.size

variable {s t u : Store} {v : Value}

/-! ### Growing -/

theorem Grows.refl (s : Store) : s.Grows s :=
  ⟨fun _ _ h ↦ h, Nat.le_refl _, Nat.le_refl _⟩

theorem Grows.trans (h : s.Grows t) (h' : t.Grows u) : s.Grows u :=
  ⟨fun id kind hk ↦ h'.cells id kind (h.cells id kind hk), Nat.le_trans h.closures h'.closures,
    Nat.le_trans h.scopes h'.scopes⟩

/-- What a value refers to stays. -/
theorem Has.grows (hv : s.Has v) (h : s.Grows t) : t.Has v := by
  induction v with
  | array id => exact h.cells id _ hv
  | hash id => exact h.cells id _ hv
  | function id => exact Nat.lt_of_lt_of_le hv h.closures
  | pending v ih => exact ih hv
  | _ => trivial

theorem Holds.imp {P Q : Value → Prop} (h : s.Holds P) (hPQ : ∀ v, P v → Q v) : s.Holds Q := by
  refine ⟨fun cell hc ↦ ?_, fun scope hs b hb ↦ hPQ _ (h.bindings scope hs b hb)⟩
  have hcell := h.cells cell hc
  cases cell with
  | array xs => exact fun v hv ↦ hPQ v (hcell v hv)
  | hash t => exact fun e he ↦ ⟨hPQ _ (hcell e he).1, hPQ _ (hcell e he).2⟩

theorem kind?_of_lt {id : CellId} {kind : ValueKind} (h : s.kind? id = some kind) :
    id.index < s.cells.size := by
  obtain ⟨cell, hcell, -⟩ := Option.map_eq_some_iff.mp h
  exact (Array.getElem?_eq_some_iff.mp hcell).1

theorem kind?_allocate {cell : Cell} {id : CellId} (h : id.index < s.cells.size) :
    (s.allocate cell).2.kind? id = s.kind? id := by
  unfold kind? allocate
  rw [Array.getElem?_push_lt h, Array.getElem?_eq_getElem h]

theorem kind?_allocate_new (s : Store) (cell : Cell) :
    (s.allocate cell).2.kind? ⟨s.cells.size⟩ = some cell.kind := by
  simp [kind?, allocate]

/-- A change of a cell that keeps its kind. -/
theorem kind?_modifyCell {f : Cell → Cell} (hf : ∀ cell, (f cell).kind = cell.kind)
    (id j : CellId) : (s.modifyCell id f).kind? j = s.kind? j := by
  rw [kind?, modifyCell, Array.getElem?_modify]
  split
  · rw [Option.map_map, kind?]
    exact congrArg (Option.map · _) (funext hf)
  · rfl

theorem grows_allocate (s : Store) (cell : Cell) : s.Grows (s.allocate cell).2 :=
  ⟨fun _ _ h ↦ (kind?_allocate (kind?_of_lt h)).trans h, Nat.le_refl _, Nat.le_refl _⟩

theorem grows_modifyCell {f : Cell → Cell} (hf : ∀ cell, (f cell).kind = cell.kind)
    (id : CellId) : s.Grows (s.modifyCell id f) :=
  ⟨fun j _ h ↦ (kind?_modifyCell hf id j).trans h, Nat.le_refl _, Nat.le_refl _⟩

theorem grows_setElement (s : Store) (id : CellId) (slot : Nat) (v : Value) :
    s.Grows (s.setElement id slot v) :=
  grows_modifyCell (by rintro (_ | _) <;> rfl) id

theorem grows_modifyEntries (s : Store) (id : CellId) (f : Table → Table) :
    s.Grows (s.modifyEntries id f) :=
  grows_modifyCell (by rintro (_ | _) <;> rfl) id

/-! ### Staying sound -/

/-- From a sound store, another one that is sound and has everything that the first has. -/
structure Leads (s t : Store) : Prop where
  grows : s.Grows t
  sound : t.Sound

theorem Leads.trans (h : s.Leads t) (h' : t.Leads u) : s.Leads u :=
  ⟨h.grows.trans h'.grows, h'.sound⟩

/-- The values that are stored may be judged by the store before. -/
theorem Leads.of_holds (hgrows : s.Grows t) (hvalues : t.Holds s.Has)
    (hclosures : ∀ f ∈ t.closures, f.scope.index < t.scopes.size)
    (hscopes : ∀ (i : Nat) (scope : Scope), t.scopes[i]? = some scope →
      ∀ outer ∈ scope.outer, outer.index < i)
    (hsinks : ∀ scope ∈ t.scopes, scope.sink.index < t.sinks.size) : s.Leads t :=
  ⟨hgrows, hvalues.imp fun _ hv ↦ hv.grows hgrows, hclosures, hscopes, hsinks⟩

namespace Sound

variable (hs : s.Sound)

include hs

theorem leads : s.Leads s :=
  ⟨.refl s, hs⟩

theorem allocate {cell : Cell} (hc : cell.Holds s.Has) : s.Leads (s.allocate cell).2 :=
  .of_holds (s.grows_allocate cell) (hs.values.allocate hc) hs.closures hs.scopes hs.sinks

theorem setElement {id : CellId} {slot : Nat} (hv : s.Has v) :
    s.Leads (s.setElement id slot v) :=
  .of_holds (s.grows_setElement id slot v) (hs.values.setElement hv) hs.closures hs.scopes hs.sinks

theorem modifyEntries (id : CellId) {f : Table → Table}
    (hf : ∀ t : Table, ∀ e ∈ f t, e ∈ t ∨ s.Has e.key ∧ s.Has e.value) :
    s.Leads (s.modifyEntries id f) := by
  refine .of_holds (s.grows_modifyEntries id f) (hs.values.modifyEntries fun t ht e he ↦ ?_)
    hs.closures hs.scopes hs.sinks
  rcases hf t e he with he | he
  · exact ht e he
  · exact he

theorem close {f : Closure} (hf : f.scope.index < s.scopes.size) : s.Leads (s.close f).2 :=
  .of_holds ⟨fun _ _ h ↦ h, by simp [Store.close], Nat.le_refl _⟩
    ⟨hs.values.cells, hs.values.bindings⟩ (forall_mem_push hs.closures hf) hs.scopes hs.sinks

theorem write (id : ScopeId) (text : String) : s.Leads (s.write id text) := by
  refine .of_holds ⟨fun _ _ h ↦ h, Nat.le_refl _, Nat.le_refl _⟩
    ⟨hs.values.cells, hs.values.bindings⟩ hs.closures hs.scopes fun scope hscope ↦ ?_
  rw [Store.write, Array.size_modify]
  exact hs.sinks scope hscope

theorem bind (id : ScopeId) (name : String) (hv : s.Has v) : s.Leads (s.bind id name v) := by
  have hsize : (s.bind id name v).scopes.size = s.scopes.size := Array.size_modify
  refine .of_holds ⟨fun _ _ h ↦ h, Nat.le_refl _, Nat.le_of_eq hsize.symm⟩ (hs.values.bind hv)
    (fun f hf ↦ ?_) (fun i scope hscope ↦ ?_) ?_
  · rw [hsize]
    exact hs.closures f hf
  · rw [scopes_bind, Array.getElem?_modify] at hscope
    split at hscope
    · obtain ⟨before, hbefore, rfl⟩ := Option.map_eq_some_iff.mp hscope
      exact hs.scopes i before hbefore
    · exact hs.scopes i scope hscope
  · rw [scopes_bind]
    exact forall_mem_modify hs.sinks fun _ h ↦ h

theorem sinkOf_lt {id : ScopeId} (h : id.index < s.scopes.size) :
    (s.sinkOf id).index < s.sinks.size := by
  rw [sinkOf, Array.getD_eq_getD_getElem?, Array.getElem?_eq_getElem h]
  exact hs.sinks _ (Array.getElem_mem h)

theorem enclose {outer : ScopeId} (h : outer.index < s.scopes.size) :
    s.Leads (s.enclose outer).2 := by
  have hsize : (s.enclose outer).2.scopes.size = s.scopes.size + 1 := Array.size_push _
  refine .of_holds ⟨fun _ _ h ↦ h, Nat.le_refl _, by omega⟩
    ⟨hs.values.cells, forall_mem_push hs.values.bindings (by simp)⟩ (fun f hf ↦ ?_)
    (fun i scope hscope ↦ ?_) (forall_mem_push hs.sinks (hs.sinkOf_lt h))
  · rw [hsize]
    exact Nat.lt_succ_of_lt (hs.closures f hf)
  · rw [Store.enclose, Array.getElem?_push] at hscope
    split at hscope
    · next hi =>
      obtain rfl := Option.some.inj hscope
      rintro _ ⟨⟩
      rwa [hi]
    · exact hs.scopes i scope hscope

theorem openGlobal : s.Leads s.openGlobal.2 := by
  have hsize : s.openGlobal.2.scopes.size = s.scopes.size + 1 := Array.size_push _
  have hsinks : s.openGlobal.2.sinks.size = s.sinks.size + 1 := Array.size_push _
  refine .of_holds ⟨fun _ _ h ↦ h, Nat.le_refl _, by omega⟩
    ⟨hs.values.cells, forall_mem_push hs.values.bindings (by simp)⟩ (fun f hf ↦ ?_)
    (fun i scope hscope ↦ ?_) (forall_mem_push (fun scope h ↦ ?_) (by simp [hsinks]))
  · rw [hsize]
    exact Nat.lt_succ_of_lt (hs.closures f hf)
  · rw [Store.openGlobal, Array.getElem?_push] at hscope
    split at hscope
    · obtain rfl := Option.some.inj hscope
      rintro _ ⟨⟩
    · exact hs.scopes i scope hscope
  · rw [hsinks]
    exact Nat.lt_succ_of_lt (hs.sinks scope h)

end Sound

theorem Sound.bindAll (hs : s.Sound) {id : ScopeId} {names : List Name} {args : List Value}
    (hargs : ∀ v ∈ args, s.Has v) : s.Leads (s.bindAll id names args) := by
  fun_induction Store.bindAll s id names args with
  | case1 s name names v vs ih =>
    obtain ⟨hv, hvs⟩ := List.forall_mem_cons.mp hargs
    have hbind := hs.bind id name.text hv
    exact hbind.trans (ih hbind.sound fun w hw ↦ (hvs w hw).grows hbind.grows)
  | case2 => exact hs.leads

/-- The start of a call of a function that is in the store. -/
theorem Sound.enter (hs : s.Sound) {id : ClosureId} {args : List Value}
    (hid : id.index < s.closures.size) (hargs : ∀ v ∈ args, s.Has v) :
    s.Leads (s.enter (s.closure id) args) := by
  have hscope : (s.closure id).scope.index < s.scopes.size := by
    rw [closure, Array.getD_eq_getD_getElem?, Array.getElem?_eq_getElem hid]
    exact hs.closures _ (Array.getElem_mem hid)
  have henclose := hs.enclose hscope
  exact henclose.trans (henclose.sound.bindAll fun v hv ↦ (hargs v hv).grows henclose.grows)

theorem sound_empty : Store.empty.Sound := by
  refine ⟨⟨?_, ?_⟩, ?_, ?_, ?_⟩ <;> simp [Store.empty]

end Store

end Treewalk
