import Treewalk.Proofs.Value.Table
import Treewalk.Store.Basic

/-!
# How a store evolves

Evaluation in a scope changes the store by few kinds of step: it makes cells and closures, replaces
elements and entries, binds names in that scope, writes, and calls functions, each in a new scope.
`Evolves P scope s t` says that `t` comes from `s` by such steps, and that every value they store
has the property `P`. What each step keeps is kept by all of them together: a property of all values
in the store, and the order of the tables.
-/

set_option autoImplicit false
set_option relaxedAutoImplicit false

namespace Treewalk

/-! ### Properties of everything in a store -/

/-- Every value in a cell has a property. -/
def Cell.Holds (P : Value → Prop) : Cell → Prop
  | .array elements => ∀ v ∈ elements, P v
  | .hash table => ∀ e ∈ table, P e.key ∧ P e.value

/-- The table of a hash is well formed. -/
def Cell.Ordered : Cell → Prop
  | .array _ => True
  | .hash table => table.WellFormed

namespace Store

/-- Every value in a cell or bound in a scope has a property. -/
structure Holds (P : Value → Prop) (s : Store) : Prop where
  cells : ∀ cell ∈ s.cells, cell.Holds P
  bindings : ∀ scope ∈ s.scopes, ∀ b ∈ scope.bindings, P b.2

/-- The tables of all hashes are well formed. -/
def Ordered (s : Store) : Prop :=
  ∀ cell ∈ s.cells, cell.Ordered

/-- The store in which the body of a called function starts: its scope is the newest. -/
def enter (s : Store) (f : Closure) (args : List Value) : Store :=
  (s.enclose f.scope).2.bindAll ⟨s.scopes.size⟩ f.parameters args

end Store

/-- The store `t` comes from `s` by steps of an evaluation in a scope, which store only values with
a property. -/
inductive Evolves (P : Value → Prop) : ScopeId → Store → Store → Prop where
  | refl {scope : ScopeId} (s : Store) : Evolves P scope s s
  | trans {scope : ScopeId} {s t u : Store} :
      Evolves P scope s t → Evolves P scope t u → Evolves P scope s u
  | allocate {scope : ScopeId} (s : Store) {cell : Cell} :
      cell.Holds P → cell.Ordered → Evolves P scope s (s.allocate cell).2
  | setElement {scope : ScopeId} (s : Store) (id : CellId) (slot : Nat) {v : Value} :
      P v → Evolves P scope s (s.setElement id slot v)
  | insert {scope : ScopeId} (s : Store) (id : CellId) {k : Key} {key v : Value} :
      Key.ofValue? key = some k → P key → P v →
        Evolves P scope s (s.modifyEntries id (Table.insert ⟨k, key, v⟩))
  | erase {scope : ScopeId} (s : Store) (id : CellId) (k : Key) :
      Evolves P scope s (s.modifyEntries id fun t ↦ t.erase k)
  | close {scope : ScopeId} (s : Store) (parameters : List Name) (body : Block) :
      Evolves P scope s (s.close ⟨parameters, body, scope⟩).2
  | bind {scope : ScopeId} (s : Store) (name : String) {v : Value} :
      P v → Evolves P scope s (s.bind scope name v)
  | write {scope : ScopeId} (s : Store) (id : ScopeId) (text : String) :
      Evolves P scope s (s.write id text)
  -- The scope of a call is new, so the steps of its body count as steps in any scope.
  | call {scope : ScopeId} {s t : Store} (id : ClosureId) {args : List Value} :
      (∀ v ∈ args, P v) → Evolves P ⟨s.scopes.size⟩ (s.enter (s.closure id) args) t →
        Evolves P scope s t

/-! ### What a change of one place keeps -/

/-- What holds of all elements still does when one is changed. -/
theorem forall_mem_modify {α : Type} {Q : α → Prop} {f : α → α} {xs : Array α} {i : Nat}
    (h : ∀ x ∈ xs, Q x) (hf : ∀ x, Q x → Q (f x)) : ∀ x ∈ xs.modify i f, Q x := by
  intro x hx
  obtain ⟨j, hj, rfl⟩ := Array.mem_iff_getElem.mp hx
  have hj' : j < xs.size := by simpa using hj
  have hQ : Q xs[j] := h _ (Array.getElem_mem hj')
  rw [Array.getElem_modify hj]
  split
  · exact hf _ hQ
  · exact hQ

theorem forall_mem_push {α : Type} {Q : α → Prop} {xs : Array α} {x : α} (h : ∀ y ∈ xs, Q y)
    (hx : Q x) : ∀ y ∈ xs.push x, Q y := by
  intro y hy
  rcases Array.mem_push.mp hy with hy | rfl
  · exact h y hy
  · exact hx

theorem Bindings.forall_mem_set {P : Value → Prop} {name : String} {v : Value}
    {bindings : Bindings} (h : ∀ b ∈ bindings, P b.2) (hv : P v) :
    ∀ b ∈ Bindings.set name v bindings, P b.2 := by
  fun_induction Bindings.set name v bindings with
  | case1 => simpa using hv
  | case2 b bindings =>
    intro c hc
    rcases List.mem_cons.mp hc with rfl | hc
    · exact hv
    · exact h c (List.mem_cons_of_mem _ hc)
  | case3 n w bindings hn ih =>
    obtain ⟨hw, hb⟩ := List.forall_mem_cons.mp h
    exact List.forall_mem_cons.mpr ⟨hw, ih hb⟩

/-! ### What a step keeps -/

namespace Store

theorem forall_mem_modifyCell {Q : Cell → Prop} {f : Cell → Cell} {s : Store} (id : CellId)
    (h : ∀ cell ∈ s.cells, Q cell) (hf : ∀ cell, Q cell → Q (f cell)) :
    ∀ cell ∈ (s.modifyCell id f).cells, Q cell :=
  forall_mem_modify h hf

theorem scopes_bind (s : Store) (id : ScopeId) (name : String) (v : Value) :
    (s.bind id name v).scopes =
      s.scopes.modify id.index fun scope ↦
        { scope with bindings := Bindings.set name v scope.bindings } :=
  rfl

section Holds

variable {P : Value → Prop} {s : Store}

theorem Holds.allocate {cell : Cell} (h : s.Holds P) (hc : cell.Holds P) :
    (s.allocate cell).2.Holds P :=
  ⟨forall_mem_push h.cells hc, h.bindings⟩

theorem Holds.setElement {id : CellId} {slot : Nat} {v : Value} (h : s.Holds P) (hv : P v) :
    (s.setElement id slot v).Holds P := by
  refine ⟨forall_mem_modifyCell id h.cells fun cell hc ↦ ?_, h.bindings⟩
  cases cell with
  | array xs =>
    intro w hw
    rcases Array.mem_or_eq_of_mem_setIfInBounds hw with hw | rfl
    · exact hc w hw
    · exact hv
  | hash t => exact hc

theorem Holds.modifyEntries {id : CellId} {f : Table → Table} (h : s.Holds P)
    (hf : ∀ t : Table, (∀ e ∈ t, P e.key ∧ P e.value) → ∀ e ∈ f t, P e.key ∧ P e.value) :
    (s.modifyEntries id f).Holds P := by
  refine ⟨forall_mem_modifyCell id h.cells fun cell hc ↦ ?_, h.bindings⟩
  cases cell with
  | array xs => exact hc
  | hash t => exact hf t hc

theorem Holds.bind {id : ScopeId} {name : String} {v : Value} (h : s.Holds P) (hv : P v) :
    (s.bind id name v).Holds P := by
  refine ⟨h.cells, ?_⟩
  rw [scopes_bind]
  exact forall_mem_modify h.bindings fun _ hb ↦ Bindings.forall_mem_set hb hv

theorem Holds.bindAll {id : ScopeId} {names : List Name} {args : List Value} (h : s.Holds P)
    (hargs : ∀ v ∈ args, P v) : (s.bindAll id names args).Holds P := by
  fun_induction Store.bindAll s id names args with
  | case1 s name names v vs ih =>
    obtain ⟨hv, hvs⟩ := List.forall_mem_cons.mp hargs
    exact ih (h.bind hv) hvs
  | case2 => exact h

theorem Holds.enter {f : Closure} {args : List Value} (h : s.Holds P) (hargs : ∀ v ∈ args, P v) :
    (s.enter f args).Holds P :=
  have hf : (s.enclose f.scope).2.Holds P := ⟨h.cells, forall_mem_push h.bindings (by simp)⟩
  hf.bindAll hargs

/-! Values that are read from the store have the property too. -/

theorem Holds.elements (h : s.Holds P) (id : CellId) : ∀ v ∈ s.elements id, P v := by
  unfold Store.elements
  split
  next xs hc => exact h.cells _ (Array.mem_of_getElem? hc)
  next => simp

theorem Holds.entries (h : s.Holds P) (id : CellId) : ∀ e ∈ s.entries id, P e.key ∧ P e.value := by
  unfold Store.entries
  split
  next t hc => exact h.cells _ (Array.mem_of_getElem? hc)
  next => simp

theorem Holds.lookupWithin (h : s.Holds P) {count : Nat} {id : ScopeId} {name : String} {v : Value}
    (hv : s.lookupWithin count id name = some v) : P v := by
  fun_induction Store.lookupWithin s count id name with
  | case1 => simp at hv
  | case2 => simp at hv
  | case3 count id name scope hscope w hw =>
    obtain rfl := Option.some.inj hv
    obtain ⟨before, after, heq, -⟩ := List.lookup_eq_some_iff.mp hw
    have hmem : (name, w) ∈ scope.bindings := by simp [heq]
    exact h.bindings scope (Array.mem_of_getElem? hscope) _ hmem
  | case4 => simp at hv
  | case5 count id name scope hscope hw outer houter ih => exact ih hv

end Holds

section Ordered

variable {s : Store}

theorem Ordered.allocate {cell : Cell} (h : s.Ordered) (hc : cell.Ordered) :
    (s.allocate cell).2.Ordered :=
  forall_mem_push h hc

theorem Ordered.setElement {id : CellId} {slot : Nat} {v : Value} (h : s.Ordered) :
    (s.setElement id slot v).Ordered := by
  refine forall_mem_modifyCell id h fun cell hc ↦ ?_
  cases cell with
  | array xs => trivial
  | hash t => exact hc

theorem Ordered.modifyEntries {id : CellId} {f : Table → Table} (h : s.Ordered)
    (hf : ∀ t : Table, t.WellFormed → (f t).WellFormed) : (s.modifyEntries id f).Ordered := by
  refine forall_mem_modifyCell id h fun cell hc ↦ ?_
  cases cell with
  | array xs => exact hc
  | hash t => exact hf t hc

theorem cells_bindAll (s : Store) (id : ScopeId) (names : List Name) (args : List Value) :
    (s.bindAll id names args).cells = s.cells := by
  fun_induction Store.bindAll s id names args with
  | case1 s name names v vs ih => exact ih
  | case2 => rfl

theorem Ordered.enter {f : Closure} {args : List Value} (h : s.Ordered) :
    (s.enter f args).Ordered := by
  rw [Store.enter, Store.Ordered, cells_bindAll]
  exact h

end Ordered

end Store

/-! ### What an evolution keeps -/

section Evolution

variable {P : Value → Prop} {scope : ScopeId} {s t : Store}

/-- Steps that store only values with a property keep it for all values in the store. -/
theorem Evolves.holds (h : Evolves P scope s t) (hs : s.Holds P) : t.Holds P := by
  induction h with
  | refl s => exact hs
  | trans _ _ ih ih' => exact ih' (ih hs)
  | allocate s hc _ => exact hs.allocate hc
  | setElement s id slot hv => exact hs.setElement hv
  | insert s id _ hk hv =>
    refine hs.modifyEntries fun t ht e he ↦ ?_
    rcases Table.mem_insert he with rfl | he
    · exact ⟨hk, hv⟩
    · exact ht e he
  | erase s id k => exact hs.modifyEntries fun t ht e he ↦ ht e (List.mem_filter.mp he).1
  | close s ps body => exact ⟨hs.cells, hs.bindings⟩
  | bind s name hv => exact hs.bind hv
  | write s id text => exact ⟨hs.cells, hs.bindings⟩
  | call id hargs _ ih => exact ih (hs.enter hargs)

/-- The tables of all hashes stay well formed. -/
theorem Evolves.ordered (h : Evolves P scope s t) (hs : s.Ordered) : t.Ordered := by
  induction h with
  | refl s => exact hs
  | trans _ _ ih ih' => exact ih' (ih hs)
  | allocate s _ hc => exact hs.allocate hc
  | setElement s id slot _ => exact hs.setElement
  | insert s id hk _ _ => exact hs.modifyEntries fun t ht ↦ ht.insert hk
  | erase s id k => exact hs.modifyEntries fun t ht ↦ ht.erase k
  | close s ps body => exact hs
  | bind s name _ => exact hs
  | write s id text => exact hs
  | call id _ _ ih => exact ih hs.enter

end Evolution

end Treewalk
