import Treewalk.Tree.Basic
import Treewalk.Value.Table

/-!
# The store

Everything that values refer to: cells with the contents of arrays and hashes, closures, scopes with
their bindings, and sinks that collect what is written. Each is numbered in the order of creation
and is never removed.
-/

set_option autoImplicit false
set_option relaxedAutoImplicit false

namespace Treewalk

/-- A scope, by its number in the order of creation. -/
structure ScopeId where
  index : Nat
deriving DecidableEq, Repr, Inhabited

/-- A sink, by its number in the order of creation. -/
structure SinkId where
  index : Nat
deriving DecidableEq, Repr, Inhabited

/-- The contents of an array or a hash. -/
inductive Cell where
  | array (elements : Array Value)
  | hash (table : Table)
deriving Inhabited

/-- A function literal together with the scope it was evaluated in. -/
structure Closure where
  parameters : List Name
  body : Block
  scope : ScopeId

instance : Inhabited Closure := ⟨⟨[], .mk default [], default⟩⟩

/-- The names that a scope binds, with their values. -/
abbrev Bindings := List (String × Value)

/-- The bindings of a scope, the scope around it and the sink for what is written in it. -/
structure Scope where
  bindings : Bindings
  outer : Option ScopeId
  sink : SinkId
deriving Inhabited

/-- All cells, closures, scopes and sinks. -/
structure Store where
  cells : Array Cell
  closures : Array Closure
  scopes : Array Scope
  sinks : Array String
deriving Inhabited

namespace Bindings

/-- Binds a name, in the place of an older binding if there is one. -/
def set (name : String) (value : Value) : Bindings → Bindings
  | [] => [(name, value)]
  | (n, v) :: bindings =>
    if n = name then (name, value) :: bindings else (n, v) :: set name value bindings

theorem lookup_set (name : String) (value : Value) (bindings : Bindings) (m : String) :
    (set name value bindings).lookup m = if m = name then some value else bindings.lookup m := by
  have hm : ∀ k : String, m ≠ k → (m == k) = false := fun _ ↦ beq_eq_false_iff_ne.mpr
  induction bindings with
  | nil =>
    by_cases h : m = name
    · simp [set, h]
    · simp [set, List.lookup_cons, hm name h, h]
  | cons b bindings ih =>
    obtain ⟨n, v⟩ := b
    by_cases hn : n = name
    · subst hn
      by_cases h : m = n
      · simp [set, h]
      · simp [set, List.lookup_cons, hm n h, h]
    · by_cases h : m = n
      · subst h
        simp [set, hn]
      · simp [set, List.lookup_cons, hm n h, hn, ih]

end Bindings

namespace Store

/-- The store without anything in it. -/
def empty : Store := ⟨#[], #[], #[], #[]⟩

/-! ### Cells -/

/-- Makes a new cell. -/
def allocate (s : Store) (cell : Cell) : CellId × Store :=
  (⟨s.cells.size⟩, { s with cells := s.cells.push cell })

/-- The elements of an array. -/
def elements (s : Store) (id : CellId) : Array Value :=
  match s.cells[id.index]? with
  | some (.array xs) => xs
  | _ => #[]

/-- The entries of a hash. -/
def entries (s : Store) (id : CellId) : Table :=
  match s.cells[id.index]? with
  | some (.hash t) => t
  | _ => []

/-- Changes the contents of a cell. -/
def modifyCell (s : Store) (id : CellId) (f : Cell → Cell) : Store :=
  { s with cells := s.cells.modify id.index f }

/-- Replaces one element of an array. -/
def setElement (s : Store) (id : CellId) (slot : Nat) (value : Value) : Store :=
  s.modifyCell id fun
    | .array xs => .array (xs.setIfInBounds slot value)
    | cell => cell

/-- Changes the entries of a hash. -/
def modifyEntries (s : Store) (id : CellId) (f : Table → Table) : Store :=
  s.modifyCell id fun
    | .hash t => .hash (f t)
    | cell => cell

/-! ### Closures -/

/-- Makes a new closure. -/
def close (s : Store) (closure : Closure) : ClosureId × Store :=
  (⟨s.closures.size⟩, { s with closures := s.closures.push closure })

/-- The closure that a function refers to. -/
def closure (s : Store) (id : ClosureId) : Closure :=
  s.closures.getD id.index default

/-! ### Scopes -/

/-- Makes a scope that lies in no other, with a sink of its own. -/
def openGlobal (s : Store) : ScopeId × Store :=
  (⟨s.scopes.size⟩,
    { s with
      scopes := s.scopes.push ⟨[], none, ⟨s.sinks.size⟩⟩
      sinks := s.sinks.push "" })

/-- The sink of a scope. -/
def sinkOf (s : Store) (id : ScopeId) : SinkId :=
  (s.scopes.getD id.index default).sink

/-- Makes a scope inside another, which shares its sink. -/
def enclose (s : Store) (outer : ScopeId) : ScopeId × Store :=
  (⟨s.scopes.size⟩, { s with scopes := s.scopes.push ⟨[], some outer, s.sinkOf outer⟩ })

/-- Binds a name in a scope. -/
def bind (s : Store) (id : ScopeId) (name : String) (value : Value) : Store :=
  { s with
    scopes := s.scopes.modify id.index fun scope ↦
      { scope with bindings := Bindings.set name value scope.bindings } }

/-- Binds parameters to arguments in a scope, as many as there are of both. -/
def bindAll (s : Store) (id : ScopeId) : List Name → List Value → Store
  | name :: names, v :: vs => (s.bind id name.text v).bindAll id names vs
  | _, _ => s

/-- The binding of a name in a scope itself. -/
def local? (s : Store) (id : ScopeId) (name : String) : Option Value :=
  s.scopes[id.index]?.bind fun scope ↦ scope.bindings.lookup name

/-- The binding of a name in the nearest of `count` scopes that binds it, going outwards. -/
def lookupWithin (s : Store) : Nat → ScopeId → String → Option Value
  | 0, _, _ => none
  | count + 1, id, name =>
    match s.scopes[id.index]? with
    | none => none
    | some scope =>
      match scope.bindings.lookup name with
      | some value => some value
      | none =>
        match scope.outer with
        | none => none
        | some outer => s.lookupWithin count outer name

/-- The binding of a name in the nearest scope that binds it, going outwards. A scope lies in one
that was made before it, so its number bounds the way. -/
def lookup? (s : Store) (id : ScopeId) (name : String) : Option Value :=
  s.lookupWithin (id.index + 1) id name

/-! ### Sinks -/

/-- Everything that was written to a sink. -/
def written (s : Store) (id : SinkId) : String :=
  s.sinks.getD id.index ""

/-- What was written in a scope and in those that share its sink. -/
def output (s : Store) (id : ScopeId) : String :=
  s.written (s.sinkOf id)

/-- Adds a text to the sink of a scope. -/
def write (s : Store) (id : ScopeId) (text : String) : Store :=
  { s with sinks := s.sinks.modify (s.sinkOf id).index (· ++ text) }

end Store

end Treewalk
