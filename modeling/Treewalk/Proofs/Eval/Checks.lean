import Treewalk.Proofs.Eval.Errors

/-!
# Checks that never fail

Some operations rely on a check made elsewhere. The element of an array is read at a place that is
in range, a slice is taken between bounds that are, a shift is by less than the width of a word, the
logical operators are dealt with before the integer ones, and a builtin reads its arguments by place
after their number was accepted. `Checked` has these operations with the checks written out where
they are relied upon: where one fails, an arbitrary computation `fault` takes over.

The result never depends on `fault`: not for an operation on values, whatever it is applied to, and
not for a builtin of the table, whose argument counts fit what the builtin reads. So the evaluation
of expressions and statements obeys the equations with the checks, in every store and whatever
`fault` is (`Checked.expr_eq`, `Checked.stmt_eq`), which leaves no room for it to be reached. And
evaluation meets no builtins but those of the table and those that the store had from the start
(`Visits.builtinFrom`).
-/

set_option autoImplicit false
set_option relaxedAutoImplicit false

namespace Treewalk

namespace Checked

/-! ### Elements and slices -/

/-- The element of a value under an index. The place in an array has to be in range. -/
def index (fault : Eval Value) (target subscript : Value) : Eval Value :=
  match target, subscript with
  | .array id, .int i => do
    let xs := (← get).elements id
    match Word.slot? i xs.size with
    | some slot => if h : slot < xs.size then return xs[slot] else fault
    | none => return .null
  | _, _ => Eval.index target subscript

/-- The length of an array or a string. -/
def length (target : Value) : Eval Nat := do
  match target with
  | .array id => return ((← get).elements id).size
  | .str text => return text.length
  | _ => Eval.fail (.indexNotSupported target.kind)

/-- A part of an array or a string. The bounds have to be in order and in range, and values of other
kinds have to be refused before. -/
def slice (fault : Eval Value) (target : Value) (start stop : Option Value) : Eval Value := do
  let n ← length target
  let first ← Eval.ofExcept (Eval.bound target.kind n 0 start)
  let last ← Eval.ofExcept (Eval.bound target.kind n n stop)
  let last := max first last
  match target with
  | .array id =>
    let xs := (← get).elements id
    if first ≤ last ∧ last ≤ xs.size then Eval.newArray (xs.extract first last) else fault
  | .str text =>
    if first ≤ last then
      return .str (String.ofList ((text.toList.drop first).take (last - first)))
    else fault
  | _ => fault

/-- Stores a value under an index. The place in an array has to be in range. -/
def store (fault : Eval Unit) (target subscript value : Value) : Eval Unit :=
  match target, subscript with
  | .array id, .int i => do
    let xs := (← get).elements id
    match Word.slot? i xs.size with
    | some slot =>
      if slot < xs.size then modify fun s ↦ s.setElement id slot value else fault
    | none => Eval.fail (.indexOutOfRange i xs.size)
  | _, _ => Eval.store target subscript value

theorem lt_of_slot? {i : Int64} {n slot : Nat} (h : Word.slot? i n = some slot) : slot < n := by
  unfold Word.slot? at h
  split at h
  · next hi =>
    obtain rfl := Option.some.inj h
    omega
  · cases h

theorem index_eq (fault : Eval Value) (target subscript : Value) :
    index fault target subscript = Eval.index target subscript := by
  unfold index
  split
  · next id i =>
    funext s
    simp only [Eval.index, run_bind, run_get, run_pure]
    cases hslot : Word.slot? i (s.elements id).size with
    | none => rfl
    | some slot => simp [lt_of_slot? hslot]
  · rfl

theorem bound_le {kind : ValueKind} {n default first : Nat} {v : Option Value}
    (h : Eval.bound kind n default v = .ok first) (hd : default ≤ n) : first ≤ n := by
  unfold Eval.bound at h
  split at h
  · cases h
    exact hd
  · cases h
    exact Nat.min_le_right _ _
  · cases h

theorem slice_eq (fault : Eval Value) (target : Value) (start stop : Option Value) :
    slice fault target start stop = Eval.slice target start stop := by
  funext s
  cases target with
  | array id =>
    simp only [slice, length, Eval.slice, Eval.bounds, Value.kind, run_bind, run_get, run_pure]
    cases hfirst : Eval.bound .array (s.elements id).size 0 start with
    | error e => rfl
    | ok first =>
      cases hlast : Eval.bound .array (s.elements id).size (s.elements id).size stop with
      | error e => rfl
      | ok last =>
        have hle : max first last ≤ (s.elements id).size :=
          Nat.max_le.mpr ⟨bound_le hfirst (Nat.zero_le _), bound_le hlast (Nat.le_refl _)⟩
        simp only [Eval.ofExcept, run_pure, Nat.le_max_left, hle, and_self, ↓reduceIte]
        rfl
  | str text =>
    simp only [slice, length, Eval.slice, Eval.bounds, Value.kind, run_bind, run_pure]
    rw [String.length_toList]
    cases hfirst : Eval.bound .string text.length 0 start with
    | error e => rfl
    | ok first =>
      cases hlast : Eval.bound .string text.length text.length stop with
      | error e => rfl
      | ok last =>
        simp only [Eval.ofExcept, run_pure, Nat.le_max_left, ↓reduceIte]
        rfl
  | _ => rfl

theorem store_eq (fault : Eval Unit) (target subscript value : Value) :
    store fault target subscript value = Eval.store target subscript value := by
  unfold store
  split
  · next id i =>
    funext s
    simp only [Eval.store, run_bind, run_get]
    cases hslot : Word.slot? i (s.elements id).size with
    | none => rfl
    | some slot => simp [lt_of_slot? hslot]
  · rfl

/-! ### Operators -/

/-- A shift of a word, by less than its width. -/
def shift (fault : Eval Value) (b : Int64) (shifted : Nat → Int64) : Eval Value := do
  let n ← Eval.ofExcept (Eval.shiftAmount b)
  if n < 64 then return .int (shifted n) else fault

/-- An operator on two integers, which has to be none of the logical ones. -/
def integerBinary (fault : Eval Value) (operator : BinaryOperator) (a b : Int64) : Eval Value :=
  match operator with
  | .shiftLeft => shift fault b (Word.shiftLeft a)
  | .shiftRight => shift fault b (Word.shiftRight a)
  | .unsignedShiftRight => shift fault b (Word.unsignedShiftRight a)
  | .and | .or => fault
  | _ => Eval.ofExcept (Eval.integerBinary operator a b)

/-- A binary operator on two values. -/
def binary (fault : Eval Value) (operator : BinaryOperator) (left right : Value) : Eval Value :=
  match operator, left, right with
  | .and, _, _ => return .bool (left.truthy && right.truthy)
  | .or, _, _ => return .bool (left.truthy || right.truthy)
  | _, .int a, .int b => integerBinary fault operator a b
  | _, _, _ => Eval.binary operator left right

theorem shift_eq (fault : Eval Value) (b : Int64) (shifted : Nat → Int64) :
    shift fault b shifted =
      Eval.ofExcept ((Eval.shiftAmount b).map fun n ↦ .int (shifted n)) := by
  unfold shift Eval.shiftAmount
  cases hb : Word.shiftAmount? b with
  | none => rfl
  | some n =>
    have hn : n < 64 := by
      unfold Word.shiftAmount? at hb
      split at hb
      · obtain rfl := Option.some.inj hb
        omega
      · cases hb
    funext s
    simp [hn, Eval.ofExcept, Except.map]

theorem binary_eq (fault : Eval Value) (operator : BinaryOperator) (left right : Value) :
    binary fault operator left right = Eval.binary operator left right := by
  unfold binary
  split
  · rfl
  · rfl
  · next a b hand hor =>
    cases operator with
    | and => exact absurd rfl hand
    | or => exact absurd rfl hor
    | shiftLeft => exact shift_eq fault b _
    | shiftRight => exact shift_eq fault b _
    | unsignedShiftRight => exact shift_eq fault b _
    | _ => rfl
  · rfl

/-! ### Builtins -/

/-- Goes on with the argument at a place, which has to be there. -/
def argument (fault : Eval Value) (args : List Value) (place : Nat) (next : Value → Eval Value) :
    Eval Value :=
  match args[place]? with
  | some v => next v
  | none => fault

/-- What a builtin does with its arguments, each read by its place. -/
def operate (fault : Eval Value) (scope : ScopeId) (args : List Value) : Operation → Eval Value
  | .len => argument fault args 0 Builtin.len
  | .first => argument fault args 0 Builtin.first
  | .last => argument fault args 0 Builtin.last
  | .rest => argument fault args 0 Builtin.rest
  | .push => argument fault args 0 fun v ↦ argument fault args 1 (Builtin.push v)
  | .keys => argument fault args 0 Builtin.keys
  | .values => argument fault args 0 Builtin.values
  | .delete => argument fault args 0 fun v ↦ argument fault args 1 (Builtin.delete v)
  | .contains => argument fault args 0 fun v ↦ argument fault args 1 (Builtin.contains v)
  | .puts => Builtin.puts scope args
  | .print => Builtin.print scope args
  | .type => argument fault args 0 fun v ↦ pure (.str v.kind.name)
  | .string => argument fault args 0 Builtin.string
  | .int => argument fault args 0 fun v ↦ pure (Builtin.int v)
  | .float => argument fault args 0 fun v ↦ pure (Builtin.float v)
  | .join => argument fault args 0 fun v ↦ Builtin.join v args[1]?
  | .split => argument fault args 0 fun v ↦ Builtin.split v args[1]?

/-- Calls a builtin. What one outside the table does is not checked. -/
def call (fault : Eval Value) (b : Builtin) (scope : ScopeId) (args : List Value) : Eval Value :=
  if b ∈ Builtin.table then
    if b.arity.accepts args.length then operate fault scope args b.operation
    else pure (Misuse.wrongCount b.name args.length b.arity).value
  else b.call scope args

theorem call_eq (fault : Eval Value) (b : Builtin) (scope : ScopeId) (args : List Value) :
    call fault b scope args = b.call scope args := by
  unfold call
  split
  · next hb =>
    simp only [Builtin.table, List.mem_cons, List.not_mem_nil, or_false] at hb
    unfold Builtin.call
    rcases args with _ | ⟨v, _ | ⟨w, _ | ⟨x, rest⟩⟩⟩
    all_goals
      rcases hb with rfl | rfl | rfl | rfl | rfl | rfl | rfl | rfl | rfl | rfl | rfl | rfl | rfl |
        rfl | rfl | rfl | rfl <;> simp [Arity.accepts, operate, argument]
  · rfl

/-- Calls a function or a builtin. -/
def apply (fault : Eval Value) (known : List Builtin) :
    Nat → ScopeId → Value → List Value → Eval Value
  | _ + 1, scope, .builtin b, args => do
    let v ← call fault b scope args
    match v with
    | .error message => Eval.fail (.builtin message)
    | _ => return v
  | depth, scope, callee, args => Eval.apply known depth scope callee args

theorem apply_eq (fault : Eval Value) (known : List Builtin) (depth : Nat) (scope : ScopeId)
    (callee : Value) (args : List Value) :
    apply fault known depth scope callee args = Eval.apply known depth scope callee args := by
  unfold apply
  split
  · next b =>
    rw [Eval.apply]
    exact congrArg (fun answer : Eval Value ↦ answer >>= _) (call_eq fault b scope args)
  · rfl

/-! ### Evaluation -/

/-- One step of the evaluation of an expression. -/
def expr (fault : Eval Value) (known : List Builtin) (depth : Nat) (scope : ScopeId) :
    Expr → Eval Value
  | .binary _ operator left right => do
    let v ← Eval.expr known depth scope left
    let w ← Eval.expr known depth scope right
    binary fault operator v w
  | .call _ callee arguments => do
    let f ← Eval.expr known depth scope callee
    let vs ← Eval.exprs known depth scope arguments
    apply fault known depth scope f vs
  | .index _ target subscript => do
    let v ← Eval.expr known depth scope target
    let i ← Eval.expr known depth scope subscript
    index fault v i
  | .slice _ target start stop => do
    let v ← Eval.expr known depth scope target
    let i ← Eval.optional known depth scope start
    let j ← Eval.optional known depth scope stop
    slice fault v i j
  | e => Eval.expr known (depth + 1) scope e

/-- One step of the evaluation of a statement. -/
def stmt (fault : Eval Unit) (known : List Builtin) (depth : Nat) (scope : ScopeId) :
    Stmt → Eval (Option Value)
  | .store _ name subscript e => do
    let v ← Eval.expr known depth scope e
    if v.isPending then return some v
    else
      let target ← Eval.binding scope name.text
      let i ← Eval.expr known depth scope subscript
      store fault target i v
      return none
  | statement => Eval.stmt known (depth + 1) scope statement

theorem expr_eq (fault : Eval Value) (known : List Builtin) (depth : Nat) (scope : ScopeId)
    (e : Expr) : Eval.expr known (depth + 1) scope e = expr fault known depth scope e := by
  unfold expr
  split
  · next operator left right =>
    rw [Eval.expr]
    simp only [binary_eq]
  · next callee arguments =>
    rw [Eval.expr]
    simp only [apply_eq]
  · next target subscript =>
    rw [Eval.expr]
    simp only [index_eq]
  · next target start stop =>
    rw [Eval.expr]
    simp only [slice_eq]
  · rfl

theorem stmt_eq (fault : Eval Unit) (known : List Builtin) (depth : Nat) (scope : ScopeId)
    (statement : Stmt) :
    Eval.stmt known (depth + 1) scope statement = stmt fault known depth scope statement := by
  unfold stmt
  split
  · next name subscript e =>
    rw [Eval.stmt]
    simp only [store_eq]
  · rfl

end Checked

/-! ### Builtins that evaluation meets -/

/-- A builtin is one of the table or one of the host's, also inside of pending returns. -/
def Value.BuiltinFrom (host : Builtin → Prop) (v : Value) : Prop :=
  ∀ b, v.settled = .builtin b → b ∈ Builtin.table ∨ host b

theorem kept_builtinFrom (host : Builtin → Prop) :
    Kept Builtin.table (Value.BuiltinFrom host) where
  made v h b hb := by
    cases v with
    | pending w => exact absurd h.1.2 (by simp [Value.isPending])
    | builtin c => exact absurd h.2 (by simp [Value.isBuiltin])
    | _ => cases hb
  builtin b hb c hc := by
    obtain rfl := Value.builtin.inj hc
    exact .inl hb
  toPending v h := by cases v <;> exact h
  result v h := by cases v <;> exact h

/-- Whatever is evaluated, each builtin that an expression comes to is one of the table, or the
store had it from the start. -/
theorem Visits.builtinFrom {host : Builtin → Prop} {E : Expr → Prop} {S : Stmt → Prop}
    {s t u : Store} (h : Visits Builtin.table E S s t) (hs : s.Holds (Value.BuiltinFrom host))
    {depth : Nat} {scope : ScopeId} {e : Expr} {b : Builtin}
    (he : Eval.expr Builtin.table depth scope e t = .ok (.builtin b) u) :
    b ∈ Builtin.table ∨ host b := by
  have ht := h.holds_of_kept (kept_builtinFrom host) hs
  have hconfined := (Eval.confinedAt_of_kept (kept_builtinFrom host) depth).expr scope e t ht
  exact (hconfined.of_ok he).2 b rfl

end Treewalk
