import Treewalk.Proofs.Eval.Confinement

/-!
# What operations do to the store

An operator, a slice or a range gives a scalar and changes nothing, or it makes an array
(`Builds`). A builtin answers without a change, or it has the one effect of its operation: a new
array, a key taken out of a hash, or a text written. `Builtin.Effect` lists what an answer may come
with, and `Builtin.call_effect` says that nothing else happens. Only where a value has no text, or
where the comparison of values does not end, there is no answer, and then nothing has changed
either.

The elements of a new array come from the store and the arguments or are scalars, so they have every
property that these have.
-/

set_option autoImplicit false
set_option relaxedAutoImplicit false

namespace Treewalk

/-- A number, a text, a truth value or `null`, which refers to nothing in a store. -/
def Value.IsScalar : Value → Prop
  | .int _ | .float _ | .str _ | .bool _ | .null => True
  | _ => False

theorem Value.holds_getD_null {P : Value → Prop} (hP : P .null) {o : Option Value}
    (h : ∀ v ∈ o, P v) : P (o.getD .null) := by
  cases o with
  | none => exact hP
  | some v => exact h v rfl

/-- The value is a new array with elements that have a property, and it is all that is new. -/
def Store.MakesArray (P : Value → Prop) (s : Store) (v : Value) (t : Store) : Prop :=
  ∃ xs : Array Value, (∀ x ∈ xs, P x) ∧ v = .array ⟨s.cells.size⟩ ∧
    t = (s.allocate (.array xs)).2

/-! ### Operators, slices and ranges -/

/-- A computation that gives a scalar or a new array. -/
def Builds (P : Value → Prop) (s : Store) (m : Eval Value) : Prop :=
  Ensures m s (fun v t ↦ v.IsScalar ∧ t = s ∨ s.MakesArray P v t) fun _ t ↦ t = s

namespace Eval

theorem integerBinary_scalar {operator : BinaryOperator} {a b : Int64} {v : Value}
    (h : integerBinary operator a b = .ok v) : v.IsScalar := by
  unfold integerBinary integerPower shiftAmount at h
  cases operator <;> dsimp only at h <;> repeat' split at h
  all_goals cases h <;> trivial

theorem floatBinary?_scalar {operator : BinaryOperator} {a b : Float} {v : Value}
    (h : floatBinary? operator a b = some v) : v.IsScalar := by
  unfold floatBinary? at h
  cases operator <;> cases h <;> trivial

theorem stringBinary?_scalar {operator : BinaryOperator} {a b : String} {v : Value}
    (h : stringBinary? operator a b = some v) : v.IsScalar := by
  unfold stringBinary? at h
  cases operator <;> cases h <;> trivial

theorem identityBinary_scalar {operator : BinaryOperator} {left right v : Value}
    (h : identityBinary operator left right = .ok v) : v.IsScalar := by
  unfold identityBinary at h
  cases operator <;> cases h <;> trivial

theorem unary_scalar {operator : UnaryOperator} {operand v : Value}
    (h : unary operator operand = .ok v) : v.IsScalar := by
  unfold unary at h
  repeat' split at h
  all_goals cases h <;> trivial

theorem stepped_scalar {direction : StepDirection} {name : String} {old v : Value}
    (h : stepped direction name old = .ok v) : v.IsScalar := by
  unfold stepped at h
  repeat' split at h
  all_goals cases h <;> trivial

variable {P : Value → Prop} {s : Store}

theorem builds_scalar {v : Value} (h : v.IsScalar) : Builds P s (pure v) :=
  .inl ⟨h, rfl⟩

theorem builds_ofExcept {x : Except RuntimeError Value} (h : ∀ v, x = .ok v → v.IsScalar) :
    Builds P s (ofExcept x) := by
  cases x with
  | ok v => exact .inl ⟨h v rfl, rfl⟩
  | error e => exact rfl

theorem builds_newArray {xs : Array Value} (h : ∀ x ∈ xs, P x) : Builds P s (newArray xs) :=
  .inr ⟨xs, h, rfl, rfl⟩

theorem builds_range (hP : ∀ v : Value, v.IsScalar → P v) (sort : RangeBound)
    (start stop : Value) : Builds P s (range sort start stop) := by
  unfold range
  split
  · next a b =>
    unfold Builds
    rw [ensures_bind]
    cases interval sort a b with
    | error e => exact rfl
    | ok words =>
      refine builds_newArray fun x hx ↦ ?_
      obtain ⟨w, -, rfl⟩ := Array.mem_map.mp hx
      exact hP _ trivial
  · exact rfl

section Contents

variable (hs : s.Holds P)

include hs

theorem builds_slice (target : Value) (start stop : Option Value) :
    Builds P s (slice target start stop) := by
  unfold slice Builds
  split
  · next id =>
    rw [ensures_bind, ensures_get]
    dsimp only
    rw [ensures_bind]
    cases bounds .array (s.elements id).size start stop with
    | error e => exact rfl
    | ok bounds => exact builds_newArray fun x hx ↦ hs.elements id x (mem_of_mem_extract hx)
  · next text =>
    dsimp only
    rw [ensures_bind]
    cases bounds .string text.toList.length start stop with
    | error e => exact rfl
    | ok bounds => exact builds_scalar trivial
  · exact rfl

theorem builds_binary (operator : BinaryOperator) (left right : Value) :
    Builds P s (binary operator left right) := by
  unfold binary
  split
  · exact builds_scalar trivial
  · exact builds_scalar trivial
  · extract_lets orFail
    have hfail : ∀ o, (∀ v, o = some v → v.IsScalar) → Builds P s (orFail o) := by
      intro o ho
      cases o with
      | some v => exact builds_scalar (ho v rfl)
      | none => exact rfl
    split
    · exact builds_ofExcept fun v ↦ integerBinary_scalar
    · exact hfail _ fun v ↦ floatBinary?_scalar
    · exact hfail _ fun v ↦ floatBinary?_scalar
    · exact hfail _ fun v ↦ floatBinary?_scalar
    · exact hfail _ fun v ↦ stringBinary?_scalar
    · next a b =>
      split
      · refine builds_newArray fun x hx ↦ ?_
        rcases Array.mem_append.mp hx with hx | hx
        · exact hs.elements a x hx
        · exact hs.elements b x hx
      · exact builds_ofExcept fun v ↦ identityBinary_scalar
    · exact builds_ofExcept fun v ↦ identityBinary_scalar

theorem index_effect (hP : ∀ v : Value, v.IsScalar → P v) (target subscript : Value) :
    Ensures (index target subscript) s (fun v t ↦ P v ∧ t = s) fun _ t ↦ t = s := by
  unfold index
  rw [ensures_bind, ensures_get]
  split
  · next id i =>
    refine ⟨?_, rfl⟩
    cases hfound : (Word.slot? i (s.elements id).size).bind fun slot ↦ (s.elements id)[slot]? with
    | none => exact hP .null trivial
    | some v =>
      obtain ⟨slot, -, hv⟩ := Option.bind_eq_some_iff.mp hfound
      exact hs.elements id v (Array.mem_of_getElem? hv)
  · next text i =>
    refine ⟨?_, rfl⟩
    generalize (Word.slot? i text.toList.length).bind _ = found
    cases found with
    | none => exact hP .null trivial
    | some c => exact hP _ trivial
  · exact rfl
  · exact rfl
  · next id =>
    rw [ensures_bind]
    cases keyOf subscript with
    | error e => exact rfl
    | ok k =>
      refine ⟨?_, rfl⟩
      cases hk : (s.entries id).get? k with
      | none => exact hP .null trivial
      | some e => exact (hs.entries id e (List.mem_of_find?_eq_some hk)).2
  · exact rfl

end Contents

/-! ### Storing under an index -/

/-- Why nothing can be stored under an index of a value. -/
inductive Refuses (s : Store) : Value → Value → RuntimeError → Prop where
  | outOfRange {id : CellId} {i : Int64} :
      ¬ (0 ≤ i.toInt ∧ i.toInt < (s.elements id).size) →
      Refuses s (.array id) (.int i) (.indexOutOfRange i (s.elements id).size)
  | noIndex {id : CellId} {subscript : Value} : subscript.kind ≠ .integer →
      Refuses s (.array id) subscript (.invalidIndex .array subscript.kind)
  | noKey {id : CellId} {subscript : Value} : Key.ofValue? subscript = none →
      Refuses s (.hash id) subscript (.unusableKey subscript.kind)
  | noElements {target subscript : Value} : target.kind ≠ .array → target.kind ≠ .hash →
      Refuses s target subscript (.storeNotSupported target.kind)

/-- The store after a value was stored under an index of another. -/
inductive Assigns (s : Store) : Value → Value → Value → Store → Prop where
  | element {id : CellId} {i : Int64} {v : Value} : 0 ≤ i.toInt →
      i.toInt < (s.elements id).size →
      Assigns s (.array id) (.int i) v (s.setElement id i.toInt.toNat v)
  | entry {id : CellId} {subscript v : Value} {k : Key} : Key.ofValue? subscript = some k →
      Assigns s (.hash id) subscript v (s.modifyEntries id (Table.insert ⟨k, subscript, v⟩))

theorem store_effect (target subscript v : Value) :
    Ensures (store target subscript v) s (fun _ t ↦ Assigns s target subscript v t)
      fun e t ↦ ∃ err, e = .failed err ∧ Refuses s target subscript err ∧ t = s := by
  unfold store
  split
  · next id i =>
    rw [ensures_bind, ensures_get]
    dsimp only [Word.slot?]
    by_cases hi : 0 ≤ i.toInt ∧ i.toInt < (s.elements id).size
    · rw [if_pos hi]
      exact .element hi.1 hi.2
    · rw [if_neg hi]
      exact ⟨_, rfl, .outOfRange hi, rfl⟩
  · next id hne =>
    refine ⟨_, rfl, .noIndex fun hkind ↦ ?_, rfl⟩
    cases subscript <;> cases hkind
    exact hne _ rfl
  · next id =>
    rw [ensures_bind, keyOf]
    cases hk : Key.ofValue? subscript with
    | none => exact ⟨_, rfl, .noKey hk, rfl⟩
    | some k => exact .entry hk
  · next harray hhash _ =>
    refine ⟨_, rfl, .noElements (fun hkind ↦ ?_) fun hkind ↦ ?_, rfl⟩
    · cases target <;> cases hkind
      exact harray _ rfl
    · cases target <;> cases hkind
      exact hhash _ rfl

end Eval

/-! ### Builtins -/

namespace Operation

/-- The operations that answer with a new array. -/
def makesArray : Operation → Bool
  | rest | push | keys | values | split => true
  | _ => false

/-- The operations that only answer. -/
def isQuery : Operation → Bool
  | len | first | last | contains | type | string | int | float | join => true
  | _ => false

/-- How the operations that write lay out the texts of their arguments: each on a line of its own,
or all on one line with spaces between them. -/
def layout? : Operation → Option (List String → String)
  | puts => some fun texts ↦ String.join (texts.map (· ++ "\n"))
  | print => some fun texts ↦ " ".intercalate texts ++ "\n"
  | _ => none

end Operation

namespace Builtin

/-- What the answer of a builtin comes with: the store that is left. -/
inductive Effect (P : Value → Prop) (operation : Operation) (scope : ScopeId) (args : List Value)
    (s : Store) : Value → Store → Prop where
  | refusal (message : String) : Effect P operation scope args s (.error message) s
  | query {v : Value} : operation.isQuery = true → P v → Effect P operation scope args s v s
  | nothingLeft : operation = .rest → Effect P operation scope args s .null s
  | array {v : Value} {t : Store} : operation.makesArray = true → s.MakesArray P v t →
      Effect P operation scope args s v t
  | deletion {id : CellId} {key : Value} {k : Key} : operation = .delete →
      args = [.hash id, key] → Key.ofValue? key = some k →
      Effect P operation scope args s (.hash id) (s.modifyEntries id fun t ↦ t.erase k)
  | output {layout : List String → String} {texts : List String} :
      operation.layout? = some layout → args.mapM s.inspect? = some texts →
      Effect P operation scope args s .null (s.write scope (layout texts))

variable {P : Value → Prop} {operation : Operation} {scope : ScopeId} {args : List Value}
  {s : Store}

/-- A computation that answers with an effect, or does nothing because it does not end. -/
def Performs (P : Value → Prop) (operation : Operation) (scope : ScopeId) (args : List Value)
    (s : Store) (m : Eval Value) : Prop :=
  Ensures m s (Effect P operation scope args s) fun e t ↦ e = .exhausted ∧ t = s

theorem performs_misuse (m : Misuse) : Performs P operation scope args s (pure m.value) :=
  .refusal m.message

theorem performs_answer {v : Value} (h : operation.isQuery = true) (hv : P v) :
    Performs P operation scope args s (pure v) :=
  .query h hv

theorem performs_newArray {xs : Array Value} (h : operation.makesArray = true)
    (hxs : ∀ x ∈ xs, P x) : Performs P operation scope args s (Eval.newArray xs) :=
  .array h ⟨xs, hxs, rfl, rfl⟩

theorem performs_ofOption {α : Type} {o : Option α} {f : α → Eval Value}
    (h : ∀ a, o = some a → Performs P operation scope args s (f a)) :
    Performs P operation scope args s (Eval.ofOption o >>= f) := by
  cases o with
  | some a => exact h a rfl
  | none => exact ⟨rfl, rfl⟩

/-- The texts of values are those that the store gives them. -/
theorem mapM_ofOption {α β : Type} (f : α → Option β) (xs : List α) :
    xs.mapM (fun x ↦ Eval.ofOption (f x)) = Eval.ofOption (xs.mapM f) := by
  induction xs with
  | nil => rfl
  | cons x xs ih =>
    rw [List.mapM_cons, List.mapM_cons, ih]
    cases f x with
    | none => rfl
    | some a =>
      cases xs.mapM f with
      | none => rfl
      | some as => rfl

theorem performs_texts {vs : List Value} {f : List String → Eval Value}
    (h : ∀ texts, vs.mapM s.inspect? = some texts → Performs P operation scope args s (f texts)) :
    Performs P operation scope args s (texts vs >>= f) := by
  unfold texts
  simp only [mapM_ofOption]
  exact performs_ofOption h

theorem performs_output {layout : List String → String} (h : operation.layout? = some layout) :
    Performs P operation scope args s
      (texts args >>= fun texts ↦ write scope (layout texts)) :=
  performs_texts fun _ htexts ↦ .output h htexts

theorem performs_delete (v key : Value) :
    Performs P .delete scope [v, key] s (delete v key) := by
  unfold delete
  split
  · split
    · next k hk => exact .deletion rfl rfl hk
    · exact performs_misuse _
  · exact performs_misuse _

section Contents

variable (hs : s.Holds P)

include hs

theorem performs_rest (v : Value) : Performs P .rest scope args s (rest v) := by
  unfold rest Performs
  split
  · next id =>
    rw [ensures_bind, ensures_get]
    dsimp only
    split
    · exact .nothingLeft rfl
    · exact performs_newArray rfl fun w hw ↦ hs.elements id w (mem_of_mem_extract hw)
  · exact performs_misuse _

theorem performs_push (v : Value) {element : Value} (he : P element) :
    Performs P .push scope args s (push v element) := by
  unfold push
  split
  · next id => exact performs_newArray rfl (forall_mem_push (hs.elements id) he)
  · exact performs_misuse _

theorem performs_keys (v : Value) : Performs P .keys scope args s (keys v) := by
  unfold keys
  split
  · next id =>
    refine performs_newArray rfl fun w hw ↦ ?_
    obtain ⟨e, he, rfl⟩ := List.mem_map.mp (List.mem_toArray.mp hw)
    exact (hs.entries id e he).1
  · exact performs_misuse _

theorem performs_values (v : Value) : Performs P .values scope args s (values v) := by
  unfold values
  split
  · next id =>
    refine performs_newArray rfl fun w hw ↦ ?_
    obtain ⟨e, he, rfl⟩ := List.mem_map.mp (List.mem_toArray.mp hw)
    exact (hs.entries id e he).2
  · exact performs_misuse _

end Contents

section Scalars

variable (hP : ∀ v : Value, v.IsScalar → P v)

include hP

theorem performs_len (v : Value) : Performs P .len scope args s (len v) := by
  unfold len Performs
  rw [ensures_bind, ensures_get]
  split
  · exact performs_answer rfl (hP _ trivial)
  · exact performs_answer rfl (hP _ trivial)
  · exact performs_answer rfl (hP _ trivial)
  · exact performs_misuse _

theorem performs_contains (v part : Value) :
    Performs P .contains scope args s (contains v part) := by
  unfold contains Performs
  rw [ensures_bind, ensures_get]
  split
  · exact performs_answer rfl (hP _ trivial)
  · exact performs_misuse _
  · exact performs_ofOption fun b _ ↦ performs_answer rfl (hP _ trivial)
  · split
    · exact performs_answer rfl (hP _ trivial)
    · exact performs_misuse _
  · exact performs_misuse _

theorem performs_string (v : Value) : Performs P .string scope args s (string v) := by
  unfold string Performs
  rw [ensures_bind, ensures_get]
  exact performs_ofOption fun text _ ↦ performs_answer rfl (hP _ trivial)

theorem performs_int (v : Value) : Performs P .int scope args s (pure (int v)) := by
  unfold int
  repeat' split
  all_goals first
    | exact performs_answer rfl (hP _ trivial)
    | exact performs_misuse _

theorem performs_float (v : Value) : Performs P .float scope args s (pure (float v)) := by
  unfold float
  repeat' split
  all_goals first
    | exact performs_answer rfl (hP _ trivial)
    | exact performs_misuse _

theorem performs_join (v : Value) (separator : Option Value) :
    Performs P .join scope args s (join v separator) := by
  unfold join Performs
  split
  · split
    · rw [ensures_bind, ensures_get]
      exact performs_texts fun texts _ ↦ performs_answer rfl (hP _ trivial)
    · exact performs_misuse _
  · exact performs_misuse _

theorem performs_split (v : Value) (separator : Option Value) :
    Performs P .split scope args s (split v separator) := by
  unfold split
  split
  · split
    · refine performs_newArray rfl fun w hw ↦ ?_
      obtain ⟨p, -, rfl⟩ := List.mem_map.mp (List.mem_toArray.mp hw)
      exact hP _ trivial
    · exact performs_misuse _
  · exact performs_misuse _

theorem performs_first (hs : s.Holds P) (v : Value) :
    Performs P .first scope args s (first v) := by
  unfold first
  split
  · next id =>
    refine performs_answer rfl (Value.holds_getD_null (hP .null trivial) fun w hw ↦ ?_)
    exact hs.elements id w (Array.mem_of_getElem? hw)
  · exact performs_misuse _

theorem performs_last (hs : s.Holds P) (v : Value) :
    Performs P .last scope args s (last v) := by
  unfold last
  split
  · next id =>
    refine performs_answer rfl (Value.holds_getD_null (hP .null trivial) fun w hw ↦ ?_)
    exact hs.elements id w (Array.mem_of_back? hw)
  · exact performs_misuse _

/-- A builtin has the effect of its operation or none. -/
theorem call_effect (hs : s.Holds P) (b : Builtin) (hargs : ∀ v ∈ args, P v) :
    Performs P b.operation scope args s (b.call scope args) := by
  obtain ⟨name, arity, operation⟩ := b
  unfold call
  dsimp only
  split
  · split
    · exact performs_len hP _
    · exact performs_first hP hs _
    · exact performs_last hP hs _
    · exact performs_rest hs _
    · exact performs_push hs _ (hargs _ (by simp))
    · exact performs_keys hs _
    · exact performs_values hs _
    · exact performs_delete _ _
    · exact performs_contains hP _ _
    · exact performs_output rfl
    · exact performs_output rfl
    · exact performs_answer rfl (hP _ trivial)
    · exact performs_string hP _
    · exact performs_int hP _
    · exact performs_float hP _
    · exact performs_join hP _ _
    · exact performs_join hP _ _
    · exact performs_split hP _ _
    · exact performs_split hP _ _
    · exact performs_misuse _
  · exact performs_misuse _

end Scalars

end Builtin

end Treewalk
