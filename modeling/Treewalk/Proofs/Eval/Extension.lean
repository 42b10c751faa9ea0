import Treewalk.Proofs.Eval.Independence

/-!
# More builtins

A name is looked for among the bindings first and in the table of builtins last, and only there does
an evaluation look at the table. So a larger table, in which every name that the smaller one knows
has the same entry, makes a difference only to a name that is not found with the smaller one. Then
the evaluation with the smaller table fails for want of that name, and nothing goes on after a
failure. A program that does not fail in this way does the same with both tables
(`program_eq_of_extends`), whatever the builtins do: their calls are carried out by an arbitrary
host.
-/

set_option autoImplicit false
set_option relaxedAutoImplicit false

namespace Treewalk

/-- Every name that the first table knows has the same entry in the second. -/
def Builtin.Extends (known known' : List Builtin) : Prop :=
  ∀ (name : String) (b : Builtin), find? known name = some b → find? known' name = some b

/-- A name that was looked for is bound nowhere and is no builtin. -/
def Stop.IsMissingName (e : Stop) : Prop :=
  ∃ name : String, e = .failed (.identifierNotFound name)

section Tables

variable {known known' : List Builtin}

/-- With a larger table a name means the same, unless it is not found with the smaller one. -/
theorem Eval.agreesUnless_identifier (h : Builtin.Extends known known') (scope : ScopeId)
    (name : String) :
    AgreesUnless Stop.IsMissingName (identifier known scope name)
      (identifier known' scope name) := by
  intro s
  simp only [identifier, run_bind, run_get]
  cases s.lookup? scope name with
  | some v => exact .inr rfl
  | none =>
    cases hb : Builtin.find? known name with
    | none => exact .inl ⟨_, s, ⟨name, rfl⟩, rfl⟩
    | some b => exact .inr (by rw [h name b hb])

variable [Host]

theorem Eval.resolves_of_extends (h : Builtin.Extends known known') :
    Resolves (AgreesUnless Stop.IsMissingName) known known' :=
  ⟨agreesUnless_identifier h, fun _ _ _ _ ↦ .inr rfl⟩

/-- Statements do the same with a larger table, unless a name is missing with the smaller one. -/
theorem Eval.agreesUnless_block (h : Builtin.Extends known known') (depth : Nat) (scope : ScopeId)
    (ss : List Stmt) :
    AgreesUnless Stop.IsMissingName (block known depth scope ss)
      (block known' depth scope ss) := by
  have hrelated := relatedAt (agreesUnless_relation Stop.IsMissingName)
    (resolves_of_extends h) (Nat.le_refl depth) (.inl rfl)
  have hblock := hrelated.block scope ss
  rwa [Stmt.relocateList_id] at hblock

/-- A program that does not fail for want of a name comes to the same result or error with a larger
table and leaves the same store, under every bound on the depth. -/
theorem program_eq_of_extends (h : Builtin.Extends known known') (depth : Nat) (scope : ScopeId)
    (program : Program) (s : Store)
    (hfound : ∀ (name : String) (t : Store),
      Eval.program known depth scope program s ≠ .error (.failed (.identifierNotFound name)) t) :
    Eval.program known' depth scope program s = Eval.program known depth scope program s ∧
      execute known' depth program scope s = execute known depth program scope s := by
  have hprogram : Eval.program known' depth scope program s =
      Eval.program known depth scope program s := by
    rcases Eval.agreesUnless_block h depth scope program s with ⟨_, t, ⟨name, rfl⟩, ht⟩ | hsame
    · -- The program fails as its statements do.
      refine absurd ?_ (hfound name t)
      rw [Eval.program, run_bind, ht]
    · rw [Eval.program, run_bind, hsame, Eval.program, run_bind]
  refine ⟨hprogram, ?_⟩
  rw [execute, hprogram, execute]

end Tables

/-- Binds a function that takes the first element of its argument and calls it on an array. -/
def choosingProgram : Program :=
  [.bind default ⟨"choose", default⟩ (.function default [⟨"a", default⟩] (.mk default
      [.ret default (.call default (.name default "first") [.name default "a"])])),
    .expr default (.call default (.name default "choose")
      [.array default [.bool default true, .bool default false]])]

/-- A table that knows only `first` is enough for the program, and with all builtins of the language
it does the same. -/
theorem program_eq_of_extends_choosing :
    let s := Store.empty.openGlobal.2
    let known : List Builtin := [⟨"first", .exactly 1, .first⟩]
    Builtin.Extends known Builtin.table ∧
    ∃ u : Store,
      execute known 12 choosingProgram ⟨0⟩ s = some (some (.bool true), u) ∧
      execute Builtin.table 12 choosingProgram ⟨0⟩ s = some (some (.bool true), u) := by
  intro s known
  have hextends : Builtin.Extends known Builtin.table := by
    intro name b hb
    obtain rfl : b = ⟨"first", .exactly 1, .first⟩ :=
      List.mem_singleton.mp (List.mem_of_find?_eq_some hb)
    have hname := List.find?_some hb
    obtain rfl : "first" = name := of_decide_eq_true hname
    rfl
  have hrun : Eval.program known 12 ⟨0⟩ choosingProgram s =
      .ok (some (.bool true)) (after (Eval.program known 12 ⟨0⟩ choosingProgram) s) := by
    rfl
  have hvalue : execute known 12 choosingProgram ⟨0⟩ s =
      some (some (.bool true), after (Eval.program known 12 ⟨0⟩ choosingProgram) s) := by
    rw [execute, hrun]
  have hsame := program_eq_of_extends hextends 12 ⟨0⟩ choosingProgram s (by simp [hrun])
  exact ⟨hextends, _, hvalue, hsame.2.trans hvalue⟩

end Treewalk
