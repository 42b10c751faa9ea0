import Treewalk.Program
import Treewalk.Proofs.Eval.Relations

/-!
# What evaluation does not depend on

Code keeps its places only in the closures that it makes. So code that is the same up to places,
evaluated in stores that are the same up to places, comes to the same value and leaves stores that
are the same up to places (`Eval.block_erase`). The bound on the depth only decides whether an
evaluation comes to an end: under any two bounds that are not used up it is the same
(`Eval.block_eq_block`).
-/

set_option autoImplicit false
set_option relaxedAutoImplicit false

namespace Treewalk

/-! ### Places -/

/-- The closure without its places. -/
def Closure.erase (c : Closure) : Closure :=
  ⟨c.parameters.map Name.erase, c.body.erase, c.scope⟩

theorem Closure.relocate_default (c : Closure) : c.relocate (fun _ ↦ default) = c.erase := by
  rw [Closure.relocate, Closure.erase, c.body.relocate_default]
  rfl

namespace Store

/-- The store without the places in its closures. Cells, bindings and sinks stay as they are. -/
def erase (s : Store) : Store :=
  s.withClosures (s.closures.map Closure.erase)

theorem closureText_erase (c : Closure) : closureText c.erase = closureText c := by
  rw [closureText, Closure.erase, parameterText_erase, Block.text_erase, closureText]

theorem closure_erase (s : Store) (id : ClosureId) : s.erase.closure id = (s.closure id).erase := by
  rw [closure, erase, withClosures, closure, Array.getD_eq_getD_getElem?,
    Array.getD_eq_getD_getElem?, Array.getElem?_map]
  cases s.closures[id.index]? with
  | none => rfl
  | some c => rfl

theorem shows_erase (s : Store) : s.Shows (s.closures.map Closure.erase) := fun id ↦
  (congrArg closureText (s.closure_erase id)).trans (closureText_erase _)

section Observation

variable {s t : Store} (h : s.erase = t.erase)

include h

/-- Places do not show in the texts of values. -/
theorem inspect?_of_erase_eq (v : Value) : s.inspect? v = t.inspect? v := by
  have hs : s.erase.inspect? v = s.inspect? v := inspect?_withClosures s.shows_erase v
  have ht : t.erase.inspect? v = t.inspect? v := inspect?_withClosures t.shows_erase v
  rw [← hs, h, ht]

/-- Nor do they in what was written. -/
theorem output_of_erase_eq (id : ScopeId) : s.output id = t.output id := by
  change s.erase.output id = t.erase.output id
  rw [h]

end Observation

end Store

/-- Without places, the evaluation `n` comes to what `m` comes to. -/
def Erases {α : Type} (m n : Eval α) : Prop :=
  ∀ s : Store, n s.erase = mapOutcome id id Store.erase (m s)

theorem Oblivious.erases {α : Type} {m : Eval α} (h : Oblivious m) : Erases m m := by
  intro s
  rw [Store.erase, h s _ s.shows_erase]
  cases hm : m s with
  | ok a t => rw [mapOutcome, mapOutcome, Store.erase, (h.keeps_closures s).of_ok hm]
  | error e t => rw [mapOutcome, mapOutcome, Store.erase, (h.keeps_closures s).of_error hm]

theorem erases_relation : Eval.Relation (fun _ ↦ default) Erases where
  oblivious h := h.erases
  bind := by
    intro α β m n k l hm hk s
    rw [run_bind, run_bind, hm s]
    cases m s with
    | ok a t => exact hk a t
    | error e t => rfl
  newClosure c s := by
    rw [c.relocate_default]
    simp [Eval.newClosure, Store.close, Store.erase, Store.withClosures, mapOutcome]
  closure := by
    intro α id k l hk s
    change l (s.erase.closure id) s.erase = _
    rw [s.closure_erase, ← Closure.relocate_default]
    exact hk (s.closure id) s

/-- Statements without their places, evaluated in a store without its places. -/
theorem Eval.block_erase (known : List Builtin) (depth : Nat) (scope : ScopeId) (ss : List Stmt)
    (s : Store) :
    Eval.block known depth scope (Stmt.eraseList ss) s.erase =
      mapOutcome id id Store.erase (Eval.block known depth scope ss s) := by
  have hrelated := Eval.relatedAt erases_relation (erases_relation.resolves known)
    (Nat.le_refl depth) (.inl rfl)
  have h := hrelated.block scope ss s
  rwa [Stmt.relocateList_default] at h

/-- Statements that are the same up to places come to the same up to places. -/
theorem Eval.block_of_eraseList_eq (known : List Builtin) (depth : Nat) (scope : ScopeId)
    {ss ss' : List Stmt} (h : Stmt.eraseList ss = Stmt.eraseList ss') (s : Store) :
    mapOutcome id id Store.erase (Eval.block known depth scope ss s) =
      mapOutcome id id Store.erase (Eval.block known depth scope ss' s) := by
  rw [← Eval.block_erase, h, Eval.block_erase]

theorem Eval.block_map_relocate (known : List Builtin) (depth : Nat) (scope : ScopeId)
    (g : Position → Position) (ss : List Stmt) (s : Store) :
    mapOutcome id id Store.erase (Eval.block known depth scope (ss.map (Stmt.relocate g)) s) =
      mapOutcome id id Store.erase (Eval.block known depth scope ss s) := by
  refine Eval.block_of_eraseList_eq known depth scope ?_ s
  rw [← Stmt.relocateList_eq_map, Stmt.eraseList_relocateList]

/-! ### Bounds -/

/-- The evaluation `n` comes to what `m` comes to, unless `m` stops for one of some causes. -/
def AgreesUnless (E : Stop → Prop) {α : Type} (m n : Eval α) : Prop :=
  ∀ s : Store, (∃ e t, E e ∧ m s = .error e t) ∨ n s = m s

theorem Closure.relocate_id (c : Closure) : c.relocate id = c := by
  rw [Closure.relocate, c.body.relocate_id, Name.map_relocate_id]

/-- A computation that stops goes no further, so the causes are those of its parts. -/
theorem agreesUnless_relation (E : Stop → Prop) : Eval.Relation id (AgreesUnless E) where
  oblivious _ _ := .inr rfl
  bind := by
    intro α β m n k l hm hk s
    rw [run_bind, run_bind]
    rcases hm s with ⟨e, t, he, ht⟩ | hs
    · exact .inl ⟨e, t, he, by rw [ht]⟩
    · rw [hs]
      cases m s with
      | ok a t => exact hk a t
      | error e t => exact .inr rfl
  newClosure c s := by
    rw [c.relocate_id]
    exact .inr rfl
  closure := by
    intro α id k l hk s
    have h := hk (s.closure id) s
    rwa [Closure.relocate_id] at h

/-- Under a larger bound all code comes to the same, unless the smaller one is used up. -/
theorem Eval.relatedAt_of_le [Host] (known : List Builtin) {depth depth' : Nat}
    (hle : depth ≤ depth') :
    Eval.RelatedAt id (AgreesUnless (· = Stop.exhausted)) known known depth depth' := by
  have hresolves : Eval.Resolves (AgreesUnless (· = Stop.exhausted)) known known :=
    ⟨fun _ _ _ ↦ .inr rfl, fun _ _ _ _ ↦ .inr rfl⟩
  have hthrow : ∀ {α : Type} (n : Eval α),
      AgreesUnless (· = Stop.exhausted) (throw .exhausted) n :=
    fun n s ↦ .inl ⟨.exhausted, s, rfl, rfl⟩
  exact Eval.relatedAt (agreesUnless_relation _) hresolves hle (.inr hthrow)

/-- Statements that come to an end do so in the same way under a larger bound. -/
theorem Eval.block_of_le {known : List Builtin} {depth depth' : Nat} (hle : depth ≤ depth')
    {scope : ScopeId} {ss : List Stmt} {s : Store}
    (h : ∀ t, Eval.block known depth scope ss s ≠ .error .exhausted t) :
    Eval.block known depth' scope ss s = Eval.block known depth scope ss s := by
  rcases (Eval.relatedAt_of_le known hle).block scope ss s with ⟨e, t, rfl, ht⟩ | hsame
  · exact absurd ht (h t)
  · rwa [Stmt.relocateList_id] at hsame

/-- Under any two bounds that are not used up, statements come to the same. -/
theorem Eval.block_eq_block {known : List Builtin} {depth depth' : Nat} {scope : ScopeId}
    {ss : List Stmt} {s : Store} (h : ∀ t, Eval.block known depth scope ss s ≠ .error .exhausted t)
    (h' : ∀ t, Eval.block known depth' scope ss s ≠ .error .exhausted t) :
    Eval.block known depth scope ss s = Eval.block known depth' scope ss s := by
  rcases Nat.le_total depth depth' with hle | hle
  · exact (Eval.block_of_le hle h).symm
  · exact Eval.block_of_le hle h'

end Treewalk
