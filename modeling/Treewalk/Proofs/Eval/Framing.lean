import Treewalk.Proofs.Eval.Assignment

/-!
# Builtins keep to their effect

An error value comes with no change at all. Otherwise a builtin leaves all bindings, all cells that
were there and everything that was written, but for the two things that builtins are there to do:
`delete` takes one entry out of the hash that it was given and answers with, and `puts` and `print`
write the texts of their arguments (`Builtin.Framed`).

Arrays that builtins, operators, slices and ranges make are new: nothing in the store refers to
them, and they share their cell with no value that was there before (`Store.NewArray`). Elements are
shared, as a copy of an array holds the same values, but storing under an index of one of two arrays
with different cells is never seen under an index of the other (`Value.Isolated`).
-/

set_option autoImplicit false
set_option relaxedAutoImplicit false

namespace Treewalk

/-- Storing under an index of one of the values, at any time, does not change what is found under an
index of the other. -/
def Value.Isolated (v w : Value) : Prop :=
  ∀ (u u' : Store) (i x : Value),
    (Eval.store v i x u = .ok () u' →
      ∀ j : Value, answer (Eval.index w j) u' = answer (Eval.index w j) u) ∧
    (Eval.store w i x u = .ok () u' →
      ∀ j : Value, answer (Eval.index v j) u' = answer (Eval.index v j) u)

namespace Store

/-- From `s` to `t`, the cell of an array was made. The cells that were there have stayed, and no
value in a cell or in a binding refers to the new one. -/
structure NewArray (s t : Store) (id : CellId) : Prop where
  fresh : s.cells.size ≤ id.index
  kept : ∀ j : CellId, j.index < s.cells.size → t.cells[j.index]? = s.cells[j.index]?
  unreferenced : t.Holds fun w ↦ w.settled.cell? ≠ some id

/-- From `s` to `t`, a text was added to what is written in a scope, and nothing to other sinks. -/
structure Writes (s t : Store) (scope : ScopeId) (text : String) : Prop where
  output : t.output scope = s.output scope ++ text
  others : ∀ sink : SinkId, sink ≠ s.sinkOf scope → t.written sink = s.written sink

end Store

/-- What the answer `v` of a builtin comes with, where `s` is the store before and `t` after it. -/
structure Builtin.Framed (b : Builtin) (scope : ScopeId) (args : List Value) (s : Store) (v : Value)
    (t : Store) : Prop where
  error : v.isError = true → t = s
  scopes : t.scopes = s.scopes
  closures : t.closures = s.closures
  cells : ∀ id : CellId, id.index < s.cells.size → t.cells[id.index]? ≠ s.cells[id.index]? →
    b.operation = .delete ∧ v = .hash id
  delete : b.operation = .delete → v.isError = false →
    ∃ (id : CellId) (key : Value) (k : Key), args = [.hash id, key] ∧ Key.ofValue? key = some k ∧
      v = .hash id ∧ s.DiffersAt t id ∧
      t.entries id = (s.entries id).filter fun e ↦ e.slot ≠ k
  output : ∀ layout, b.operation.layout? = some layout → v.isError = false →
    ∃ texts : List String, args.mapM s.inspect? = some texts ∧ t.cells = s.cells ∧
      s.Writes t scope (layout texts)
  silent : b.operation.layout? = none → t.sinks = s.sinks
  array : b.operation.makesArray = true → v.isError = false →
    b.operation = .rest ∧ v = .null ∨ ∃ id : CellId, v = .array id ∧ s.NewArray t id

/-! ### New arrays -/

theorem Value.cell?_settled {w : Value} {id : CellId} (h : w.cell? = some id) :
    w.settled.cell? = some id := by
  cases w <;> cases h <;> rfl

namespace Store

variable {s t : Store} {v w : Value} {id : CellId} {scope : ScopeId}

theorem index_lt_of_cell? (h : s.Has w) (hw : w.settled.cell? = some id) :
    id.index < s.cells.size := by
  induction w with
  | array j =>
    cases hw
    exact kind?_of_lt h
  | hash j =>
    cases hw
    exact kind?_of_lt h
  | pending w ih => exact ih h hw
  | _ => cases hw

theorem MakesArray.newArray (h : s.MakesArray s.Has (.array id) t) (hs : s.Sound) :
    s.NewArray t id := by
  obtain ⟨xs, hxs, hid, rfl⟩ := h
  cases hid
  refine ⟨Nat.le_refl _, fun j hj ↦ ?_, ?_⟩
  · exact (Array.getElem?_push_lt hj).trans (Array.getElem?_eq_getElem hj).symm
  · have hvalues : (s.allocate (.array xs)).2.Holds s.Has := hs.values.allocate hxs
    exact hvalues.imp fun w hw hcell ↦ Nat.lt_irrefl _ (index_lt_of_cell? hw hcell)

theorem writes_write (h : s.Hosts scope) (text : String) :
    s.Writes (s.write scope text) scope text := by
  have hwritten : ∀ sink : SinkId, (s.write scope text).written sink =
      (if (s.sinkOf scope).index = sink.index then s.sinks[sink.index]?.map (· ++ text)
        else s.sinks[sink.index]?).getD "" := fun sink ↦ by
    rw [written, write, Array.getD_eq_getD_getElem?, Array.getElem?_modify]
  refine ⟨?_, fun sink hne ↦ ?_⟩
  · show (s.write scope text).written (s.sinkOf scope) = s.written (s.sinkOf scope) ++ text
    rw [hwritten, if_pos rfl, written, Array.getD_eq_getD_getElem?,
      Array.getElem?_eq_getElem (h.sound.sinkOf_lt h.scope)]
    rfl
  · have hindex : (s.sinkOf scope).index ≠ sink.index := fun heq ↦
      hne (congrArg SinkId.mk heq.symm)
    rw [hwritten, if_neg hindex, written, Array.getD_eq_getD_getElem?]

end Store

theorem Value.isolated_of_cell?_ne {v w : Value} (h : ∀ id, v.cell? = some id → w.cell? ≠ some id) :
    v.Isolated w := by
  intro u u' i x
  constructor
  · intro hstore j
    obtain ⟨id, hid, hdiffers⟩ := ((Eval.store_effect v i x).of_ok hstore).exists_differsAt
    exact Eval.answer_index_of_differsAt hdiffers (h id hid) j
  · intro hstore j
    obtain ⟨id, hid, hdiffers⟩ := ((Eval.store_effect w i x).of_ok hstore).exists_differsAt
    exact Eval.answer_index_of_differsAt hdiffers (fun hv ↦ h id hv hid) j

theorem Builds.newArray {s t : Store} {m : Eval Value} {id : CellId} (h : Builds s.Has s m)
    (hs : s.Sound) (hm : m s = .ok (.array id) t) : s.NewArray t id := by
  rcases h.of_ok hm with ⟨hscalar, -⟩ | hmade
  · exact hscalar.elim
  · exact hmade.newArray hs

/-! ### Builtins -/

namespace Builtin

section Cases

variable {b : Builtin} {scope : ScopeId} {args : List Value} {s t : Store} {v : Value}

/-- Answers without a change. -/
theorem Framed.unchanged (h : v.isError = true ∨ b.operation.isQuery = true ∨
    b.operation = .rest ∧ v = .null) : b.Framed scope args s v s where
  error _ := rfl
  scopes := rfl
  closures := rfl
  cells _ _ hne := absurd rfl hne
  delete hop hv := by simp [hop, hv, Operation.isQuery] at h
  output _ hop hv := by
    cases hb : b.operation <;> simp_all [Operation.isQuery, Operation.layout?]
  silent _ := rfl
  array hop hv := by
    rcases h with h | h | h
    · cases hv.symm.trans h
    · cases hb : b.operation <;> simp [hb, Operation.isQuery, Operation.makesArray] at h hop
    · exact .inl h

theorem Framed.makesArray (hop : b.operation.makesArray = true) (h : s.MakesArray s.Has v t)
    (hs : s.Sound) : b.Framed scope args s v t := by
  obtain ⟨xs, -, rfl, ht⟩ := id h
  have hnew := h.newArray hs
  have hne : ∀ operation : Operation, operation.makesArray = false → b.operation ≠ operation := by
    rintro _ hoff rfl
    cases hop.symm.trans hoff
  exact {
    error := fun h ↦ by cases h
    scopes := by rw [ht]; rfl
    closures := by rw [ht]; rfl
    cells := fun id hid hchanged ↦ absurd (hnew.kept id hid) hchanged
    delete := fun h ↦ absurd h (hne _ rfl)
    output := fun _ h ↦ by
      cases hb : b.operation <;> simp [hb, Operation.layout?, Operation.makesArray] at h hop
    silent := fun _ ↦ by rw [ht]; rfl
    array := fun _ _ ↦ .inr ⟨_, rfl, hnew⟩ }

theorem Framed.deletion (hop : b.operation = .delete) {id : CellId} {key : Value} {k : Key}
    (hargs : args = [.hash id, key]) (hk : Key.ofValue? key = some k) (hid : s.Has (.hash id)) :
    b.Framed scope args s (.hash id) (s.modifyEntries id fun t ↦ t.erase k) where
  error h := by cases h
  scopes := rfl
  closures := rfl
  cells j _ hchanged := by
    refine ⟨hop, congrArg Value.hash (Decidable.byContradiction fun hne ↦ ?_)⟩
    exact hchanged ((s.differsAt_modifyCell id _).others j fun h ↦ hne h.symm)
  delete _ _ := ⟨id, key, k, hargs, hk, rfl, s.differsAt_modifyCell id _,
    Store.entries_modifyEntries hid _⟩
  output _ h := by simp [hop, Operation.layout?] at h
  silent _ := rfl
  array h := by simp [hop, Operation.makesArray] at h

theorem Framed.written {layout : List String → String} (hop : b.operation.layout? = some layout)
    {texts : List String} (htexts : args.mapM s.inspect? = some texts) (hs : s.Hosts scope) :
    b.Framed scope args s .null (s.write scope (layout texts)) where
  error h := by cases h
  scopes := rfl
  closures := rfl
  cells _ _ hne := absurd rfl hne
  delete h := by simp [h, Operation.layout?] at hop
  output _ h _ := by
    cases hop.symm.trans h
    exact ⟨texts, htexts, rfl, Store.writes_write hs _⟩
  silent h := by cases hop.symm.trans h
  array h := by
    cases hb : b.operation <;> simp [hb, Operation.layout?, Operation.makesArray] at h hop

theorem Effect.framed (h : Effect s.Has b.operation scope args s v t) (hs : s.Hosts scope)
    (hargs : ∀ v ∈ args, s.Has v) : b.Framed scope args s v t := by
  cases h with
  | refusal message => exact .unchanged (.inl rfl)
  | query hop _ => exact .unchanged (.inr (.inl hop))
  | nothingLeft hop => exact .unchanged (.inr (.inr ⟨hop, rfl⟩))
  | array hop hmade => exact .makesArray hop hmade hs.sound
  | deletion hop heq hk => exact .deletion hop heq hk (hargs _ (by simp [heq]))
  | output hop htexts => exact .written hop htexts hs

end Cases

end Builtin

/-- Every builtin keeps to its effect, or does nothing because it does not come to an answer. Arrays
from builtins, operators, slices and ranges are new, and isolated from every value that was there
before. -/
theorem builtins_framed {s : Store} {scope : ScopeId} (hs : s.Hosts scope) :
    (∀ (b : Builtin) (args : List Value), (∀ v ∈ args, s.Has v) →
      (∀ (v : Value) (t : Store), b.call scope args s = .ok v t → b.Framed scope args s v t) ∧
      ∀ (stop : Stop) (t : Store), b.call scope args s = .error stop t →
        stop = .exhausted ∧ t = s) ∧
    (∀ (operator : BinaryOperator) (left right : Value) (id : CellId) (t : Store),
      Eval.binary operator left right s = .ok (.array id) t → s.NewArray t id) ∧
    (∀ (target : Value) (start stop : Option Value) (id : CellId) (t : Store),
      Eval.slice target start stop s = .ok (.array id) t → s.NewArray t id) ∧
    (∀ (sort : RangeBound) (start stop : Value) (id : CellId) (t : Store),
      Eval.range sort start stop s = .ok (.array id) t → s.NewArray t id) ∧
    ∀ (id : CellId) (t : Store), s.NewArray t id →
      ∀ w : Value, s.Has w → (Value.array id).Isolated w := by
  refine ⟨fun b args hargs ↦ ⟨fun v t hv ↦ ?_, fun stop t hstop ↦ ?_⟩,
    fun operator left right id t h ↦ ?_, fun target start stop id t h ↦ ?_,
    fun sort start stop id t h ↦ ?_, fun id t hnew w hw ↦ ?_⟩
  · have heffect := (Builtin.call_effect s.has_of_scalar hs.sound.values b hargs).of_ok hv
    exact heffect.framed hs hargs
  · exact (Builtin.call_effect s.has_of_scalar hs.sound.values b hargs).of_error hstop
  · exact (Eval.builds_binary hs.sound.values operator left right).newArray hs.sound h
  · exact (Eval.builds_slice hs.sound.values target start stop).newArray hs.sound h
  · exact (Eval.builds_range s.has_of_scalar sort start stop).newArray hs.sound h
  · refine Value.isolated_of_cell?_ne fun j hj hw' ↦ ?_
    cases hj
    have hlt := Store.index_lt_of_cell? hw (Value.cell?_settled hw')
    exact absurd hnew.fresh (Nat.not_le.mpr hlt)

/-- A pushed element is in a new array, so storing under an index of the result is not seen in the
array that was given, and the other way round. A line that is written is all that is new. -/
theorem builtins_framed_paired :
    Eval.pairedStore.Hosts ⟨0⟩ ∧ (∀ v ∈ [Value.array ⟨0⟩, .int 3], Eval.pairedStore.Has v) ∧
    (∃ t : Store,
      Builtin.call ⟨"push", .exactly 2, .push⟩ ⟨0⟩ [.array ⟨0⟩, .int 3] Eval.pairedStore =
        .ok (.array ⟨1⟩) t ∧
      Eval.pairedStore.NewArray t ⟨1⟩ ∧ (Value.array ⟨1⟩).Isolated (.array ⟨0⟩)) ∧
    ∃ t : Store,
      Builtin.call ⟨"puts", .atLeast 0, .puts⟩ ⟨0⟩ [.array ⟨0⟩, .int 3] Eval.pairedStore =
        .ok .null t ∧
      t.output ⟨0⟩ = Eval.pairedStore.output ⟨0⟩ ++ "[1, 2]\n3\n" := by
  have hargs : ∀ v ∈ [Value.array ⟨0⟩, .int 3], Eval.pairedStore.Has v := by
    simp only [List.mem_cons, List.not_mem_nil, or_false, forall_eq_or_imp, forall_eq]
    exact ⟨rfl, trivial⟩
  obtain ⟨hbuiltin, -, -, -, hisolated⟩ := builtins_framed Eval.pairedStore_hosts
  refine ⟨Eval.pairedStore_hosts, hargs, ⟨_, rfl, ?_⟩, _, rfl, ?_⟩
  · have hframed := (hbuiltin ⟨"push", .exactly 2, .push⟩ _ hargs).1 _ _ rfl
    rcases hframed.array rfl rfl with ⟨hrest, -⟩ | ⟨id, hid, hnew⟩
    · cases hrest
    · cases hid
      exact ⟨hnew, hisolated _ _ hnew _ rfl⟩
  · have hframed := (hbuiltin ⟨"puts", .atLeast 0, .puts⟩ _ hargs).1 _ _ rfl
    obtain ⟨texts, htexts, -, hwrites⟩ := hframed.output _ rfl rfl
    have heq : texts = ["[1, 2]", "3"] := by
      have h : [Value.array ⟨0⟩, .int 3].mapM Eval.pairedStore.inspect? =
          some ["[1, 2]", "3"] := by decide +kernel
      exact Option.some.inj (htexts.symm.trans h)
    rw [hwrites.output, heq]
    rfl

end Treewalk
