import Treewalk.Proofs.Eval.Scopes

/-!
# Chains of scopes

A scope is made inside one that is there already, and where it lies and what it writes to is never
changed again. So the scopes of a store that were all made inside one another, from one outermost
scope on, lie in earlier ones and share its sink (`Store.Rooted`), those that functions were made in
included. Going outwards from a scope comes to an end (`Store.Chain`), and a name is looked up along
this chain.
-/

set_option autoImplicit false
set_option relaxedAutoImplicit false

namespace Treewalk

/-- Where a scope lies and what it writes to. -/
def Scope.link (scope : Scope) : Option ScopeId × SinkId :=
  (scope.outer, scope.sink)

namespace Store

variable {s : Store} {o : SinkId}

/-- Where the scopes lie and what they write to, in the order in which they were made. -/
def links (s : Store) : List (Option ScopeId × SinkId) :=
  s.scopes.toList.map Scope.link

/-- Every scope lies in an earlier one or in none, all scopes write to the sink `o`, and functions
were made in scopes that are there. -/
structure Rooted (o : SinkId) (s : Store) : Prop where
  outer : ∀ (i : Nat) (scope : Scope), s.scopes[i]? = some scope →
    ∀ outer ∈ scope.outer, outer.index < i
  sink : ∀ scope ∈ s.scopes, scope.sink = o
  closures : ∀ f ∈ s.closures, f.scope.index < s.scopes.size
  nonempty : 0 < s.scopes.size

/-! ### What a step does to the links -/

theorem links_bind (s : Store) (id : ScopeId) (name : String) (v : Value) :
    (s.bind id name v).links = s.links := by
  refine List.ext_getElem? fun i ↦ ?_
  rw [links, links, scopes_bind, List.getElem?_map, List.getElem?_map, Array.getElem?_toList,
    Array.getElem?_toList, Array.getElem?_modify]
  split
  · rw [Option.map_map]
    rfl
  · rfl

theorem links_bindAll (s : Store) (id : ScopeId) (names : List Name) (args : List Value) :
    (s.bindAll id names args).links = s.links := by
  fun_induction Store.bindAll s id names args with
  | case1 s name names v vs ih => rw [ih, links_bind]
  | case2 => rfl

theorem sinks_bindAll (s : Store) (id : ScopeId) (names : List Name) (args : List Value) :
    (s.bindAll id names args).sinks = s.sinks := by
  fun_induction Store.bindAll s id names args with
  | case1 s name names v vs ih => exact ih
  | case2 => rfl

theorem links_enclose (s : Store) (outer : ScopeId) :
    (s.enclose outer).2.links = s.links ++ [(some outer, s.sinkOf outer)] := by
  simp [links, enclose, Scope.link]

theorem links_enter (s : Store) (f : Closure) (args : List Value) :
    (s.enter f args).links = s.links ++ [(some f.scope, s.sinkOf f.scope)] := by
  rw [enter, links_bindAll, links_enclose]

namespace Rooted

variable (hs : s.Rooted o)

include hs

theorem sinkOf {id : ScopeId} (h : id.index < s.scopes.size) : s.sinkOf id = o := by
  rw [Store.sinkOf, Array.getD_eq_getD_getElem?, Array.getElem?_eq_getElem h]
  exact hs.sink _ (Array.getElem_mem h)

theorem closure (id : ClosureId) : (s.closure id).scope.index < s.scopes.size := by
  rw [Store.closure, Array.getD_eq_getD_getElem?]
  cases hid : s.closures[id.index]? with
  | none => exact hs.nonempty
  | some f => exact hs.closures f (Array.mem_of_getElem? hid)

theorem bind (id : ScopeId) (name : String) (v : Value) : (s.bind id name v).Rooted o := by
  have hsize := s.size_scopes_bind id name v
  refine ⟨fun i scope hscope ↦ ?_, ?_, fun f hf ↦ ?_, hsize ▸ hs.nonempty⟩
  · rw [scopes_bind, Array.getElem?_modify] at hscope
    split at hscope
    · obtain ⟨before, hbefore, rfl⟩ := Option.map_eq_some_iff.mp hscope
      exact hs.outer i before hbefore
    · exact hs.outer i scope hscope
  · rw [scopes_bind]
    exact forall_mem_modify hs.sink fun _ h ↦ h
  · rw [hsize]
    exact hs.closures f hf

theorem enclose {outer : ScopeId} (h : outer.index < s.scopes.size) :
    (s.enclose outer).2.Rooted o := by
  have hsize : (s.enclose outer).2.scopes.size = s.scopes.size + 1 := Array.size_push _
  refine ⟨fun i scope hscope ↦ ?_, forall_mem_push hs.sink (hs.sinkOf h), fun f hf ↦ ?_,
    hsize ▸ Nat.succ_pos _⟩
  · rw [Store.enclose, Array.getElem?_push] at hscope
    split at hscope
    · next hi =>
      obtain rfl := Option.some.inj hscope
      rintro _ ⟨⟩
      rwa [hi]
    · exact hs.outer i scope hscope
  · rw [hsize]
    exact Nat.lt_succ_of_lt (hs.closures f hf)

omit hs in
theorem bindAll (hs : s.Rooted o) (id : ScopeId) (names : List Name) (args : List Value) :
    (s.bindAll id names args).Rooted o := by
  fun_induction Store.bindAll s id names args with
  | case1 s name names v vs ih => exact ih (hs.bind id name.text v)
  | case2 => exact hs

theorem enter {f : Closure} (h : f.scope.index < s.scopes.size) (args : List Value) :
    (s.enter f args).Rooted o :=
  (hs.enclose h).bindAll ⟨s.scopes.size⟩ f.parameters args

theorem close (parameters : List Name) (body : Block) {scope : ScopeId}
    (h : scope.index < s.scopes.size) : (s.close ⟨parameters, body, scope⟩).2.Rooted o :=
  ⟨hs.outer, hs.sink, forall_mem_push hs.closures h, hs.nonempty⟩

theorem write (id : ScopeId) (text : String) : (s.write id text).Rooted o :=
  ⟨hs.outer, hs.sink, hs.closures, hs.nonempty⟩

end Rooted

end Store

/-! ### Looking up along a chain -/

namespace Store

variable {s : Store} {o : SinkId} {id : ScopeId} {ids : List ScopeId}

/-- The scopes from one of them outwards, up to one that lies in no other. -/
inductive Chain (s : Store) : ScopeId → List ScopeId → Prop
  | outermost {id : ScopeId} {scope : Scope} (h : s.scopes[id.index]? = some scope)
      (ho : scope.outer = none) : Chain s id [id]
  | inside {id outer : ScopeId} {scope : Scope} {ids : List ScopeId}
      (h : s.scopes[id.index]? = some scope) (ho : scope.outer = some outer)
      (hs : Chain s outer ids) : Chain s id (id :: ids)

theorem Rooted.exists_chain (hs : s.Rooted o) (id : ScopeId) (hid : id.index < s.scopes.size) :
    ∃ ids, s.Chain id ids := by
  induction hn : id.index using Nat.strongRecOn generalizing id with
  | _ n ih =>
    subst hn
    have hscope := Array.getElem?_eq_getElem hid
    cases ho : s.scopes[id.index].outer with
    | none => exact ⟨[id], .outermost hscope ho⟩
    | some outer =>
      have hlt := hs.outer id.index _ hscope outer ho
      obtain ⟨ids, hids⟩ := ih outer.index hlt outer (Nat.lt_trans hlt hid) rfl
      exact ⟨id :: ids, .inside hscope ho hids⟩

/-- Along a chain the scopes were made earlier and earlier. -/
theorem Chain.pairwise (h : s.Chain id ids) (hs : s.Rooted o) :
    (∀ j ∈ ids, j.index ≤ id.index) ∧ ids.Pairwise fun a b ↦ b.index < a.index := by
  induction h with
  | outermost => simp
  | @inside id outer scope ids h ho _ ih =>
    have hlt := hs.outer id.index scope h outer ho
    have hall : ∀ j ∈ ids, j.index < id.index := fun j hj ↦ Nat.lt_of_le_of_lt (ih.1 j hj) hlt
    exact ⟨List.forall_mem_cons.mpr ⟨Nat.le_refl _, fun j hj ↦ Nat.le_of_lt (hall j hj)⟩,
      List.pairwise_cons.mpr ⟨hall, ih.2⟩⟩

theorem Chain.length_le (h : s.Chain id ids) (hs : s.Rooted o) : ids.length ≤ id.index + 1 := by
  induction h with
  | outermost => simp
  | @inside id outer scope ids h ho _ ih =>
    have hlt := hs.outer id.index scope h outer ho
    rw [List.length_cons]
    omega

theorem lookupWithin_succ {scope : Scope} (h : s.scopes[id.index]? = some scope) (count : Nat)
    (name : String) :
    s.lookupWithin (count + 1) id name =
      (s.local? id name).or (scope.outer.bind fun outer ↦ s.lookupWithin count outer name) := by
  have hlocal : s.local? id name = scope.bindings.lookup name := by
    rw [local?, h, Option.bind_some]
  rw [lookupWithin, hlocal, h]
  dsimp only
  cases scope.bindings.lookup name with
  | some v => rfl
  | none => cases scope.outer <;> rfl

/-- With a bound that is large enough for the chain, looking up gives the binding of the first scope
on it that has one. -/
theorem Chain.lookupWithin_eq (h : s.Chain id ids) {count : Nat} (hcount : ids.length ≤ count)
    (name : String) : s.lookupWithin count id name = ids.findSome? (s.local? · name) := by
  induction h generalizing count with
  | @outermost id scope h ho =>
    obtain _ | count := count
    · simp at hcount
    · rw [lookupWithin_succ h, ho]
      cases hname : s.local? id name <;> simp [hname]
  | @inside id outer scope ids h ho _ ih =>
    obtain _ | count := count
    · simp at hcount
    · rw [lookupWithin_succ h, ho, Option.bind_some, ih (Nat.le_of_succ_le_succ hcount)]
      cases hname : s.local? id name <;> simp [hname]

/-- Looking up a name comes to an end, so that no larger bound changes the answer, and gives the
binding of the nearest scope that has one. -/
theorem Rooted.lookup (hs : s.Rooted o) (hid : id.index < s.scopes.size) :
    ∃ ids : List ScopeId, s.Chain id ids ∧ (ids.Pairwise fun a b ↦ b.index < a.index) ∧
      ∀ name : String, s.lookup? id name = ids.findSome? (s.local? · name) ∧
        ∀ count : Nat, ids.length ≤ count → s.lookupWithin count id name = s.lookup? id name := by
  obtain ⟨ids, hids⟩ := hs.exists_chain id hid
  refine ⟨ids, hids, (hids.pairwise hs).2, fun name ↦ ?_⟩
  have hlookup := hids.lookupWithin_eq (hids.length_le hs) name
  exact ⟨hlookup, fun count hcount ↦ (hids.lookupWithin_eq hcount name).trans hlookup.symm⟩

end Store

end Treewalk
