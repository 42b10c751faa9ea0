import Treewalk.Value.Key

/-!
# Contents of a hash

A table is a list of entries in the order of their keys, one for each key. An entry keeps the value
that was written as its key, so that keys can be listed.
-/

set_option autoImplicit false
set_option relaxedAutoImplicit false

namespace Treewalk

/-- A key, the value that was written for it and the value stored under it. -/
structure Entry where
  slot : Key
  key : Value
  value : Value
deriving Inhabited

/-- The entries of a hash. -/
abbrev Table := List Entry

namespace Table

/-- The entry under a key. -/
def get? (t : Table) (k : Key) : Option Entry :=
  t.find? fun e ↦ e.slot = k

/-- Puts an entry at its place, instead of the one under the same key. -/
def insert (entry : Entry) : Table → Table
  | [] => [entry]
  | e :: t =>
    if entry.slot < e.slot then entry :: e :: t
    else if entry.slot = e.slot then entry :: t
    else e :: insert entry t

/-- Removes the entry under a key. -/
def erase (t : Table) (k : Key) : Table :=
  t.filter fun e ↦ e.slot ≠ k

theorem get?_erase (t : Table) (j k : Key) :
    (t.erase j).get? k = if k = j then none else t.get? k := by
  induction t with
  | nil => simp [erase, get?]
  | cons e t ih => grind [erase, get?]

end Table

end Treewalk
