import Treewalk.Store.Basic

/-!
# Structural equality

Arrays and hashes are equal when they are the same cell or have equal contents in the same order;
all other values are compared as operands are. The comparison goes from left to right and stops at
the first difference. It does not end on some values that contain themselves; where it ends, the
pairs of cells along a path into the values are all different, which bounds the depth.
-/

set_option autoImplicit false
set_option relaxedAutoImplicit false

namespace Treewalk

/-- Compares two lists of the same length from left to right. -/
def allEqual {α : Type} (eq : α → α → Option Bool) : List α → List α → Option Bool
  | x :: xs, y :: ys =>
    match eq x y with
    | some true => allEqual eq xs ys
    | r => r
  | [], [] => some true
  | _, _ => some false

/-- Takes the pending returns off two values as long as both have one. -/
def Value.settleBoth : Value → Value → Value × Value
  | .pending v, .pending w => settleBoth v w
  | v, w => (v, w)

namespace Store

/-- Compares two entries: the keys they are found by, the keys as written and the values. -/
def entryEqual (eq : Value → Value → Option Bool) (d e : Entry) : Option Bool :=
  if d.slot = e.slot then
    match eq d.key e.key with
    | some true => eq d.value e.value
    | r => r
  else some false

/-- Structural equality of values whose contents are nested less than `depth` deep. -/
def equalWithin (s : Store) : Nat → Value → Value → Option Bool
  | 0, _, _ => none
  | depth + 1, v, w =>
    match v.settleBoth w with
    | (.array a, .array b) =>
      if a = b then some true
      else if (s.elements a).size = (s.elements b).size then
        allEqual (equalWithin s depth) (s.elements a).toList (s.elements b).toList
      else some false
    | (.hash a, .hash b) =>
      if a = b then some true
      else if (s.entries a).length = (s.entries b).length then
        allEqual (entryEqual (equalWithin s depth)) (s.entries a) (s.entries b)
      else some false
    | (x, y) => some (x.sameAs y)

/-- Structural equality, where the comparison ends. -/
def equal? (s : Store) (v w : Value) : Option Bool :=
  s.equalWithin (s.cells.size * s.cells.size + 1) v w

/-- Whether an array contains a value, up to structural equality. -/
def contains? (s : Store) (v : Value) : List Value → Option Bool
  | [] => some false
  | x :: xs =>
    match s.equal? x v with
    | some false => s.contains? v xs
    | r => r

end Store

end Treewalk
