import Treewalk.Digest
import Treewalk.Number.Binary64
import Treewalk.Value.Basic

/-!
# Keys of hashes

Integers, floats, strings and booleans can be keys. A key is found by its kind and 64 bits: an
integer and a boolean by their own, a string and a float by a digest of their content. Keys are
ordered by kind and then by these bits.
-/

set_option autoImplicit false
set_option relaxedAutoImplicit false

namespace Treewalk

/-- The kinds of value that can be keys. -/
inductive KeyKind where
  | integer
  | float
  | string
  | boolean
deriving DecidableEq, Repr, Inhabited

/-- The place of a kind in the order of keys. -/
def KeyKind.rank : KeyKind → Nat
  | integer => 0
  | float => 1
  | string => 2
  | boolean => 3

/-- What a hash finds an entry by. -/
structure Key where
  kind : KeyKind
  bits : UInt64
deriving DecidableEq, Repr, Inhabited

namespace Key

instance : LT Key :=
  ⟨fun j k ↦ j.kind.rank < k.kind.rank ∨ j.kind = k.kind ∧ j.bits < k.bits⟩

instance (j k : Key) : Decidable (j < k) :=
  inferInstanceAs (Decidable (_ ∨ _))

/-- The digest of a float, the same for both zeros and for all that are no number. -/
def floatDigest (x : Float) : UInt64 :=
  Digest.ofWord (if x == 0 then 0 else Binary64.canonicalBits x)

/-- The key of a value, if it can be one. -/
def ofValue? : Value → Option Key
  | .int n => some ⟨.integer, n.toUInt64⟩
  | .float x => some ⟨.float, floatDigest x⟩
  | .str s => some ⟨.string, Digest.ofText s⟩
  | .bool b => some ⟨.boolean, if b then 1 else 0⟩
  | _ => none

end Key

end Treewalk
