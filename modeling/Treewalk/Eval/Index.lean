import Treewalk.Eval.Error

/-!
# Elements, slices and ranges

Arrays and strings are indexed by integers from zero, strings by characters, hashes by keys. Looking
up what is not there gives `null`; a slice takes what is there. A store replaces an element of an
array or an entry of a hash in its cell, so every value that shares the cell sees it.
-/

set_option autoImplicit false
set_option relaxedAutoImplicit false

namespace Treewalk.Eval

/-- The key of a value, which has to be of a kind that can be one. -/
def keyOf (v : Value) : Except RuntimeError Key :=
  match Key.ofValue? v with
  | some k => .ok k
  | none => .error (.unusableKey v.kind)

/-- The element of a value under an index. -/
def index (target subscript : Value) : Eval Value := do
  let s ← get
  match target, subscript with
  | .array id, .int i =>
    let xs := s.elements id
    return ((Word.slot? i xs.size).bind fun slot ↦ xs[slot]?).getD .null
  | .str text, .int i =>
    let cs := text.toList
    return ((Word.slot? i cs.length).bind fun slot ↦ cs[slot]?).elim .null fun c ↦
      .str (String.singleton c)
  | .array _, _ | .str _, _ => fail (.invalidIndex target.kind subscript.kind)
  | .hash id, _ =>
    let k ← ofExcept (keyOf subscript)
    return ((s.entries id).get? k).elim .null Entry.value
  | _, _ => fail (.indexNotSupported target.kind)

/-- A slice bound moved into the range of a length; a missing one is the default. -/
def bound (target : ValueKind) (length default : Nat) : Option Value → Except RuntimeError Nat
  | none => .ok default
  | some (.int i) => .ok (Word.clamp i length)
  | some v => .error (.invalidIndex target v.kind)

/-- Both bounds of a slice of a sequence. The end is not before the start. -/
def bounds (target : ValueKind) (length : Nat) (start stop : Option Value) :
    Except RuntimeError (Nat × Nat) := do
  let first ← bound target length 0 start
  let last ← bound target length length stop
  return (first, max first last)

/-- A part of an array or a string. -/
def slice (target : Value) (start stop : Option Value) : Eval Value := do
  match target with
  | .array id =>
    let xs := (← get).elements id
    let (first, last) ← ofExcept (bounds .array xs.size start stop)
    newArray (xs.extract first last)
  | .str text =>
    let cs := text.toList
    let (first, last) ← ofExcept (bounds .string cs.length start stop)
    return .str (String.ofList ((cs.drop first).take (last - first)))
  | _ => fail (.indexNotSupported target.kind)

/-- How many integers there are between two, with the end or without. The count is kept in words, so
it is missing where a difference or a sum is no word. -/
def rangeLength? (sort : RangeBound) (a b : Int64) : Option Int64 :=
  (Word.sub? b a).bind fun span ↦ Word.add? span sort.extra

/-- The integers between two, from the first on. There are none if the second comes before the
first. -/
def interval (sort : RangeBound) (a b : Int64) : Except RuntimeError (Array Int64) :=
  if b < a then .ok #[]
  else
    match rangeLength? sort a b with
    | none => .error (.rangeTooLarge a b)
    | some length =>
      if rangeLimit < length.toInt then .error (.rangeTooLarge a b)
      else .ok ((Array.range length.toInt.toNat).map fun (i : Nat) ↦ a + Int64.ofNat i)

/-- The integers between two, as an array. -/
def range (sort : RangeBound) (start stop : Value) : Eval Value :=
  match start, stop with
  | .int a, .int b => do
    let words ← ofExcept (interval sort a b)
    newArray (words.map Value.int)
  | _, _ => fail (.invalidRange start.kind stop.kind)

/-- Stores a value under an index of an array or a key of a hash. -/
def store (target subscript value : Value) : Eval Unit := do
  match target, subscript with
  | .array id, .int i =>
    let length := ((← get).elements id).size
    match Word.slot? i length with
    | some slot => modify fun s ↦ s.setElement id slot value
    | none => fail (.indexOutOfRange i length)
  | .array _, _ => fail (.invalidIndex target.kind subscript.kind)
  | .hash id, key =>
    let k ← ofExcept (keyOf key)
    modify fun s ↦ s.modifyEntries id (Table.insert ⟨k, key, value⟩)
  | _, _ => fail (.storeNotSupported target.kind)

end Treewalk.Eval
