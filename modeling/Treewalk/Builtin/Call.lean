import Treewalk.Decimal.Reading
import Treewalk.Eval.Index
import Treewalk.Eval.Operator
import Treewalk.Store.Equality
import Treewalk.Store.Show
import Treewalk.Text.Pieces

/-!
# Calling builtins

A builtin gets the scope of the call, for what it writes, and its arguments. It answers with a
value; a wrong number of arguments or an argument it cannot use is answered with an error value,
before anything changes. Arrays that it returns are new.
-/

set_option autoImplicit false
set_option relaxedAutoImplicit false

namespace Treewalk

/-- How a builtin can be misused. -/
inductive Misuse where
  /-- A number of arguments that is not accepted. -/
  | wrongCount (name : String) (given : Nat) (wanted : Arity)
  /-- An argument of a kind that is not supported. -/
  | unsupported (name : String) (kind : ValueKind)
  /-- An argument that is not of the kind its place requires. Places count from one. -/
  | expected (name : String) (place : Nat) (wanted : String) (kind : ValueKind)
  /-- A value that cannot be a key. -/
  | unusableKey (kind : ValueKind)
  /-- A float beyond the integers. -/
  | noInteger (value : Float)
  /-- A text that denotes no number of the wanted kind. -/
  | unreadable (text : String) (wanted : ValueKind)

namespace Misuse

/-- What is reported about a misuse. -/
def message : Misuse → String
  | wrongCount name given wanted =>
    "wrong number of arguments to " ++ name ++ ": got=" ++ given.repr ++ ", want=" ++ wanted.text
  | unsupported name kind => "argument to " ++ name ++ " not supported, got " ++ kind.name
  | expected name place wanted kind =>
    "argument " ++ place.repr ++ " to " ++ name ++ " must be " ++ wanted ++ ", got " ++ kind.name
  | unusableKey kind => "unusable as hash key: " ++ kind.name
  | noInteger value => "could not convert " ++ Decimal.text value ++ " to INTEGER"
  | unreadable text wanted => "could not parse " ++ Text.quoted text ++ " as " ++ wanted.name

/-- The error value that answers a misuse. -/
def value (m : Misuse) : Value := .error m.message

end Misuse

namespace Builtin

/-- The texts of several values. -/
def texts (args : List Value) : Eval (List String) := do
  let s ← get
  args.mapM fun v ↦ Eval.ofOption (s.inspect? v)

/-- Adds a text to what was written in a scope. -/
def write (scope : ScopeId) (text : String) : Eval Value := do
  modify fun s ↦ s.write scope text
  return .null

/-- The number of characters, elements or entries. -/
def len (v : Value) : Eval Value := do
  let s ← get
  match v with
  | .str text => return .int (Word.ofCount text.length)
  | .array id => return .int (Word.ofCount (s.elements id).size)
  | .hash id => return .int (Word.ofCount (s.entries id).length)
  | _ => return (Misuse.unsupported "len" v.kind).value

/-- The first element of an array, or `null`. -/
def first (v : Value) : Eval Value := do
  match v with
  | .array id => return ((← get).elements id)[0]?.getD .null
  | _ => return (Misuse.unsupported "first" v.kind).value

/-- The last element of an array, or `null`. -/
def last (v : Value) : Eval Value := do
  match v with
  | .array id => return ((← get).elements id).back?.getD .null
  | _ => return (Misuse.unsupported "last" v.kind).value

/-- A new array without the first element, or `null` if there is none. -/
def rest (v : Value) : Eval Value := do
  match v with
  | .array id =>
    let xs := (← get).elements id
    if xs.isEmpty then return .null
    else Eval.newArray (xs.extract 1 xs.size)
  | _ => return (Misuse.unsupported "rest" v.kind).value

/-- A new array with one more element. -/
def push (v element : Value) : Eval Value := do
  match v with
  | .array id => Eval.newArray (((← get).elements id).push element)
  | _ => return (Misuse.unsupported "push" v.kind).value

/-- The keys of a hash in their order. -/
def keys (v : Value) : Eval Value := do
  match v with
  | .hash id => Eval.newArray (((← get).entries id).map Entry.key).toArray
  | _ => return (Misuse.unsupported "keys" v.kind).value

/-- The values of a hash in the order of their keys. -/
def values (v : Value) : Eval Value := do
  match v with
  | .hash id => Eval.newArray (((← get).entries id).map Entry.value).toArray
  | _ => return (Misuse.unsupported "values" v.kind).value

/-- Removes a key from a hash, which is also the answer. -/
def delete (v key : Value) : Eval Value := do
  match v with
  | .hash id =>
    match Key.ofValue? key with
    | some k =>
      modify fun s ↦ s.modifyEntries id fun t ↦ Table.erase t k
      return v
    | none => return (Misuse.unusableKey key.kind).value
  | _ => return (Misuse.unsupported "delete" v.kind).value

/-- Whether a part occurs in a string, an element in an array or a key in a hash. -/
def contains (v part : Value) : Eval Value := do
  let s ← get
  match v, part with
  | .str text, .str p => return .bool (Text.occurs p.toList text.toList)
  | .str _, _ => return (Misuse.unsupported "contains" part.kind).value
  | .array id, _ => return .bool (← Eval.ofOption (s.contains? part (s.elements id).toList))
  | .hash id, _ =>
    match Key.ofValue? part with
    | some k => return .bool ((s.entries id).get? k).isSome
    | none => return (Misuse.unusableKey part.kind).value
  | _, _ => return (Misuse.unsupported "contains" v.kind).value

/-- Writes each argument on a line of its own. -/
def puts (scope : ScopeId) (args : List Value) : Eval Value := do
  write scope (String.join ((← texts args).map (· ++ "\n")))

/-- Writes the arguments on one line, separated by spaces. -/
def print (scope : ScopeId) (args : List Value) : Eval Value := do
  write scope (" ".intercalate (← texts args) ++ "\n")

/-- The text of a value. -/
def string (v : Value) : Eval Value := do
  return .str (← Eval.ofOption ((← get).inspect? v))

/-- The integer that a number or a text denotes. -/
def int (v : Value) : Value :=
  match v with
  | .int n => .int n
  | .float x =>
    match Word.ofFloat? x with
    | some n => .int n
    | none => (Misuse.noInteger x).value
  | .str text =>
    match Decimal.readWord? text with
    | some n => .int n
    | none => (Misuse.unreadable text .integer).value
  | _ => (Misuse.unsupported "int" v.kind).value

/-- The float that a number or a text denotes. -/
def float (v : Value) : Value :=
  match v with
  | .int n => .float (Word.toFloat n)
  | .float x => .float x
  | .str text =>
    match Decimal.readTrimmedFloat? text with
    | some x => .float x
    | none => (Misuse.unreadable text .float).value
  | _ => (Misuse.unsupported "float" v.kind).value

/-- The texts of the elements of an array with a separator between them. -/
def join (v : Value) (separator : Option Value) : Eval Value := do
  match v with
  | .array id =>
    match separator.getD (.str "") with
    | .str sep => return .str (sep.intercalate (← texts ((← get).elements id).toList))
    | other => return (Misuse.expected "join" 2 ValueKind.string.name other.kind).value
  | _ => return (Misuse.unsupported "join" v.kind).value

/-- The pieces of a string between separators; without one, its words. -/
def split (v : Value) (separator : Option Value) : Eval Value := do
  match v with
  | .str text =>
    match separator.getD (.str "") with
    | .str sep =>
      let parts :=
        if sep.isEmpty then Text.words text.toList else Text.pieces sep.toList text.toList
      Eval.newArray (parts.map fun p ↦ Value.str (String.ofList p)).toArray
    | other => return (Misuse.expected "split" 2 ValueKind.string.name other.kind).value
  | _ => return (Misuse.unsupported "split" v.kind).value

/-- Calls a builtin. -/
def call (b : Builtin) (scope : ScopeId) (args : List Value) : Eval Value :=
  let wrongCount : Eval Value := pure (Misuse.wrongCount b.name args.length b.arity).value
  if b.arity.accepts args.length then
    match b.operation, args with
    | .len, [v] => len v
    | .first, [v] => first v
    | .last, [v] => last v
    | .rest, [v] => rest v
    | .push, [v, w] => push v w
    | .keys, [v] => keys v
    | .values, [v] => values v
    | .delete, [v, w] => delete v w
    | .contains, [v, w] => contains v w
    | .puts, _ => puts scope args
    | .print, _ => print scope args
    | .type, [v] => pure (.str v.kind.name)
    | .string, [v] => string v
    | .int, [v] => pure (int v)
    | .float, [v] => pure (float v)
    | .join, [v] => join v none
    | .join, [v, w] => join v (some w)
    | .split, [v] => split v none
    | .split, [v, w] => split v (some w)
    | _, _ => wrongCount
  else wrongCount

end Builtin

/-- What carries out calls of builtins. A program that embeds the language may know builtins of its
own, and it decides what they do. -/
class Host where
  invoke : Builtin → ScopeId → List Value → Eval Value

/-- The language by itself. -/
instance : Host := ⟨Builtin.call⟩

end Treewalk
