import Treewalk.Store.Basic
import Treewalk.Text.Quoted
import Treewalk.Tree.Printer

/-!
# Values as text

The text of a value shows the contents of arrays and hashes, so it depends on the store. A value
that contains itself has none. One that does not is nested at most as deep as there are cells,
which bounds the search.
-/

set_option autoImplicit false
set_option relaxedAutoImplicit false

namespace Treewalk.Store

/-- The text of a closure. -/
def closureText (c : Closure) : String :=
  "fn(" ++ parameterText c.parameters ++ ") \x7b\n" ++ c.body.text ++ "\n\x7d"

/-- The text of a value whose contents are nested less than `depth` deep. -/
def showWithin (s : Store) : Nat → Value → Option String
  | 0, _ => none
  | depth + 1, v =>
    match v.settled with
    | .int n => some (Word.text n)
    | .float x => some (Decimal.text x)
    | .str text => some text
    | .bool b => some (if b then "true" else "false")
    | .null => some "null"
    | .array id =>
      ((s.elements id).toList.mapM (showWithin s depth)).map fun texts ↦
        "[" ++ ", ".intercalate texts ++ "]"
    | .hash id =>
      ((s.entries id).mapM fun (e : Entry) ↦ do
        let key ← showWithin s depth e.key
        let value ← showWithin s depth e.value
        return key ++ ": " ++ value).map fun texts ↦
        "\x7b" ++ ", ".intercalate texts ++ "\x7d"
    | .function id => some (closureText (s.closure id))
    | .builtin _ => some "builtin function"
    | .error message => some ("ERROR: " ++ message)
    | .pending _ => none

/-- The text of a value, if it does not contain itself. -/
def inspect? (s : Store) (v : Value) : Option String :=
  s.showWithin (s.cells.size + 1) v

/-- A description of a scope: the names it binds, in the order of their characters, and whether it
lies in another. -/
def describe (s : Store) (id : ScopeId) : String :=
  let scope := s.scopes.getD id.index default
  let names := (scope.bindings.map Prod.fst).mergeSort fun a b ↦ a ≤ b
  "Environment \x7b names: [" ++ ", ".intercalate (names.map Text.quoted) ++ "], enclosed: " ++
    (if scope.outer.isSome then "true" else "false") ++ " \x7d"

end Treewalk.Store
