import Treewalk.Program

/-!
# Interactive sessions

A session collects lines until their brackets are closed and then evaluates them in one scope. Its
exit code is that of the last value.
-/

set_option autoImplicit false
set_option relaxedAutoImplicit false

namespace Treewalk

/-- A session: the store and the scope it works in, the lines that are not complete yet and the
last value. -/
structure Session where
  store : Store
  scope : ScopeId
  waiting : String
  last : Option Value

/-- The answer to a line. -/
inductive Reply where
  /-- Brackets are open; more lines are needed. -/
  | more
  /-- There is nothing to show. -/
  | silent
  /-- The text of the value. -/
  | value (text : String)
  /-- The syntax errors. -/
  | errors (messages : List String)
deriving DecidableEq, Repr, Inhabited

namespace Session

/-- A session that works in a scope of a store. -/
def start (store : Store) (scope : ScopeId) : Session :=
  ⟨store, scope, "", none⟩

/-- What is shown before the next line is read. -/
def prompt (session : Session) : String :=
  if session.waiting.isEmpty then ">> " else ".. "

/-- The lines that are not complete yet, with one more. -/
def joined (session : Session) (line : String) : String :=
  if session.waiting.isEmpty then line else session.waiting ++ "\n" ++ line

/-- Takes in a line. There is no answer when the bound on the depth of evaluation is used up. -/
def feed (depth : Nat) (session : Session) (line : String) : Option (Reply × Session) :=
  let source := session.joined line
  if 0 < openBrackets source then some (.more, { session with waiting := source })
  else
    let ready := { session with waiting := "" }
    if Text.allBlank source then some (.silent, ready)
    else
      match evaluate depth source session.scope session.store with
      | .rejected errors => some (.errors errors, ready)
      | .finished none s => some (.silent, { ready with store := s, last := none })
      | .finished (some v) s =>
        (s.inspect? v).map fun text ↦ (.value text, { ready with store := s, last := some v })
      | .exhausted => none

/-- Drops the lines that are not complete yet. -/
def clear (session : Session) : Session :=
  { session with waiting := "" }

/-- The exit code for ending the session now. -/
def exitCode (session : Session) : Nat :=
  exitCodeOf session.last

/-- What was written in the session so far. -/
def output (session : Session) : String :=
  session.store.output session.scope

end Session

end Treewalk
