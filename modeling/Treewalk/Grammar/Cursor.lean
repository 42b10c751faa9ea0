import Treewalk.Grammar.Error
import Treewalk.Token.Scanner

/-!
# Reading tokens one after the other

A cursor is what is left of a token list, together with the place of its end. `Parser` is a reader
that moves a cursor and may fail; when it fails, the cursor it leaves behind is where reading goes
on. The token at the end can be looked at again and again and is never used up.
-/

set_option autoImplicit false
set_option relaxedAutoImplicit false

namespace Treewalk

/-- The tokens that have not been read, and where the text ends. -/
structure Cursor where
  rest : List Token
  finish : Position
deriving Repr, Inhabited

/-- Why a reader stops: the text is wrong, or the bound on the depth of reading is used up. -/
inductive Failure where
  | rejected (error : ParseError)
  | exhausted
deriving DecidableEq, Repr, Inhabited

/-- A reader of tokens. -/
abbrev Parser := EStateM Failure Cursor

namespace Cursor

/-- The cursor at the start of a source text. -/
def ofSource (source : String) : Cursor :=
  ⟨Token.ofSource source, Position.ofEnd source⟩

/-- The next token, which is the end of the text when nothing is left. -/
def next (c : Cursor) : Token :=
  c.rest.headD (Token.finish c.finish)

/-- The cursor after the next token. -/
def advance (c : Cursor) : Cursor :=
  { c with rest := c.rest.tail }

end Cursor

namespace Parser

/-- The next token, left where it is. -/
def peek : Parser Token :=
  fun c ↦ .ok c.next c

/-- The next token, taken. -/
def take : Parser Token :=
  fun c ↦ .ok c.next c.advance

/-- Gives up with an error. -/
def reject {α : Type} (error : ParseError) : Parser α :=
  throw (.rejected error)

/-- Whether the next token has the given kind. -/
def peekIs (kind : Kind) : Parser Bool :=
  return (← peek).kind = kind

/-- Takes the next token if it has the given kind, and says whether it did. -/
def takeIf (kind : Kind) : Parser Bool := do
  if ← peekIs kind then
    let _ ← take
    return true
  else
    return false

/-- Takes the next token, which has to be of the given kind. -/
def expect (kind : Kind) : Parser Token := do
  let t ← peek
  if t.kind = kind then take
  else reject (.unexpectedToken kind t.kind t.position)

end Parser

end Treewalk
