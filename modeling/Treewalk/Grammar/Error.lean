import Treewalk.Text.Quoted
import Treewalk.Token.Basic

/-!
# Syntax errors

What can be wrong with a program's text, where it is, and how it is reported.
-/

set_option autoImplicit false
set_option relaxedAutoImplicit false

namespace Treewalk

/-- Why a statement could not be read. -/
inductive ParseError where
  /-- One kind of token was required and another was found. -/
  | unexpectedToken (expected found : Kind) (position : Position)
  /-- No expression starts with this token. -/
  | noExpression (found : Kind) (position : Position)
  /-- The digits denote an integer that is no word. -/
  | invalidInteger (literal : String) (position : Position)
  /-- The text denotes no float. -/
  | invalidFloat (literal : String) (position : Position)
deriving DecidableEq, Repr, Inhabited

namespace ParseError

/-- The place of the token that is at fault. -/
def position : ParseError → Position
  | unexpectedToken _ _ p | noExpression _ p | invalidInteger _ p | invalidFloat _ p => p

/-- What is reported, without the place. -/
def message : ParseError → String
  | unexpectedToken expected found _ =>
    "expected next token to be " ++ expected.name ++ ", got " ++ found.name ++ " instead"
  | noExpression found _ => "no prefix parse function for " ++ found.name ++ " found"
  | invalidInteger literal _ => "could not parse " ++ Text.quoted literal ++ " as integer"
  | invalidFloat literal _ => "could not parse " ++ Text.quoted literal ++ " as float"

/-- What is reported, after the name of the source and the place in it. -/
def located (source : String) (e : ParseError) : String :=
  source ++ ":" ++ e.position.text ++ ": " ++ e.message

end ParseError

end Treewalk
