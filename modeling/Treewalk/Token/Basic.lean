import Treewalk.Token.Kind
import Treewalk.Token.Position

/-!
# Tokens

A token is a kind, the text it stands for and the place where it starts. The text of a string token
is what stands between its quotes.
-/

set_option autoImplicit false
set_option relaxedAutoImplicit false

namespace Treewalk

/-- A token of a source text. -/
structure Token where
  kind : Kind
  literal : String
  position : Position
deriving DecidableEq, Repr, Inhabited

namespace Token

/-- The token that stands for the end of the text. -/
def finish (position : Position) : Token :=
  ⟨.eof, "", position⟩

/-- How a token changes the number of open brackets. -/
def bracketing (t : Token) : Int :=
  match t.kind with
  | .lparen | .lbrace | .lbracket => 1
  | .rparen | .rbrace | .rbracket => -1
  | _ => 0

/-- Brackets opened and not closed in a token list. It is negative when more are closed than
opened. -/
def openBrackets (ts : List Token) : Int :=
  ts.foldr (fun t n ↦ t.bracketing + n) 0

theorem openBrackets_cons (t : Token) (ts : List Token) :
    openBrackets (t :: ts) = t.bracketing + openBrackets ts := rfl

theorem openBrackets_append (s t : List Token) :
    openBrackets (s ++ t) = openBrackets s + openBrackets t := by
  induction s with
  | nil => simp [openBrackets]
  | cons b s ih =>
    simp only [openBrackets, List.cons_append, List.foldr_cons] at ih ⊢
    omega

end Token

end Treewalk
