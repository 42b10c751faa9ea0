import Treewalk.Decimal.Shortest
import Treewalk.Number.Word
import Treewalk.Tree.Basic

/-!
# Trees as text

The canonical text of a tree: every operation stands in brackets, so the text shows how the source
was grouped. `Expr.literal` and `Stmt.literal` are the text of the token that a node stands for.
-/

set_option autoImplicit false
set_option relaxedAutoImplicit false

namespace Treewalk

/-- A text without the semicolons at its end. -/
def dropSemicolons (text : String) : String :=
  String.ofList ((text.toList.reverse.dropWhile (· = ';')).reverse)

/-- The names of a parameter list, separated by commas. -/
def parameterText (parameters : List Name) : String :=
  ", ".intercalate (parameters.map Name.text)

mutual

/-- The canonical text of an expression. -/
def Expr.text : Expr → String
  | .name _ text => text
  | .int _ value => Word.text value
  | .float _ value => Decimal.text value
  | .str _ value => value
  | .bool _ value => if value then "true" else "false"
  | .unary _ operator operand => "(" ++ operator.symbol ++ operand.text ++ ")"
  | .binary _ operator left right =>
    "(" ++ left.text ++ " " ++ operator.symbol ++ " " ++ right.text ++ ")"
  | .conditional _ condition consequence alternative =>
    "if" ++ condition.text ++ " " ++ consequence.text ++
      (match alternative with
        | none => ""
        | some block => "else " ++ block.text)
  | .function _ parameters body => "fn(" ++ parameterText parameters ++ ") " ++ body.text
  | .call _ callee arguments => callee.text ++ "(" ++ Expr.listText arguments ++ ")"
  | .array _ elements => "[" ++ Expr.listText elements ++ "]"
  | .hash _ pairs => "\x7b" ++ Expr.pairText pairs ++ "\x7d"
  | .index _ target subscript => "(" ++ target.text ++ "[" ++ subscript.text ++ "])"
  | .slice _ target start stop =>
    "(" ++ target.text ++ "[" ++
      (match start with
        | none => ""
        | some e => e.text) ++ ":" ++
      (match stop with
        | none => ""
        | some e => e.text) ++ "])"
  | .whileLoop _ condition body => "while (" ++ condition.text ++ ") " ++ body.text
  | .forLoop _ start condition advance body =>
    "for (" ++ dropSemicolons start.text ++ "; " ++ condition.text ++ "; " ++
      dropSemicolons advance.text ++ ") " ++ body.text
  | .step _ direction .before operand => "(" ++ direction.symbol ++ operand.text ++ ")"
  | .step _ direction .after operand => "(" ++ operand.text ++ direction.symbol ++ ")"
  | .range _ bound start stop => "(" ++ start.text ++ bound.symbol ++ stop.text ++ ")"

/-- Expressions separated by commas. -/
def Expr.listText : List Expr → String
  | [] => ""
  | [e] => e.text
  | e :: f :: es => e.text ++ ", " ++ Expr.listText (f :: es)

/-- Keys with their values, separated by commas. -/
def Expr.pairText : List (Expr × Expr) → String
  | [] => ""
  | [(key, value)] => key.text ++ ":" ++ value.text
  | (key, value) :: pair :: pairs =>
    key.text ++ ":" ++ value.text ++ ", " ++ Expr.pairText (pair :: pairs)

/-- The canonical text of a statement. -/
def Stmt.text : Stmt → String
  | .bind _ name value => "let " ++ name.text ++ " = " ++ value.text ++ ";"
  | .store _ name subscript value =>
    "let " ++ name.text ++ "[" ++ subscript.text ++ "] = " ++ value.text ++ ";"
  | .ret _ value => "return " ++ value.text ++ ";"
  | .expr _ expression => expression.text
  | .comment _ text => text ++ "\n"

/-- Statements one after the other. -/
def Stmt.listText : List Stmt → String
  | [] => ""
  | s :: ss => s.text ++ Stmt.listText ss

/-- The canonical text of a block: that of its statements. -/
def Block.text : Block → String
  | .mk _ body => Stmt.listText body

end

/-- The text of the token that an expression stands for. -/
def Expr.literal : Expr → String
  | .name _ text => text
  | .int _ value => Word.text value
  | .float _ value => Decimal.text value
  | .str _ value => value
  | .bool _ value => if value then "true" else "false"
  | .unary _ operator _ => operator.symbol
  | .binary _ operator _ _ => operator.symbol
  | .conditional .. => "if"
  | .function .. => "fn"
  | .call .. => "("
  | .array .. | .index .. | .slice .. => "["
  | .hash .. => "\x7b"
  | .whileLoop .. => "while"
  | .forLoop .. => "for"
  | .step _ direction _ _ => direction.symbol
  | .range _ bound _ _ => bound.symbol

/-- The text of the token that a statement stands for. -/
def Stmt.literal : Stmt → String
  | .bind .. | .store .. => "let"
  | .ret .. => "return"
  | .expr _ expression => expression.literal
  | .comment _ text => text

/-- The text of the token that a block stands for. -/
def Block.literal (_ : Block) : String := "\x7b"

/-- The text of the token that a program stands for: that of its first statement. -/
def Program.literal (program : Program) : String :=
  (program.head?.map Stmt.literal).getD ""

end Treewalk
