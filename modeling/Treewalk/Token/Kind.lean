/-!
# Kinds of token

The kinds, the name a diagnostic uses for each, and the two tables of fixed spellings: the reserved
words and the symbols. In `Kind.symbols` a longer spelling stands before every spelling it extends,
so the first entry that starts a text is the longest that does.
-/

set_option autoImplicit false
set_option relaxedAutoImplicit false

namespace Treewalk

/-- The kind of a token. Its text is kept beside it, in the token. -/
inductive Kind where
  | illegal
  | eof
  | comment
  | ident
  | int
  | float
  | str
  | assign
  | plus
  | minus
  | bang
  | asterisk
  | slash
  | percent
  | power
  | tilde
  | ampersand
  | pipe
  | caret
  | shiftLeft
  | shiftRight
  | unsignedShiftRight
  | less
  | greater
  | lessEqual
  | greaterEqual
  | equal
  | notEqual
  | increment
  | decrement
  | range
  | exclusiveRange
  | comma
  | semicolon
  | colon
  | lparen
  | rparen
  | lbrace
  | rbrace
  | lbracket
  | rbracket
  | letWord
  | fnWord
  | ifWord
  | elseWord
  | returnWord
  | trueWord
  | falseWord
  | whileWord
  | forWord
  | andWord
  | orWord
  | asWord
  | importWord
deriving DecidableEq, Repr, Inhabited

namespace Kind

/-- The name of a kind in diagnostics: a class of tokens and a reserved word in capitals, a symbol
as it is spelt. -/
def name : Kind → String
  | illegal => "ILLEGAL"
  | eof => "EOF"
  | comment => "COMMENT"
  | ident => "IDENT"
  | int => "INT"
  | float => "FLOAT"
  | str => "STRING"
  | assign => "="
  | plus => "+"
  | minus => "-"
  | bang => "!"
  | asterisk => "*"
  | slash => "/"
  | percent => "%"
  | power => "**"
  | tilde => "~"
  | ampersand => "&"
  | pipe => "|"
  | caret => "^"
  | shiftLeft => "<<"
  | shiftRight => ">>"
  | unsignedShiftRight => ">>>"
  | less => "<"
  | greater => ">"
  | lessEqual => "<="
  | greaterEqual => ">="
  | equal => "=="
  | notEqual => "!="
  | increment => "++"
  | decrement => "--"
  | range => ".."
  | exclusiveRange => "..."
  | comma => ","
  | semicolon => ";"
  | colon => ":"
  | lparen => "("
  | rparen => ")"
  | lbrace => "\x7b"
  | rbrace => "\x7d"
  | lbracket => "["
  | rbracket => "]"
  | letWord => "LET"
  | fnWord => "FUNCTION"
  | ifWord => "IF"
  | elseWord => "ELSE"
  | returnWord => "RETURN"
  | trueWord => "TRUE"
  | falseWord => "FALSE"
  | whileWord => "WHILE"
  | forWord => "FOR"
  | andWord => "AND"
  | orWord => "OR"
  | asWord => "AS"
  | importWord => "IMPORT"

/-- The reserved words. A function literal has two spellings. -/
def keywords : List (List Char × Kind) :=
  [(['l', 'e', 't'], letWord),
   (['f', 'n'], fnWord),
   (['f', 'u', 'n', 'c', 't', 'i', 'o', 'n'], fnWord),
   (['i', 'f'], ifWord),
   (['e', 'l', 's', 'e'], elseWord),
   (['r', 'e', 't', 'u', 'r', 'n'], returnWord),
   (['t', 'r', 'u', 'e'], trueWord),
   (['f', 'a', 'l', 's', 'e'], falseWord),
   (['w', 'h', 'i', 'l', 'e'], whileWord),
   (['f', 'o', 'r'], forWord),
   (['a', 'n', 'd'], andWord),
   (['o', 'r'], orWord),
   (['a', 's'], asWord),
   (['i', 'm', 'p', 'o', 'r', 't'], importWord)]

/-- The symbols, longer spellings first. The two logical operators share their kind with the words
`and` and `or`. -/
def symbols : List (List Char × Kind) :=
  [(['>', '>', '>'], unsignedShiftRight),
   (['.', '.', '.'], exclusiveRange),
   (['*', '*'], power),
   (['<', '<'], shiftLeft),
   (['>', '>'], shiftRight),
   (['<', '='], lessEqual),
   (['>', '='], greaterEqual),
   (['=', '='], equal),
   (['!', '='], notEqual),
   (['+', '+'], increment),
   (['-', '-'], decrement),
   (['.', '.'], range),
   (['&', '&'], andWord),
   (['|', '|'], orWord),
   (['='], assign),
   (['+'], plus),
   (['-'], minus),
   (['!'], bang),
   (['*'], asterisk),
   (['/'], slash),
   (['%'], percent),
   (['~'], tilde),
   (['&'], ampersand),
   (['|'], pipe),
   (['^'], caret),
   (['<'], less),
   (['>'], greater),
   ([','], comma),
   ([';'], semicolon),
   ([':'], colon),
   (['('], lparen),
   ([')'], rparen),
   (['{'], lbrace),
   (['}'], rbrace),
   (['['], lbracket),
   ([']'], rbracket)]

/-- The kind of a word: its reserved meaning if it has one, a name otherwise. -/
def ofWord (word : List Char) : Kind :=
  (keywords.lookup word).getD ident

end Kind

end Treewalk
