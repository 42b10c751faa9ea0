import Treewalk.Token.Basic

/-!
# From text to tokens

`cut` takes the next piece off a non-empty text: a run of blanks or one token, always the longest
that the token classes allow, and a single character of kind `illegal` when no class matches.
Nothing is lost (`span_append_rest`) and every piece is non-empty (`span_ne_nil`), so `tokens`
repeats `cut` until the text is used up.
-/

set_option autoImplicit false
set_option relaxedAutoImplicit false

namespace Treewalk.Scanner

/-- The characters that only separate tokens. -/
def isBlank (c : Char) : Bool :=
  c = ' ' || c = '\t' || c = '\r' || c = '\x0c' || c = '\n'

/-- A decimal digit. -/
def isDigit (c : Char) : Bool :=
  '0' ≤ c && c ≤ '9'

/-- A character that may start a segment of a word. -/
def isWordStart (c : Char) : Bool :=
  ('a' ≤ c && c ≤ 'z') || ('A' ≤ c && c ≤ 'Z') || c = '_'

/-- A character that may go on with a segment of a word. -/
def isWordPart (c : Char) : Bool :=
  isWordStart c || isDigit c

/-- Splits off what goes on with a word. A hyphen joins two segments, so it belongs to the word only
when a segment starts right after it. -/
def wordTail : List Char → List Char × List Char
  | [] => ([], [])
  | [c] => if isWordPart c then ([c], []) else ([], [c])
  | c :: d :: cs =>
    if isWordPart c then
      let (w, rest) := wordTail (d :: cs)
      (c :: w, rest)
    else if c = '-' && isWordStart d then
      let (w, rest) := wordTail cs
      (c :: d :: w, rest)
    else ([], c :: d :: cs)

/-- A piece of a text: its kind, or `none` for blanks, the characters it covers and what follows. -/
structure Piece where
  kind : Option Kind
  span : List Char
  rest : List Char

/-- The piece that extends `c` as long as `p` holds. -/
def run (kind : Option Kind) (p : Char → Bool) (c : Char) (cs : List Char) : Piece :=
  ⟨kind, c :: cs.takeWhile p, cs.dropWhile p⟩

/-- A number: digits, and a point with more digits if both are there. -/
def number (c : Char) (cs : List Char) : Piece :=
  let whole := c :: cs.takeWhile isDigit
  match cs.dropWhile isDigit with
  | '.' :: d :: rest =>
    if isDigit d then
      ⟨some .float, whole ++ '.' :: d :: rest.takeWhile isDigit, rest.dropWhile isDigit⟩
    else ⟨some .int, whole, '.' :: d :: rest⟩
  | rest => ⟨some .int, whole, rest⟩

/-- A string: everything up to the next quote of the same sort, and that quote; without one,
everything to the end. -/
def quoted (q : Char) (cs : List Char) : Piece :=
  let content := cs.takeWhile (· ≠ q)
  match cs.dropWhile (· ≠ q) with
  | [] => ⟨some .str, q :: content, []⟩
  | close :: rest => ⟨some .str, q :: content ++ [close], rest⟩

/-- A symbol, or a character that starts no token. -/
def symbol (c : Char) (cs : List Char) : Piece :=
  match Kind.symbols.find? fun entry ↦ entry.1.isPrefixOf (c :: cs) with
  | some (spelling, kind) => ⟨some kind, spelling, (c :: cs).drop spelling.length⟩
  | none => ⟨some .illegal, [c], cs⟩

/-- The first piece of the text `c :: cs`. -/
def cut (c : Char) (cs : List Char) : Piece :=
  if isBlank c then run none isBlank c cs
  else if isWordStart c then
    let (w, rest) := wordTail cs
    ⟨some (Kind.ofWord (c :: w)), c :: w, rest⟩
  else if isDigit c then number c cs
  else if c = '"' || c = '\'' then quoted c cs
  else if c = '#' || (c = '/' && cs.head? = some '/') then run (some .comment) (· ≠ '\n') c cs
  else symbol c cs

theorem wordTail_append (cs : List Char) : (wordTail cs).1 ++ (wordTail cs).2 = cs := by
  fun_induction wordTail cs <;> simp_all

theorem number_span_append_rest (c : Char) (cs : List Char) :
    (number c cs).span ++ (number c cs).rest = c :: cs := by
  have h := List.takeWhile_append_dropWhile (p := isDigit) (l := cs)
  unfold number
  split
  · next d rest hd =>
    split <;> simp_all
  · simp_all

theorem quoted_span_append_rest (q : Char) (cs : List Char) :
    (quoted q cs).span ++ (quoted q cs).rest = q :: cs := by
  have h := List.takeWhile_append_dropWhile (p := (· ≠ q)) (l := cs)
  unfold quoted
  split
  · next hd =>
    rw [hd] at h
    simpa using h
  · next hd =>
    rw [hd] at h
    simpa using h

theorem symbol_span_append_rest (c : Char) (cs : List Char) :
    (symbol c cs).span ++ (symbol c cs).rest = c :: cs := by
  unfold symbol
  split
  · next spelling kind h =>
    have hp := List.find?_some h
    obtain ⟨rest, hr⟩ := List.isPrefixOf_iff_prefix.mp hp
    simp only at hr
    rw [← hr]
    simp
  · rfl

/-- A piece and what follows it make up the text. -/
theorem span_append_rest (c : Char) (cs : List Char) :
    (cut c cs).span ++ (cut c cs).rest = c :: cs := by
  have hw := wordTail_append cs
  unfold cut
  split
  · simp [run]
  split
  · simp [hw]
  split
  · exact number_span_append_rest c cs
  split
  · exact quoted_span_append_rest c cs
  split
  · simp [run]
  · exact symbol_span_append_rest c cs

theorem symbols_ne_nil {entry : List Char × Kind} (h : entry ∈ Kind.symbols) : entry.1 ≠ [] := by
  revert entry
  decide

theorem span_ne_nil (c : Char) (cs : List Char) : (cut c cs).span ≠ [] := by
  unfold cut
  split
  · simp [run]
  split
  · simp
  split
  · unfold number
    split
    · split <;> simp
    · simp
  split
  · unfold quoted
    split <;> simp
  split
  · simp [run]
  · unfold symbol
    split
    · next h => exact symbols_ne_nil (List.mem_of_find?_eq_some h)
    · simp

theorem length_rest_lt (c : Char) (cs : List Char) :
    (cut c cs).rest.length < (c :: cs).length := by
  have h := congrArg List.length (span_append_rest c cs)
  have hs := List.length_pos_iff.mpr (span_ne_nil c cs)
  simp only [List.length_append] at h
  omega

/-- The text a token stands for: its span, and for a string the span without its quotes. -/
def literal (kind : Kind) (span : List Char) : List Char :=
  match kind, span with
  | .str, q :: body => body.takeWhile (· ≠ q)
  | _, _ => span

/-- The tokens of a text that starts at `p`. -/
def tokensFrom (p : Position) : List Char → List Token
  | [] => []
  | c :: cs =>
    let piece := cut c cs
    let following := tokensFrom (p.after piece.span) piece.rest
    match piece.kind with
    | none => following
    | some kind => ⟨kind, String.ofList (literal kind piece.span), p⟩ :: following
termination_by cs => cs.length
decreasing_by exact length_rest_lt c cs

end Treewalk.Scanner

namespace Treewalk

/-- The tokens of a source text, without the one for its end. -/
def Token.ofSource (source : String) : List Token :=
  Scanner.tokensFrom Position.start source.toList

/-- The place where a source text ends. -/
def Position.ofEnd (source : String) : Position :=
  Position.start.after source.toList

/-- Brackets opened and not closed in a source text. Those inside strings and comments do not
count. -/
def openBrackets (source : String) : Int :=
  Token.openBrackets (Token.ofSource source)

end Treewalk
