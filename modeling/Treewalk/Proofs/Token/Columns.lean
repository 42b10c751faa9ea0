import Treewalk.Proofs.Token.Tiling

/-!
# Columns are counted from the start of the line

`Position.after` finds a place by walking over all characters before it. A scanner that goes from
token to token knows less: the number of the line it is in and the byte where that line starts. It
moves this mark behind a line feed and behind a string that has line feeds in it, and counts the
characters between the mark and a token to get the column. `lookups` lists the marks and the offsets
that it counts between, one pair for each token and one for the end.

Both ways agree (`forall₂_lookups`). In particular each mark stands between two characters, not
behind the offset it is used for, and the text between the two is there to be counted.
-/

set_option autoImplicit false
set_option relaxedAutoImplicit false

namespace Treewalk.Scanner

/-- A line of a source text: its number and the byte where it starts. -/
structure LineMark where
  line : Nat
  start : Nat
deriving DecidableEq

/-- The part of a text up to its last line feed. -/
def upToLineFeed (text : List Char) : List Char :=
  (text.reverse.dropWhile (· ≠ '\n')).reverse

namespace LineMark

/-- The mark behind a text that starts at the byte `i`. -/
def behind (mark : LineMark) (i : Nat) (text : List Char) : LineMark :=
  if '\n' ∈ text then ⟨mark.line + text.count '\n', i + bytes (upToLineFeed text)⟩ else mark

/-- The mark behind a token. Only strings are searched for line feeds. -/
def behindToken (mark : LineMark) (i : Nat) (kind : Option Kind) (span : List Char) : LineMark :=
  if kind = some .str then mark.behind i span else mark

/-- The mark behind a blank. -/
def behindBlank (mark : LineMark) (i : Nat) (c : Char) : LineMark :=
  if c = '\n' then ⟨mark.line + 1, i + c.utf8Size⟩ else mark

end LineMark

/-- The marks and the offsets between which columns are counted in a text that starts at the byte
`i`: one pair for each token, one for the end. -/
def lookups (mark : LineMark) (i : Nat) : List Char → List (LineMark × Nat)
  | [] => [(mark, i)]
  | c :: cs =>
    if isBlank c then lookups (mark.behindBlank i c) (i + c.utf8Size) cs
    else
      let piece := cut c cs
      (mark, i) :: lookups (mark.behindToken i piece.kind piece.span) (i + bytes piece.span)
        piece.rest
termination_by cs => cs.length
decreasing_by
  · simp
  · exact length_rest_lt c cs

/-! ### Marks and places -/

theorem exists_upToLineFeed_eq {text : List Char} (h : '\n' ∈ text) :
    ∃ before line, text = before ++ ['\n'] ++ line ∧ '\n' ∉ line ∧
      upToLineFeed text = before ++ ['\n'] := by
  obtain ⟨line, before, hreverse, hline⟩ := List.eq_append_cons_of_mem (List.mem_reverse.mpr h)
  have hall : line.all (· ≠ '\n') = true := List.all_eq_true.mpr (ne_of_not_mem hline)
  have hhead : ∀ d ∈ ('\n' :: before).head?, decide (d ≠ '\n') = false := by simp
  refine ⟨before.reverse, line.reverse, ?_, by simpa using hline, ?_⟩
  · rw [← text.reverse_reverse, hreverse]
    simp
  · rw [upToLineFeed, hreverse, (takeWhile_append_of_head hall hhead).2]
    simp

/-- The place behind a line feed. -/
theorem after_lineFeed (p : Position) (text : List Char) :
    p.after (text ++ ['\n']) =
      ⟨p.offset + bytes (text ++ ['\n']), p.line + (text ++ ['\n']).count '\n', 1⟩ := by
  have hoffset := Position.offset_after p (text ++ ['\n'])
  have hline := Position.line_after p (text ++ ['\n'])
  have hcolumn : (p.after (text ++ ['\n'])).column = 1 := by
    rw [Position.after_append]
    rfl
  rw [bytes, ← hoffset, ← hline, ← hcolumn]

namespace LineMark

/-- The text `before` ends in the line of the mark, at the place `p`. -/
def Fits (mark : LineMark) (before : List Char) (p : Position) : Prop :=
  ∃ lines line, before = lines ++ line ∧ mark.start = bytes lines ∧
    p = ⟨bytes before, mark.line, line.length + 1⟩

variable {mark : LineMark} {before : List Char} {p : Position}

/-- A text that stays in the line. -/
theorem Fits.append (h : mark.Fits before p) {text : List Char} (hn : '\n' ∉ text) :
    mark.Fits (before ++ text) (p.after text) := by
  induction text generalizing before p with
  | nil =>
    rw [List.append_nil]
    exact h
  | cons c text ih =>
    obtain ⟨hc, hn⟩ : '\n' ≠ c ∧ '\n' ∉ text := by simpa using hn
    obtain ⟨lines, line, rfl, hstart, rfl⟩ := h
    rw [List.append_cons]
    refine ih ⟨lines, line ++ [c], List.append_assoc lines line [c], hstart, ?_⟩ hn
    rw [Position.advance, if_neg (Ne.symm hc), bytes_append _ [c], bytes_singleton]
    simp

/-- The line behind a text that ends in a line feed. -/
theorem Fits.lineFeed (h : mark.Fits before p) (text : List Char) :
    Fits ⟨mark.line + (text ++ ['\n']).count '\n', bytes before + bytes (text ++ ['\n'])⟩
      (before ++ (text ++ ['\n'])) (p.after (text ++ ['\n'])) := by
  obtain ⟨lines, line, rfl, hstart, rfl⟩ := h
  refine ⟨lines ++ line ++ (text ++ ['\n']), [], by simp, ?_, ?_⟩
  · exact (bytes_append _ _).symm
  · rw [after_lineFeed, ← bytes_append]
    rfl

/-- The line behind any text. -/
theorem Fits.behind (h : mark.Fits before p) (text : List Char) :
    (mark.behind (bytes before) text).Fits (before ++ text) (p.after text) := by
  unfold LineMark.behind
  split
  · next hn =>
    obtain ⟨start, line, htext, hline, hup⟩ := exists_upToLineFeed_eq hn
    have hcount : text.count '\n' = (start ++ ['\n']).count '\n' := by
      rw [htext, List.count_append, List.count_eq_zero.mpr hline, Nat.add_zero]
    have hnext := (h.lineFeed start).append hline
    rw [hup, hcount, htext, Position.after_append, ← List.append_assoc]
    exact hnext
  · next hn => exact h.append hn

theorem Fits.behindBlank (h : mark.Fits before p) (c : Char) :
    (mark.behindBlank (bytes before) c).Fits (before ++ [c]) (p.advance c) := by
  unfold LineMark.behindBlank
  split
  · next hc =>
    subst hc
    exact h.lineFeed []
  · next hc => exact h.append (by simpa using Ne.symm hc)

end LineMark

/-! ### Tokens without line feeds -/

theorem not_mem_of_wordTail {w : List Char} (h : wordTail w = (w, [])) : '\n' ∉ w := by
  intro hn
  obtain ⟨before, after, rfl, -⟩ := List.eq_append_cons_of_mem hn
  rw [wordTail_newline] at h
  simpa using congrArg Prod.snd h

/-- No token but a string has a line feed. -/
theorem Spelled.not_mem_lineFeed {k : Kind} {w : List Char} (h : Spelled (some k) w)
    (hk : k ≠ .str) : '\n' ∉ w := by
  have htables : ∀ e ∈ Kind.symbols ++ Kind.keywords, '\n' ∉ e.1 := by decide
  have hdigits : ∀ {ds : List Char}, (∀ d ∈ ds, isDigit d = true) → '\n' ∉ ds := fun hds hn ↦
    absurd (hds _ hn) (by decide)
  cases h with
  | hash hb => simpa using hb
  | slashes hb => simpa using hb
  | @name c cs hc hcs =>
    have hne : '\n' ≠ c := by
      rintro rfl
      exact absurd hc (by decide)
    exact List.not_mem_cons_of_ne_of_not_mem hne (not_mem_of_wordTail hcs)
  | int hc hcs => exact hdigits (List.forall_mem_cons.mpr ⟨hc, hcs⟩)
  | float hc hcs hd hds =>
    have hwhole := hdigits (List.forall_mem_cons.mpr ⟨hc, hcs⟩)
    have hpart := hdigits (List.forall_mem_cons.mpr ⟨hd, hds⟩)
    intro hn
    rcases List.mem_append.mp hn with hn | hn
    · exact hwhole hn
    · exact hpart (by simpa using hn)
  | string => exact absurd rfl hk
  | symbol h => exact htables _ (List.mem_append_left _ h)
  | keyword h => exact htables _ (List.mem_append_right _ h)

section Cut

variable {c : Char} (hb : isBlank c = false) (cs : List Char)

include hb

theorem exists_kind_cut : ∃ k, (cut c cs).kind = some k := by
  have hnext := isNext_cut hb cs
  cases hk : (cut c cs).kind with
  | some k => exact ⟨k, rfl⟩
  | none =>
    have hword := hnext.spelled (by simp [hk])
    have hprefix : (cut c cs).span <+: c :: cs := ⟨_, hnext.split⟩
    obtain ⟨d, ds, hspan⟩ := List.exists_cons_of_ne_nil hnext.span_ne_nil
    rw [hk, hspan] at hword
    rw [hspan] at hprefix
    obtain ⟨rfl, -⟩ := List.cons_prefix_cons.mp hprefix
    cases hword with
    | lineFeed => cases hb
    | spaces hd =>
      rw [isBlank_of_isSpace hd] at hb
      cases hb

/-- The mark behind a token is the one behind its text. -/
theorem behindToken_cut (mark : LineMark) (i : Nat) :
    mark.behindToken i (cut c cs).kind (cut c cs).span = mark.behind i (cut c cs).span := by
  have hnext := isNext_cut hb cs
  obtain ⟨k, hk⟩ := exists_kind_cut hb cs
  by_cases hstr : k = .str
  · rw [LineMark.behindToken, hk, hstr, if_pos rfl]
  · have hn : '\n' ∉ (cut c cs).span := by
      by_cases hi : k = .illegal
      · obtain ⟨d, hd⟩ := List.length_eq_one_iff.mp (hnext.single (by rw [hk, hi]))
        have hsplit := hnext.split
        rw [hd, List.singleton_append] at hsplit
        obtain ⟨rfl, -⟩ := List.cons.inj hsplit
        rw [hd, List.mem_singleton]
        rintro rfl
        cases hb
      · have hword := hnext.spelled (by simpa [hk] using hi)
        rw [hk] at hword
        exact hword.not_mem_lineFeed hstr
    rw [LineMark.behindToken, hk, if_neg (by simpa using hstr), LineMark.behind, if_neg hn]

end Cut

/-! ### Whole texts -/

/-- The text between the mark and the offset is there, and it gives the place. -/
def Locates (source : String) (lookup : LineMark × Nat) (p : Position) : Prop :=
  ∃ text, Spans source lookup.1.start lookup.2 text ∧
    p = ⟨lookup.2, lookup.1.line, text.length + 1⟩

theorem LineMark.Fits.locates {source : String} {mark : LineMark} {before rest : List Char}
    {p : Position} (h : mark.Fits before p) (hsource : source.toList = before ++ rest) :
    Locates source (mark, bytes before) p := by
  obtain ⟨lines, line, rfl, hstart, rfl⟩ := h
  refine ⟨String.ofList line, ⟨String.ofList lines, String.ofList rest, ?_, hstart.symm, ?_⟩, ?_⟩
  · rw [← String.ofList_append, ← String.ofList_append, ← hsource, String.ofList_toList]
  · rw [hstart, bytes_append]
    rfl
  · rw [String.length_ofList]

/-- Places are where the lookups find them, from any point of the source on. -/
theorem forall₂_lookups {source : String} {before rest : List Char}
    (hsource : source.toList = before ++ rest) {mark : LineMark} {p : Position}
    (h : mark.Fits before p) :
    List.Forall₂ (Locates source) (lookups mark (bytes before) rest)
      ((tokensFrom p rest).map Token.position ++ [p.after rest]) := by
  induction hn : rest.length using Nat.strong_induction_on generalizing before rest mark p with
  | _ n ih =>
    subst hn
    cases rest with
    | nil =>
      rw [lookups, tokensFrom_nil]
      exact .cons (h.locates hsource) .nil
    | cons c cs =>
      rw [lookups]
      cases hb : isBlank c with
      | true =>
        have hrest : source.toList = before ++ [c] ++ cs := by simpa using hsource
        have hnext := ih cs.length (Nat.lt_succ_self _) hrest (h.behindBlank c) rfl
        rw [bytes_append, bytes_singleton] at hnext
        rw [if_pos rfl, tokensFrom_blank p hb]
        exact hnext
      | false =>
        obtain ⟨k, hk⟩ := exists_kind_cut hb cs
        have hsplit := span_append_rest c cs
        have hrest : source.toList = before ++ (cut c cs).span ++ (cut c cs).rest := by
          rw [List.append_assoc, hsplit, hsource]
        have hnext := ih _ (length_rest_lt c cs) hrest (h.behind (cut c cs).span) rfl
        rw [bytes_append, ← Position.after_append, hsplit] at hnext
        rw [if_neg (by simp), tokensFrom]
        dsimp only
        rw [behindToken_cut hb cs, hk]
        exact .cons (h.locates hsource) hnext

/-- The places of all tokens of a source, and of its end, are where the lookups find them. -/
theorem forall₂_lookups_ofSource (source : String) :
    List.Forall₂ (Locates source) (lookups ⟨1, 0⟩ 0 source.toList)
      ((Token.ofSource source).map Token.position ++ [Position.ofEnd source]) :=
  forall₂_lookups rfl ⟨[], [], rfl, rfl, rfl⟩

end Treewalk.Scanner
