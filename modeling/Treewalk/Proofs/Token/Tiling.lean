import Mathlib.Logic.Function.Iterate
import Treewalk.Grammar.Cursor
import Treewalk.Proofs.Token.Joining
import Treewalk.Proofs.Token.LongestMatch

/-!
# Tokens tile their text

A tile is a token with the text that it covers and the blanks between it and the token before. The
tiles of a source put together, with the blanks behind the last one, are the source
(`IsTiling.text_eq`): no character is lost or read twice, and every character outside the spans is
blank. What a token keeps of its span is said by `Tile.Fits`.

The tiles are found by following the pieces of `Munches`: blanks are added to the gap in front of
the next tile, and every other piece closes a tile.
-/

set_option autoImplicit false
set_option relaxedAutoImplicit false

namespace Treewalk

/-- The text `part` takes up the bytes of the source from `i` up to `j`, and both are between two
characters. -/
def Spans (source : String) (i j : Nat) (part : String) : Prop :=
  ∃ before after, source = before ++ part ++ after ∧ before.utf8ByteSize = i ∧
    i + part.utf8ByteSize = j

namespace Scanner

/-- How many bytes a text takes. -/
def bytes (text : List Char) : Nat :=
  (String.ofList text).utf8ByteSize

@[simp] theorem bytes_append (s t : List Char) : bytes (s ++ t) = bytes s + bytes t := by
  rw [bytes, String.ofList_append, String.utf8ByteSize_append, bytes, bytes]

@[simp] theorem bytes_singleton (c : Char) : bytes [c] = c.utf8Size := by
  rw [bytes, ← String.singleton_eq_ofList, String.utf8ByteSize_singleton]

theorem bytes_pos {text : List Char} (h : text ≠ []) : 0 < bytes text := by
  obtain ⟨c, cs, rfl⟩ := List.exists_cons_of_ne_nil h
  have hc := c.utf8Size_pos
  rw [← List.singleton_append, bytes_append, bytes_singleton]
  omega

/-- A token, the text that it covers and the text between it and the token before. -/
structure Tile where
  gap : List Char
  span : List Char
  token : Token

namespace Tile

/-- The text of a tile. -/
def text (tile : Tile) : List Char :=
  tile.gap ++ tile.span

/-- The byte where the token of a tile starts. -/
def start (tile : Tile) : Nat :=
  tile.token.position.offset

/-- The byte where it ends. -/
def stop (tile : Tile) : Nat :=
  tile.start + bytes tile.span

/-- What a tile is made of, when `rest` is the text behind it. -/
structure Fits (tile : Tile) (rest : List Char) : Prop where
  blank : ∀ c ∈ tile.gap, isBlank c = true
  span_ne_nil : tile.span ≠ []
  kind_ne : tile.token.kind ≠ .eof
  literal_eq : tile.token.kind ≠ .str → tile.token.literal.toList = tile.span
  quoted : tile.token.kind = .str →
    ∃ q, (q = '"' ∨ q = '\'') ∧ q ∉ tile.token.literal.toList ∧
      (tile.span = q :: tile.token.literal.toList ++ [q] ∨
        tile.span = q :: tile.token.literal.toList ∧ rest = [])

end Tile

/-- The tiles of the text, which starts at the byte `i`, and the blanks behind them. -/
inductive Tiles : Nat → List Char → List Tile → List Char → Prop
  | last {i : Nat} {text : List Char} (h : ∀ c ∈ text, isBlank c = true) : Tiles i text [] text
  | tile {i : Nat} {tile : Tile} {rest : List Char} {tiles : List Tile} {last : List Char}
      (hstart : tile.start = i + bytes tile.gap) (hfits : tile.Fits rest)
      (h : Tiles tile.stop rest tiles last) : Tiles i (tile.text ++ rest) (tile :: tiles) last

/-! ### Tiles of pieces -/

/-- A string has its closing quote, or nothing stands behind it. -/
theorem Piece.IsNext.quoted {span rest text : List Char}
    (h : Piece.IsNext ⟨some .str, span, rest⟩ text) :
    ∃ q, (q = '"' ∨ q = '\'') ∧ q ∉ literal .str span ∧
      (span = q :: literal .str span ++ [q] ∨ span = q :: literal .str span ∧ rest = []) := by
  have hs : ∀ e ∈ Kind.symbols ++ Kind.keywords, e.2 ≠ Kind.str := by decide
  have hword : Spelled (some .str) span := h.spelled (by simp)
  have hsplit : span ++ rest = text := h.split
  cases hword with
  | symbol he => exact absurd rfl (hs _ (List.mem_append_left _ he))
  | keyword he => exact absurd rfl (hs _ (List.mem_append_right _ he))
  | @string q body close hq hb hclose =>
    have hall : body.all (· ≠ q) = true := List.all_eq_true.mpr (ne_of_not_mem hb)
    have hhead : ∀ d ∈ close.head?, decide (d ≠ q) = false := by
      rcases hclose with rfl | rfl <;> simp
    have hliteral : literal .str (q :: body ++ close) = body :=
      (takeWhile_append_of_head hall hhead).1
    rw [hliteral]
    refine ⟨q, hq, hb, ?_⟩
    rcases hclose with rfl | rfl
    · refine .inr ⟨by simp, ?_⟩
      cases rest with
      | nil => rfl
      | cons d rest =>
        -- With the next character the string would be longer.
        have hlonger : Spelled (some .str) (q :: body ++ [d]) := by
          by_cases hd : d = q
          · exact .string hq hb (.inr (by rw [hd]))
          · have hbd : q ∉ body ++ [d] := by simpa [hb] using Ne.symm hd
            have hlong := Spelled.string hq hbd (.inl rfl)
            rwa [List.append_nil] at hlong
        have hle := h.longest _ _ (declared_iff.mpr hlonger) ⟨rest, by simp [← hsplit]⟩
        simp only [List.append_nil, List.length_append, List.length_cons, List.length_nil] at hle
        omega
    · exact .inl rfl

/-- A piece that is no blank makes a tile. -/
theorem Piece.IsNext.fits {k : Kind} {gap span rest text : List Char}
    (h : Piece.IsNext ⟨some k, span, rest⟩ text) (hgap : ∀ c ∈ gap, isBlank c = true)
    (p : Position) : Tile.Fits ⟨gap, span, ⟨k, String.ofList (literal k span), p⟩⟩ rest where
  blank := hgap
  span_ne_nil := h.span_ne_nil
  kind_ne := by
    by_cases hi : k = .illegal
    · simp [hi]
    · have hword := h.spelled (by simpa using hi)
      simpa using hword.kind_ne.2
  literal_eq hk := by
    rw [String.toList_ofList]
    exact literal_of_ne hk span
  quoted hk := by
    obtain rfl : k = .str := hk
    rw [String.toList_ofList]
    exact h.quoted

theorem Piece.IsNext.blank {span rest text : List Char}
    (h : Piece.IsNext ⟨none, span, rest⟩ text) : ∀ c ∈ span, isBlank c = true := by
  have hword : Spelled none span := h.spelled (by simp)
  cases hword with
  | lineFeed => simp [isBlank]
  | spaces hc hcs =>
    refine List.forall_mem_cons.mpr ⟨isBlank_of_isSpace hc, fun d hd ↦ ?_⟩
    exact isBlank_of_isSpace (hcs d hd)

/-- The tokens of a text behind blanks are those of its tiles. -/
theorem Munches.exists_tiles {p : Position} {text : List Char} {ts : List Token}
    (h : Munches p text ts) {i : Nat} {gap : List Char} (hgap : ∀ c ∈ gap, isBlank c = true)
    (hp : p.offset = i + bytes gap) :
    ∃ tiles last, tiles.map Tile.token = ts ∧ Tiles i (gap ++ text) tiles last := by
  induction h generalizing i gap with
  | done p => exact ⟨[], gap ++ [], rfl, .last (by simpa using hgap)⟩
  | @skip p span rest text ts hnext hts ih =>
    have hsplit : span ++ rest = text := hnext.split
    have hblank : ∀ c ∈ gap ++ span, isBlank c = true := by
      intro c hc
      rcases List.mem_append.mp hc with hc | hc
      · exact hgap c hc
      · exact hnext.blank c hc
    have hoffset : (p.after span).offset = i + bytes (gap ++ span) := by
      rw [Position.offset_after, hp, bytes_append, Nat.add_assoc]
      rfl
    obtain ⟨tiles, last, htokens, htiles⟩ := ih hblank hoffset
    rw [List.append_assoc, hsplit] at htiles
    exact ⟨tiles, last, htokens, htiles⟩
  | @token p k span rest text ts hnext hts ih =>
    have hsplit : span ++ rest = text := hnext.split
    have hoffset : (p.after span).offset = p.offset + bytes span + bytes [] :=
      Position.offset_after p span
    obtain ⟨tiles, last, htokens, htiles⟩ := ih (by simp) hoffset
    have htile : Tiles i (Tile.text ⟨gap, span, ⟨k, String.ofList (literal k span), p⟩⟩ ++ rest)
        (⟨gap, span, ⟨k, String.ofList (literal k span), p⟩⟩ :: tiles) last :=
      .tile hp (hnext.fits hgap p) htiles
    rw [Tile.text, List.append_assoc, hsplit] at htile
    exact ⟨_, last, by rw [List.map_cons, htokens], htile⟩

/-! ### Places of tiles -/

namespace Tiles

variable {i : Nat} {text : List Char} {tiles : List Tile} {last : List Char}

theorem text_eq (h : Tiles i text tiles last) : tiles.flatMap Tile.text ++ last = text := by
  induction h with
  | last => rfl
  | tile _ _ _ ih => rw [List.flatMap_cons, List.append_assoc, ih]

theorem blank_last (h : Tiles i text tiles last) : ∀ c ∈ last, isBlank c = true := by
  induction h with
  | last h => exact h
  | tile _ _ _ ih => exact ih

theorem length_le (h : Tiles i text tiles last) : tiles.length ≤ text.length := by
  induction h with
  | last => exact Nat.zero_le _
  | @tile i tile rest tiles last _ hfits _ ih =>
    have hpos := List.length_pos_iff.mpr hfits.span_ne_nil
    simp only [Tile.text, List.length_cons, List.length_append]
    omega

theorem le_start (h : Tiles i text tiles last) : ∀ tile ∈ tiles, i ≤ tile.start := by
  induction h with
  | last => simp
  | @tile i tile rest tiles last hstart _ _ ih =>
    refine List.forall_mem_cons.mpr ⟨by omega, fun other hother ↦ ?_⟩
    have hle := ih other hother
    unfold Tile.stop at hle
    omega

theorem ordered (h : Tiles i text tiles last) :
    tiles.Pairwise fun a b ↦ a.start < a.stop ∧ a.stop ≤ b.start := by
  induction h with
  | last => exact .nil
  | @tile i tile rest tiles last _ hfits h ih =>
    refine List.pairwise_cons.mpr ⟨fun other hother ↦ ⟨?_, h.le_start other hother⟩, ih⟩
    exact Nat.lt_add_of_pos_right (bytes_pos hfits.span_ne_nil)

theorem fits (h : Tiles i text tiles last) {before after : List Tile} {tile : Tile}
    (htiles : tiles = before ++ tile :: after) :
    tile.start = i + bytes (before.flatMap Tile.text ++ tile.gap) ∧
      tile.Fits (after.flatMap Tile.text ++ last) := by
  induction h generalizing before with
  | last => simp at htiles
  | @tile i first rest tiles last hstart hfits h ih =>
    cases before with
    | nil =>
      obtain ⟨rfl, rfl⟩ : first = tile ∧ tiles = after := by simpa using htiles
      rw [h.text_eq]
      exact ⟨hstart, hfits⟩
    | cons other before =>
      obtain ⟨rfl, rfl⟩ : first = other ∧ tiles = before ++ tile :: after := by
        simpa using htiles
      obtain ⟨hstart', hfits'⟩ := ih rfl
      refine ⟨?_, hfits'⟩
      rw [hstart', Tile.stop, hstart]
      simp only [List.flatMap_cons, Tile.text, bytes_append]
      omega

end Tiles

/-- The tiles of a source and the blanks behind the last one. -/
structure IsTiling (source : String) (tiles : List Tile) (last : List Char) : Prop where
  tokens_eq : tiles.map Tile.token = Token.ofSource source
  length_le : tiles.length ≤ source.length
  text_eq : tiles.flatMap Tile.text ++ last = source.toList
  blank_last : ∀ c ∈ last, isBlank c = true
  ordered : tiles.Pairwise fun a b ↦ a.start < b.start ∧ a.stop ≤ b.start
  spans : ∀ tile ∈ tiles, Spans source tile.start tile.stop (String.ofList tile.span)
  fits : ∀ before tile after, tiles = before ++ tile :: after →
    tile.start = bytes (before.flatMap Tile.text ++ tile.gap) ∧
      tile.Fits (after.flatMap Tile.text ++ last)

theorem exists_isTiling (source : String) : ∃ tiles last, IsTiling source tiles last := by
  have hmunches := munches_tokensFrom Position.start source.toList
  have hgap : ∀ c ∈ ([] : List Char), isBlank c = true := by simp
  obtain ⟨tiles, last, htokens, htiles⟩ := hmunches.exists_tiles (i := 0) hgap rfl
  have hfits : ∀ before tile after, tiles = before ++ tile :: after →
      tile.start = bytes (before.flatMap Tile.text ++ tile.gap) ∧
        tile.Fits (after.flatMap Tile.text ++ last) := by
    intro before tile after h
    have hplace := htiles.fits h
    rwa [Nat.zero_add] at hplace
  refine ⟨tiles, last, htokens, ?_, htiles.text_eq, htiles.blank_last, ?_, fun tile hmem ↦ ?_,
    hfits⟩
  · rw [← String.length_toList]
    exact htiles.length_le
  · exact htiles.ordered.imp fun h ↦ ⟨Nat.lt_of_lt_of_le h.1 h.2, h.2⟩
  · obtain ⟨before, after, rfl⟩ := List.append_of_mem hmem
    refine ⟨String.ofList (before.flatMap Tile.text ++ tile.gap),
      String.ofList (after.flatMap Tile.text ++ last), ?_, ?_, rfl⟩
    · have htext := htiles.text_eq
      rw [← String.ofList_append, ← String.ofList_append, ← source.ofList_toList]
      refine congrArg String.ofList ?_
      simpa [Tile.text] using htext.symm
    · exact (hfits before tile after rfl).1.symm

end Scanner

/-! ### Reading on and on -/

/-- The token that a cursor shows after `n` steps. -/
theorem Cursor.next_iterate_advance (c : Cursor) (n : Nat) :
    (Cursor.advance^[n] c).next = c.rest[n]?.getD (Token.finish c.finish) := by
  induction n generalizing c with
  | zero => cases h : c.rest <;> simp [next, h]
  | succ n ih =>
    rw [Function.iterate_succ_apply, ih c.advance]
    simp [advance]

/-- Every source is tiled by its tokens, and reading on shows them one after the other and then,
for ever, its end. -/
theorem Token.ofSource_tiles (source : String) :
    (∃ tiles last, Scanner.IsTiling source tiles last) ∧
      (Position.ofEnd source).offset = source.utf8ByteSize ∧
      ∀ n, (Cursor.advance^[n] (Cursor.ofSource source)).next =
        (Token.ofSource source)[n]?.getD ⟨.eof, "", Position.ofEnd source⟩ := by
  refine ⟨Scanner.exists_isTiling source, ?_, fun n ↦ Cursor.next_iterate_advance _ n⟩
  have hoffset := Position.offset_after .start source.toList
  rw [String.ofList_toList] at hoffset
  rw [Position.ofEnd, hoffset]
  exact Nat.zero_add _

end Treewalk
