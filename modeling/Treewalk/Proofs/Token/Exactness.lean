import Mathlib.Data.List.DropRight
import Treewalk.Proofs.Token.Columns

/-!
# Places are exact

A place is exact when its line and its column are what counting gives in the text before it: the
line feeds there, and the characters behind the last of them (`Position.IsExact`). Every token that
reading a source shows has an exact place, and so has its end, however often it is shown
(`Token.position_isExact`).

A token stands behind a part of the text, and its place is the one that walking over this part
gives, so exactness is a fact about walking. The scanner that keeps only the mark of its line finds
the same places.
-/

set_option autoImplicit false
set_option relaxedAutoImplicit false

namespace Treewalk

/-- The place is the one that counting finds in the source. -/
def Position.IsExact (source : String) (p : Position) : Prop :=
  ∃ before after : String, source = before ++ after ∧ before.utf8ByteSize = p.offset ∧
    p.line = 1 + before.toList.count '\n' ∧
    p.column = 1 + (before.toList.rtakeWhile (· ≠ '\n')).length

namespace Position

/-- The column counts the characters behind the last line feed. -/
theorem column_after_start (text : List Char) :
    (start.after text).column = 1 + (text.rtakeWhile (· ≠ '\n')).length := by
  induction text using List.reverseRecOn with
  | nil => rfl
  | append_singleton text c ih =>
    rw [after_append, after_cons, after_nil, advance, List.rtakeWhile_concat]
    by_cases hc : c = '\n'
    · simp [hc]
    · simp only [hc, ↓reduceIte, ih, ne_eq, not_false_eq_true, decide_true, List.length_append,
        List.length_singleton]
      omega

theorem isExact_after {source : String} {before rest : List Char}
    (h : source.toList = before ++ rest) : (start.after before).IsExact source := by
  refine ⟨String.ofList before, String.ofList rest, ?_, ?_, ?_, ?_⟩
  · rw [← String.ofList_append, ← h, String.ofList_toList]
  · rw [offset_after]
    exact (Nat.zero_add _).symm
  · rw [line_after, String.toList_ofList]
    rfl
  · rw [column_after_start, String.toList_ofList]

theorem isExact_ofEnd (source : String) : (ofEnd source).IsExact source :=
  isExact_after (List.append_nil _).symm

end Position

/-- A place in what follows a piece of a text is a place in the text. -/
theorem Position.exists_before_of_split {p q : Position} {span rest text : List Char}
    (hsplit : span ++ rest = text)
    (h : ∃ before rest', rest = before ++ rest' ∧ q = (p.after span).after before) :
    ∃ before rest', text = before ++ rest' ∧ q = p.after before := by
  obtain ⟨before, rest', rfl, rfl⟩ := h
  refine ⟨span ++ before, rest', ?_, ?_⟩
  · rw [← hsplit, List.append_assoc]
  · rw [after_append]

/-- A token stands behind the part of the text that was cut up before it. -/
theorem Scanner.Munches.exists_before {p : Position} {text : List Char} {ts : List Token}
    (h : Munches p text ts) {t : Token} (ht : t ∈ ts) :
    ∃ before rest, text = before ++ rest ∧ t.position = p.after before := by
  induction h with
  | done => cases ht
  | skip hnext _ ih => exact Position.exists_before_of_split hnext.split (ih ht)
  | @token p k span rest text ts hnext _ ih =>
    rcases List.mem_cons.mp ht with rfl | ht
    · exact ⟨[], text, rfl, rfl⟩
    · exact Position.exists_before_of_split hnext.split (ih ht)

theorem Token.isExact_of_mem {source : String} {t : Token} (ht : t ∈ Token.ofSource source) :
    t.position.IsExact source := by
  have hmunches := Scanner.munches_tokensFrom Position.start source.toList
  obtain ⟨before, rest, htext, hposition⟩ := hmunches.exists_before ht
  rw [hposition]
  exact Position.isExact_after htext

/-- Whatever token reading on and on shows, its place is exact; and these are the places that a
scanner finds which keeps only the mark of the line it is in. -/
theorem Token.position_isExact (source : String) :
    (∀ n, (Cursor.advance^[n] (Cursor.ofSource source)).next.position.IsExact source) ∧
      List.Forall₂ (Scanner.Locates source) (Scanner.lookups ⟨1, 0⟩ 0 source.toList)
        ((Token.ofSource source).map Token.position ++ [Position.ofEnd source]) := by
  refine ⟨fun n ↦ ?_, Scanner.forall₂_lookups_ofSource source⟩
  rw [Cursor.next_iterate_advance]
  cases ht : (Cursor.ofSource source).rest[n]? with
  | none => exact Position.isExact_ofEnd source
  | some t => exact Token.isExact_of_mem (List.mem_of_getElem? ht)

end Treewalk
