import Treewalk.Proofs.Eval.Hashes
import Treewalk.Proofs.Eval.Effects

/-!
# Splitting, joining and searching

A separator is searched for from the left, and what is found first is cut off; so nothing before it
contains the separator (`Text.not_isInfix_before`), although occurrences may overlap. The pieces of
a text are therefore free of the separator, joining them gives the text back, and there is more than
one exactly if the separator occurs in the text. The words of a text are what is left of it between
white space: they are not empty, they have no white space, and one after the other they are the text
without it.

The builtins do this to strings: `split` makes an array of the pieces or words, `join` takes their
texts, which are the strings themselves, and `contains` searches.
-/

set_option autoImplicit false
set_option relaxedAutoImplicit false

namespace Treewalk

namespace Text

variable {sep text before after : List Char}

/-! ### Searching -/

theorem breakAt?_eq_none_iff : breakAt? sep text = none ↔ ¬ sep <:+: text := by
  induction text with
  | nil => simp [breakAt?]
  | cons c cs ih =>
    rw [breakAt?, List.infix_cons_iff]
    split
    · next hp => simp [List.isPrefixOf_iff_prefix.mp hp]
    · next hp =>
      rw [Option.map_eq_none_iff, ih]
      have hnot : ¬ sep <+: c :: cs := fun h ↦ hp (List.isPrefixOf_iff_prefix.mpr h)
      simp [hnot]

theorem occurs_iff : occurs sep text = true ↔ sep <:+: text := by
  rw [occurs, Option.isSome_iff_ne_none, ne_eq, breakAt?_eq_none_iff, Decidable.not_not]

/-- Nothing in front of the first occurrence contains the separator, as it would have been found
there. -/
theorem not_isInfix_before (hs : sep ≠ []) (h : breakAt? sep text = some (before, after)) :
    ¬ sep <:+: before := by
  induction text generalizing before with
  | nil => simp [breakAt?, hs] at h
  | cons c cs ih =>
    rw [breakAt?] at h
    split at h
    · cases h
      simpa using hs
    · next hp =>
      obtain ⟨⟨front, rest⟩, hb, heq⟩ := Option.map_eq_some_iff.mp h
      cases heq
      rw [List.infix_cons_iff]
      rintro (hstart | hinfix)
      · -- The separator would begin with `c`, but it is no beginning of the text.
        refine hp (List.isPrefixOf_iff_prefix.mpr ?_)
        rw [eq_append_of_breakAt? hb, List.append_assoc]
        exact hstart.trans (List.prefix_append (c :: front) (sep ++ after))
      · exact ih hb hinfix

/-! ### Pieces -/

theorem pieces_of_none (h : breakAt? sep text = none) : pieces sep text = [text] := by
  rw [pieces]
  split
  · rfl
  · split
    · rfl
    · next hsome => cases h.symm.trans hsome

theorem pieces_of_some (hs : sep ≠ []) (h : breakAt? sep text = some (before, after)) :
    pieces sep text = before :: pieces sep after := by
  rw [pieces, dif_neg hs]
  split
  · next hnone => cases h.symm.trans hnone
  · next hsome =>
    cases h.symm.trans hsome
    rfl

theorem pieces_ne_nil (sep text : List Char) : pieces sep text ≠ [] := by
  fun_cases pieces sep text <;> simp

/-- The pieces with the separator between them are the text. -/
theorem intercalate_pieces (sep text : List Char) : sep.intercalate (pieces sep text) = text := by
  fun_induction pieces sep text with
  | case1 text hs => exact List.intercalate_singleton
  | case2 text hs h => exact List.intercalate_singleton
  | case3 text hs before after h _ ih =>
    rw [List.intercalate_cons_of_ne_nil (pieces_ne_nil sep after), ih]
    exact (eq_append_of_breakAt? h).symm

/-- No piece contains the separator. -/
theorem not_isInfix_of_mem_pieces (hs : sep ≠ []) {piece : List Char}
    (h : piece ∈ pieces sep text) : ¬ sep <:+: piece := by
  fun_induction pieces sep text with
  | case1 text hnil => exact absurd hnil hs
  | case2 text _ hb =>
    rw [List.mem_singleton.mp h]
    exact breakAt?_eq_none_iff.mp hb
  | case3 text _ before after hb _ ih =>
    rcases List.mem_cons.mp h with rfl | hmem
    · exact not_isInfix_before hs hb
    · exact ih hmem

/-- There is more than one piece exactly if the separator occurs. -/
theorem one_lt_length_pieces_iff (hs : sep ≠ []) :
    1 < (pieces sep text).length ↔ sep <:+: text := by
  cases hb : breakAt? sep text with
  | none => simp [pieces_of_none hb, breakAt?_eq_none_iff.mp hb]
  | some cut =>
    obtain ⟨before, after⟩ := cut
    have hlength := List.length_pos_iff.mpr (pieces_ne_nil sep after)
    have hinfix : sep <:+: text := by
      rw [eq_append_of_breakAt? hb]
      exact List.infix_append before sep after
    rw [pieces_of_some hs hb, List.length_cons]
    exact ⟨fun _ ↦ hinfix, fun _ ↦ by omega⟩

/-! ### Words -/

/-- Words are not empty and have no white space. -/
theorem of_mem_words {word : List Char} (h : word ∈ words text) :
    word ≠ [] ∧ ∀ c ∈ word, isBlank c = false := by
  fun_induction words text with
  | case1 => cases h
  | case2 c cs _ ih => exact ih h
  | case3 c cs hc ih =>
    rcases List.mem_cons.mp h with rfl | hmem
    · refine ⟨List.cons_ne_nil _ _, fun d hd ↦ ?_⟩
      rcases List.mem_cons.mp hd with rfl | hd
      · exact eq_false_of_ne_true hc
      · have hall := List.all_eq_true.mp List.all_takeWhile d hd
        simpa using hall
    · exact ih hmem

/-- One after the other, the words are the text without its white space. -/
theorem flatten_words (text : List Char) : (words text).flatten = text.filter (!isBlank ·) := by
  fun_induction words text with
  | case1 => rfl
  | case2 c cs hc ih => rw [ih, List.filter_cons_of_neg (by simp [hc])]
  | case3 c cs hc ih =>
    have hword : (cs.takeWhile (!isBlank ·)).filter (!isBlank ·) = cs.takeWhile (!isBlank ·) :=
      List.filter_eq_self.mpr (List.all_eq_true.mp List.all_takeWhile)
    have hsplit : cs.filter (!isBlank ·) =
        cs.takeWhile (!isBlank ·) ++ (cs.dropWhile (!isBlank ·)).filter (!isBlank ·) := by
      rw [← hword, ← List.filter_append, List.takeWhile_append_dropWhile]
    rw [List.filter_cons_of_pos (by simp [hc]), List.flatten_cons, ih, hsplit, List.cons_append]

theorem intercalate_nil_left (ls : List (List Char)) :
    ([] : List Char).intercalate ls = ls.flatten := by
  induction ls with
  | nil => rfl
  | cons l ls ih =>
    by_cases h : ls = []
    · simp [h]
    · rw [List.intercalate_cons_of_ne_nil h, ih, List.append_nil, List.flatten_cons]

end Text

/-! ### The builtins on strings -/

namespace Builtin

/-- What `contains` answers about two strings. -/
theorem contains_str {text part : String} {answer : Bool}
    (h : answer = true ↔ part.toList <:+: text.toList) (s : Store) :
    contains (.str text) (.str part) s = .ok (.bool answer) s := by
  have hoccurs : Text.occurs part.toList text.toList = answer := by
    rw [Bool.eq_iff_iff, Text.occurs_iff, h]
  rw [← hoccurs]
  rfl

/-- Strings are their own texts. -/
theorem texts_strs (ts : List String) (s : Store) : texts (ts.map Value.str) s = .ok ts s := by
  have htexts : (ts.map Value.str).mapM s.inspect? = some ts := by
    induction ts with
    | nil => rfl
    | cons text ts ih =>
      have hself : s.inspect? (.str text) = some text := rfl
      rw [List.map_cons, List.mapM_cons, hself, ih]
      rfl
  change (ts.map Value.str).mapM (fun v ↦ Eval.ofOption (s.inspect? v)) s = _
  rw [mapM_ofOption, htexts]
  rfl

variable {separator : Option Value} {sep : String}

/-- What `join` makes of an array of strings. -/
theorem join_strs {s : Store} {id : CellId} {ts : List String}
    (hid : s.elements id = (ts.map Value.str).toArray)
    (hsep : separator.getD (.str "") = .str sep) :
    join (.array id) separator s = .ok (.str (sep.intercalate ts)) s := by
  have htexts : texts (s.elements id).toList s = .ok ts s := by
    rw [hid]
    exact texts_strs ts s
  simp only [join, hsep]
  change EStateM.bind (texts (s.elements id).toList) _ s = _
  rw [EStateM.bind, htexts]
  rfl

/-- A string that is split becomes an array of strings. -/
theorem exists_split (text : String) (hsep : separator.getD (.str "") = .str sep) (s : Store) :
    let parts := if sep.isEmpty then Text.words text.toList else Text.pieces sep.toList text.toList
    ∃ (id : CellId) (t : Store), split (.str text) separator s = .ok (.array id) t ∧
      t.elements id = ((parts.map String.ofList).map Value.str).toArray := by
  intro parts
  have hsplit : split (.str text) separator =
      Eval.newArray ((parts.map String.ofList).map Value.str).toArray := by
    simp only [split, hsep, List.map_map]
    rfl
  rw [hsplit]
  exact ⟨_, _, rfl, Store.elements_of_cell (s.cell_allocate_new _)⟩

/-- Split at a separator, a text becomes pieces without it, which `join` puts together again, and it
becomes more than one exactly if it contains the separator. -/
theorem exists_pieces (text : String) (hne : sep ≠ "") (s : Store) :
    ∃ (id : CellId) (t : Store) (pieces : List String),
      split (.str text) (some (.str sep)) s = .ok (.array id) t ∧
      t.elements id = (pieces.map Value.str).toArray ∧
      join (.array id) (some (.str sep)) t = .ok (.str text) t ∧
      (∀ piece ∈ pieces, ¬ sep.toList <:+: piece.toList) ∧
      (1 < pieces.length ↔ sep.toList <:+: text.toList) := by
  have hchars : sep.toList ≠ [] := mt String.toList_eq_nil_iff.mp hne
  have hsep : (some (Value.str sep)).getD (.str "") = .str sep := rfl
  obtain ⟨id, t, hsplit, hid⟩ := exists_split text hsep s
  rw [if_neg (mt String.isEmpty_iff.mp hne)] at hid
  refine ⟨id, t, _, hsplit, hid, ?_, fun piece hpiece ↦ ?_, ?_⟩
  · have htext :
        sep.intercalate ((Text.pieces sep.toList text.toList).map String.ofList) = text := by
      rw [← String.toList_inj, String.toList_intercalate, List.map_map]
      simpa [Function.comp_def] using Text.intercalate_pieces sep.toList text.toList
    rw [join_strs hid hsep, htext]
  · obtain ⟨p, hp, rfl⟩ := List.mem_map.mp hpiece
    rw [String.toList_ofList]
    exact Text.not_isInfix_of_mem_pieces hchars hp
  · rw [List.length_map, Text.one_lt_length_pieces_iff hchars]

/-- Split without a separator, a text becomes words, which `join` puts together without white
space. -/
theorem exists_words (text : String) (hsep : separator.getD (.str "") = .str "") (s : Store) :
    ∃ (id : CellId) (t : Store) (words : List String),
      split (.str text) separator s = .ok (.array id) t ∧
      t.elements id = (words.map Value.str).toArray ∧
      (∀ word ∈ words, word ≠ "" ∧ ∀ c ∈ word.toList, Text.isBlank c = false) ∧
      join (.array id) none t =
        .ok (.str (String.ofList (text.toList.filter (!Text.isBlank ·)))) t := by
  obtain ⟨id, t, hsplit, hid⟩ := exists_split text hsep s
  rw [if_pos (String.isEmpty_iff.mpr rfl)] at hid
  refine ⟨id, t, _, hsplit, hid, fun word hword ↦ ?_, ?_⟩
  · obtain ⟨w, hw, rfl⟩ := List.mem_map.mp hword
    rw [ne_eq, ← String.toList_eq_nil_iff, String.toList_ofList]
    exact Text.of_mem_words hw
  · have htext : "".intercalate ((Text.words text.toList).map String.ofList) =
        String.ofList (text.toList.filter (!Text.isBlank ·)) := by
      rw [← String.toList_inj, String.toList_intercalate, List.map_map, String.toList_ofList]
      simpa [Function.comp_def, Text.intercalate_nil_left] using Text.flatten_words text.toList
    rw [join_strs hid rfl, htext]

/-- Splitting, joining and searching agree. Of the pieces of a text at a separator that is not
empty, none contains the separator, joined with it they are the text again, and there is more than
one exactly if the text contains the separator. The words of a text, which it is split into without
a separator or with an empty one, are not empty and have no white space, and joined they are the
text without its white space. -/
theorem split_join_contains (text : String) (s : Store) :
    (∀ sep : String, sep ≠ "" →
      ∃ (id : CellId) (t : Store) (pieces : List String),
        split (.str text) (some (.str sep)) s = .ok (.array id) t ∧
        t.elements id = (pieces.map Value.str).toArray ∧
        join (.array id) (some (.str sep)) t = .ok (.str text) t ∧
        (∀ piece ∈ pieces, contains (.str piece) (.str sep) t = .ok (.bool false) t ∧
          ¬ sep.toList <:+: piece.toList) ∧
        contains (.str text) (.str sep) t = .ok (.bool (decide (1 < pieces.length))) t ∧
        (1 < pieces.length ↔ sep.toList <:+: text.toList)) ∧
    ∀ separator ∈ [none, some (Value.str "")],
      ∃ (id : CellId) (t : Store) (words : List String),
        split (.str text) separator s = .ok (.array id) t ∧
        t.elements id = (words.map Value.str).toArray ∧
        (∀ word ∈ words, word ≠ "" ∧ ∀ c ∈ word.toList, Text.isBlank c = false) ∧
        join (.array id) none t =
          .ok (.str (String.ofList (text.toList.filter (!Text.isBlank ·)))) t := by
  refine ⟨fun sep hne ↦ ?_, fun separator hseparator ↦ ?_⟩
  · obtain ⟨id, t, pieces, hsplit, hid, hjoin, hfree, hmany⟩ := exists_pieces text hne s
    refine ⟨id, t, pieces, hsplit, hid, hjoin, fun piece hpiece ↦ ⟨?_, hfree piece hpiece⟩, ?_,
      hmany⟩
    · refine contains_str ⟨fun h ↦ ?_, fun h ↦ absurd h (hfree piece hpiece)⟩ t
      cases h
    · exact contains_str (decide_eq_true_iff.trans hmany) t
  · refine exists_words text ?_ s
    simp only [List.mem_cons, List.not_mem_nil, or_false] at hseparator
    rcases hseparator with rfl | rfl <;> rfl

end Builtin

end Treewalk
