/-!
# Cutting a text at a separator

`Text.pieces sep text` are the stretches of `text` between the occurrences of `sep`, taken from the
left and without overlap; joining them with `sep` gives the text back.
-/

set_option autoImplicit false
set_option relaxedAutoImplicit false

namespace Treewalk.Text

/-- Splits a text at the first occurrence of a separator: what stands before it and what follows, if
it occurs. -/
def breakAt? (sep : List Char) : List Char → Option (List Char × List Char)
  | [] => if sep.isEmpty then some ([], []) else none
  | c :: cs =>
    if sep.isPrefixOf (c :: cs) then some ([], (c :: cs).drop sep.length)
    else (breakAt? sep cs).map fun (before, after) ↦ (c :: before, after)

theorem eq_append_of_breakAt? {sep text before after : List Char}
    (h : breakAt? sep text = some (before, after)) : text = before ++ sep ++ after := by
  induction text generalizing before with
  | nil =>
    simp only [breakAt?] at h
    split at h <;> simp_all
  | cons c cs ih =>
    simp only [breakAt?] at h
    split at h
    · next hp =>
      obtain ⟨rest, hr⟩ := List.isPrefixOf_iff_prefix.mp hp
      simp only [Option.some.injEq, Prod.mk.injEq] at h
      obtain ⟨rfl, rfl⟩ := h
      rw [← hr]
      simp
    · cases hb : breakAt? sep cs with
      | none => simp [hb] at h
      | some p =>
        obtain ⟨b, a⟩ := p
        simp only [hb, Option.map_some, Option.some.injEq, Prod.mk.injEq] at h
        obtain ⟨rfl, rfl⟩ := h
        rw [ih hb]
        simp

/-- Whether a text occurs in another. -/
def occurs (part text : List Char) : Bool :=
  (breakAt? part text).isSome

theorem length_lt_of_breakAt? {sep text before after : List Char} (hs : sep ≠ [])
    (h : breakAt? sep text = some (before, after)) : after.length < text.length := by
  have ht := congrArg List.length (eq_append_of_breakAt? h)
  have hp := List.length_pos_iff.mpr hs
  simp only [List.length_append] at ht
  omega

/-- The stretches of a text between the occurrences of a separator that is not empty. -/
def pieces (sep : List Char) (text : List Char) : List (List Char) :=
  if hs : sep = [] then [text]
  else
    match h : breakAt? sep text with
    | none => [text]
    | some (before, after) =>
      have := length_lt_of_breakAt? hs h
      before :: pieces sep after
termination_by text.length

end Treewalk.Text
