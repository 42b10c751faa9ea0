import Treewalk.Proofs.Grammar.Relations
import Treewalk.Proofs.Outcome

/-!
# Reading at other places

Readers look at the kinds of tokens and at the texts of those kinds that have one, and only hand on
their places. So reading the same tokens at other places and in another spelling gives the same
trees and the same errors, at other places (`Parsed.ofCursor_respell`).
-/

set_option autoImplicit false
set_option relaxedAutoImplicit false

namespace Treewalk

def Failure.relocate (g : Position → Position) : Failure → Failure
  | .rejected e => .rejected (e.relocate g)
  | .exhausted => .exhausted

/-- The cursor over the same tokens at other places. -/
def Cursor.relocate (g : Position → Position) (c : Cursor) : Cursor :=
  ⟨c.rest.map (Token.relocate g), g c.finish⟩

/-- What was read, at other places. -/
def Parsed.relocate (g : Position → Position) (p : Parsed) : Parsed :=
  ⟨p.program.map (Stmt.relocate g), p.errors.map (ParseError.relocate g)⟩

/-- The cursor over the same tokens at other places and in another spelling. -/
def Cursor.respell (g : Position → Position) (spell : String → String) (c : Cursor) : Cursor :=
  ⟨c.rest.map (Token.respell g spell), g c.finish⟩

/-- At other places and in another spelling, the reader `n` gives what `m` gives, changed by `f`. -/
def Moves (g : Position → Position) (spell : String → String) {α β : Type} (f : α → β)
    (m : Parser α) (n : Parser β) : Prop :=
  ∀ c : Cursor,
    n (c.respell g spell) = mapOutcome f (Failure.relocate g) (Cursor.respell g spell) (m c)

theorem Parser.binder_eq (c : Cursor) :
    Parser.binder c =
      if c.next.kind = .ident then .ok ⟨c.next.literal, c.next.position⟩ c.advance
      else .error (.rejected (.unexpectedToken .ident c.next.kind c.next.position)) c := by
  simp only [Parser.binder, Parser.expect, run_bind, Parser.peek]
  by_cases hkind : c.next.kind = .ident
  · rw [if_pos hkind, if_pos hkind]
    rfl
  · rw [if_neg hkind, if_neg hkind]
    rfl

section Respelling

variable (g : Position → Position) {spell : String → String} (hspell : spell "" = "")

include hspell in
theorem Cursor.next_respell (c : Cursor) : (c.respell g spell).next = c.next.respell g spell := by
  obtain ⟨rest, finish⟩ := c
  cases rest with
  | nil => simp [respell, next, Token.finish, Token.respell, Kind.hasText, hspell]
  | cons t rest => rfl

theorem Cursor.advance_respell (c : Cursor) :
    (c.respell g spell).advance = c.advance.respell g spell := by
  obtain ⟨rest, finish⟩ := c
  cases rest <;> rfl

include hspell

theorem moves_relation : Parser.Relation g spell (Moves g spell) where
  pure h c := by
    rw [run_pure, ← h]
    rfl
  exhausted _ := rfl
  reject h _ := by
    rw [← h]
    rfl
  bind := by
    intro α β γ δ f f' m n k l hm hk c
    rw [run_bind, run_bind, hm c]
    cases m c with
    | ok a d => exact hk a d
    | error e d => rfl
  peek c := by
    rw [Parser.peek, c.next_respell g hspell]
    rfl
  take c := by
    rw [Parser.take, c.next_respell g hspell, c.advance_respell]
    rfl
  binder c := by
    rw [Parser.binder_eq, Parser.binder_eq, c.next_respell g hspell, c.advance_respell,
      Token.respell_kind]
    by_cases hkind : c.next.kind = .ident
    · have hliteral : (c.next.respell g spell).literal = c.next.literal :=
        Token.respell_literal (by rw [hkind]; rfl)
      rw [if_pos hkind, if_pos hkind, hliteral]
      rfl
    · rw [if_neg hkind, if_neg hkind]
      rfl

/-- Reading the same tokens at other places and in another spelling gives the same statements and
errors at those places. -/
theorem Parsed.ofCursor_respell (count : Nat) (c : Cursor) :
    Parsed.ofCursor count (c.respell g spell) = (Parsed.ofCursor count c).relocate g := by
  induction count generalizing c with
  | zero => rfl
  | succ count ih =>
    have hrest : (c.respell g spell).rest.isEmpty = c.rest.isEmpty := by simp [Cursor.respell]
    have hlength : (c.respell g spell).rest.length = c.rest.length := by simp [Cursor.respell]
    have hread := (Parser.relatedAt (moves_relation g hspell)
      (Nat.le_refl (Parser.depthFor c.rest.length)) (.inl rfl)).statement c
    rw [Parsed.ofCursor, Parsed.ofCursor, hrest, hlength, hread]
    by_cases hc : c.rest.isEmpty = true
    · simp [hc, Parsed.relocate]
    · simp only [hc, if_false, Bool.false_eq_true]
      cases Parser.statement (Parser.depthFor c.rest.length) c with
      | ok s d => simp [mapOutcome, ih d, Parsed.relocate]
      | error e d =>
        cases e with
        | rejected e => simp [mapOutcome, Failure.relocate, ih d, Parsed.relocate]
        | exhausted => rfl

end Respelling

theorem Cursor.respell_id (g : Position → Position) (c : Cursor) :
    c.respell g id = c.relocate g := by
  have htoken : Token.respell g id = Token.relocate g := by
    funext t
    simp [Token.respell, Token.relocate]
  rw [respell, htoken, relocate]

/-- Reading the same tokens at other places gives the same statements and errors there. -/
theorem Parsed.ofCursor_relocate (g : Position → Position) (count : Nat) (c : Cursor) :
    Parsed.ofCursor count (c.relocate g) = (Parsed.ofCursor count c).relocate g := by
  rw [← c.respell_id, Parsed.ofCursor_respell g rfl]

end Treewalk
