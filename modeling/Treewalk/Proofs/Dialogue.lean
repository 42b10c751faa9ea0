import Treewalk.Proofs.Lines
import Treewalk.Session

/-!
# Sessions evaluate one input after the other

A session is fed lines and cleared, in any order. The lines it still holds and the inputs that were
completed can be told from the replies alone (`heldAfter`, `inputs`): a line that is answered with
`more` is held, any other line completes the input of all lines held and itself. `Evaluates` says
what it means to evaluate inputs one after the other, without a session.

One line is taken in in one of five ways (`Answers`), and each of them follows the evaluation of
the inputs that it completes, at most one (`Follows`). The runs of a session compose these steps, so
a session leaves the store and the exit code of the plain sequence of evaluations
(`Session.play_refines`).
-/

set_option autoImplicit false
set_option relaxedAutoImplicit false

namespace Treewalk

/-- What is asked of a session: to take in a line, or to drop the lines it holds. -/
inductive Request where
  | line (text : String)
  | clear

/-- A request and, for a line, the reply. -/
inductive Exchange where
  | line (text : String) (reply : Reply)
  | clear
deriving DecidableEq

namespace Session

/-- Serves one request. -/
def serve (depth : Nat) (session : Session) : Request → Option (Exchange × Session)
  | .line text => (session.feed depth text).map fun (reply, next) ↦ (.line text reply, next)
  | .clear => some (.clear, session.clear)

/-- Serves requests one after the other. -/
def play (depth : Nat) (session : Session) : List Request → Option (List Exchange × Session)
  | [] => some ([], session)
  | request :: requests => do
    let (exchange, next) ← session.serve depth request
    let (exchanges, final) ← next.play depth requests
    return (exchange :: exchanges, final)

end Session

/-! ### What the replies tell -/

namespace Exchange

/-- The lines that are held after an exchange. -/
def hold (held : List String) : Exchange → List String
  | line text .more => held ++ [text]
  | _ => []

/-- The input that an exchange completes. -/
def input? (held : List String) : Exchange → Option String
  | clear | line _ .more => none
  | line text _ => some ("\n".intercalate (held ++ [text]))

/-- Exchanges after which nothing was evaluated: a line too few, syntax errors, lines dropped. -/
def isIdle : Exchange → Bool
  | clear | line _ .more | line _ (.errors _) => true
  | line _ _ => false

end Exchange

/-- The lines that are held after exchanges. -/
def heldAfter (held : List String) (exchanges : List Exchange) : List String :=
  exchanges.foldl Exchange.hold held

/-- The inputs that exchanges complete, in order. -/
def inputs : List String → List Exchange → List String
  | _, [] => []
  | held, exchange :: exchanges =>
    (exchange.input? held).toList ++ inputs (exchange.hold held) exchanges

/-- Evaluating inputs one after the other in one scope, except for those of white space only, leads
from the store `s` to the store `t`. The values are those of the inputs without syntax errors. -/
inductive Evaluates (scope : ScopeId) :
    List String → Store → List (Option Value) → Store → Prop
  | nil (s : Store) : Evaluates scope [] s [] s
  | blank {input : String} {rest : List String} {s t : Store} {values : List (Option Value)}
      (hblank : Text.allBlank input = true) (h : Evaluates scope rest s values t) :
      Evaluates scope (input :: rest) s values t
  | rejected {input : String} {rest : List String} {s t : Store} {values : List (Option Value)}
      (hblank : Text.allBlank input = false) (herrors : (Parsed.ofSource input).errors ≠ [])
      (h : Evaluates scope rest s values t) : Evaluates scope (input :: rest) s values t
  | finished {input : String} {rest : List String} {s u t : Store} {value : Option Value}
      {values : List (Option Value)} (hblank : Text.allBlank input = false)
      (hinput : Finishes input scope s value u) (h : Evaluates scope rest u values t) :
      Evaluates scope (input :: rest) s (value :: values) t

theorem readProgram_eq_error_iff {source name : String} {messages : List String} :
    readProgram source name = .error messages ↔
      (Parsed.ofSource source).errors ≠ [] ∧ (Parsed.ofSource source).located name = messages := by
  unfold readProgram
  by_cases h : (Parsed.ofSource source).errors = [] <;> simp [h]

theorem Finishes.errors_eq_nil {source : String} {scope : ScopeId} {s t : Store}
    {value : Option Value} (h : Finishes source scope s value t) :
    (Parsed.ofSource source).errors = [] := by
  obtain ⟨depth, h⟩ := h
  by_contra herrors
  have hread : readProgram source defaultSource = .error _ :=
    readProgram_eq_error_iff.mpr ⟨herrors, rfl⟩
  simp [evaluate, evaluateWith, hread] at h

/-- A text ends in one way. -/
theorem Finishes.unique {source : String} {scope : ScopeId} {s t t' : Store}
    {value value' : Option Value} (h : Finishes source scope s value t)
    (h' : Finishes source scope s value' t') : value = value' ∧ t = t' := by
  have herrors := h.errors_eq_nil
  obtain ⟨depth, h⟩ := h
  obtain ⟨depth', h'⟩ := h'
  have hmax := evaluate_of_le herrors (Nat.le_max_left depth depth') h
  rw [evaluate_of_le herrors (Nat.le_max_right depth depth') h'] at hmax
  exact Evaluation.finished.inj hmax.symm

/-- Inputs lead to one store, with one list of values. -/
theorem Evaluates.unique {scope : ScopeId} {texts : List String} {s t t' : Store}
    {values values' : List (Option Value)} (h : Evaluates scope texts s values t)
    (h' : Evaluates scope texts s values' t') : values = values' ∧ t = t' := by
  induction h generalizing values' with
  | nil =>
    cases h'
    exact ⟨rfl, rfl⟩
  | blank hblank _ ih =>
    cases h' with
    | blank _ h' => exact ih h'
    | rejected hblank' => simp [hblank] at hblank'
    | finished hblank' => simp [hblank] at hblank'
  | rejected hblank herrors _ ih =>
    cases h' with
    | blank hblank' => simp [hblank] at hblank'
    | rejected _ _ h' => exact ih h'
    | finished _ hinput => exact absurd hinput.errors_eq_nil herrors
  | finished hblank hinput _ ih =>
    cases h' with
    | blank hblank' => simp [hblank] at hblank'
    | rejected _ herrors => exact absurd hinput.errors_eq_nil herrors
    | finished _ hinput' h' =>
      obtain ⟨rfl, rfl⟩ := hinput.unique hinput'
      obtain ⟨rfl, rfl⟩ := ih h'
      exact ⟨rfl, rfl⟩

theorem Evaluates.append {scope : ScopeId} {first second : List String} {s t u : Store}
    {values others : List (Option Value)} (h : Evaluates scope first s values t)
    (h' : Evaluates scope second t others u) :
    Evaluates scope (first ++ second) s (values ++ others) u := by
  induction h with
  | nil => exact h'
  | blank hblank _ ih => exact .blank hblank (ih h')
  | rejected hblank herrors _ ih => exact .rejected hblank herrors (ih h')
  | finished hblank hinput _ ih => exact .finished hblank hinput (ih h')

namespace Session

/-! ### One line -/

/-- The ways to take in a line. -/
inductive Answers (session : Session) (line : String) : Reply → Session → Prop
  | more (hopen : 0 < openBrackets (session.joined line)) :
      Answers session line .more { session with waiting := session.joined line }
  | blank (hopen : ¬ 0 < openBrackets (session.joined line))
      (hblank : Text.allBlank (session.joined line) = true) :
      Answers session line .silent session.clear
  | rejected {messages : List String} (hopen : ¬ 0 < openBrackets (session.joined line))
      (hblank : Text.allBlank (session.joined line) = false)
      (hread : readProgram (session.joined line) defaultSource = .error messages) :
      Answers session line (.errors messages) session.clear
  | silent {t : Store} (hopen : ¬ 0 < openBrackets (session.joined line))
      (hblank : Text.allBlank (session.joined line) = false)
      (h : Finishes (session.joined line) session.scope session.store none t) :
      Answers session line .silent ⟨t, session.scope, "", none⟩
  | value {t : Store} {v : Value} {text : String}
      (hopen : ¬ 0 < openBrackets (session.joined line))
      (hblank : Text.allBlank (session.joined line) = false)
      (h : Finishes (session.joined line) session.scope session.store (some v) t)
      (htext : t.inspect? v = some text) :
      Answers session line (.value text) ⟨t, session.scope, "", some v⟩

theorem evaluate_rejected_iff {depth : Nat} {source : String} {scope : ScopeId} {s : Store}
    {messages : List String} :
    evaluate depth source scope s = .rejected messages ↔
      readProgram source defaultSource = .error messages := by
  unfold evaluate evaluateWith
  cases readProgram source defaultSource with
  | error errors => simp
  | ok program =>
    dsimp only
    cases execute Builtin.table depth program scope s <;> simp

theorem feed_iff {session next : Session} {line : String} {reply : Reply} :
    (∃ depth, session.feed depth line = some (reply, next)) ↔ session.Answers line reply next := by
  constructor
  · rintro ⟨depth, h⟩
    simp only [feed] at h
    split at h
    · next hopen =>
      obtain ⟨rfl, rfl⟩ := Prod.mk.inj (Option.some.inj h)
      exact .more hopen
    next hopen =>
    split at h
    · next hblank =>
      obtain ⟨rfl, rfl⟩ := Prod.mk.inj (Option.some.inj h)
      exact .blank hopen hblank
    next hblank =>
    rw [Bool.not_eq_true] at hblank
    split at h
    · next messages he =>
      obtain ⟨rfl, rfl⟩ := Prod.mk.inj (Option.some.inj h)
      exact .rejected hopen hblank (evaluate_rejected_iff.mp he)
    · next t he =>
      obtain ⟨rfl, rfl⟩ := Prod.mk.inj (Option.some.inj h)
      exact .silent hopen hblank ⟨depth, he⟩
    · next v t he =>
      obtain ⟨text, htext, h⟩ := Option.map_eq_some_iff.mp h
      obtain ⟨rfl, rfl⟩ := Prod.mk.inj h
      exact .value hopen hblank ⟨depth, he⟩ htext
    · cases h
  · intro h
    cases h with
    | more hopen => exact ⟨0, by simp [feed, hopen]⟩
    | blank hopen hblank => exact ⟨0, by simp [feed, hopen, hblank, clear]⟩
    | rejected hopen hblank hread =>
      have he : evaluate 0 (session.joined line) session.scope session.store = .rejected _ :=
        evaluate_rejected_iff.mpr hread
      exact ⟨0, by simp [feed, hopen, hblank, he, clear]⟩
    | silent hopen hblank h =>
      obtain ⟨depth, he⟩ := h
      exact ⟨depth, by simp [feed, hopen, hblank, he]⟩
    | value hopen hblank h htext =>
      obtain ⟨depth, he⟩ := h
      exact ⟨depth, by simp [feed, hopen, hblank, he, htext]⟩

/-! ### Lines that are held -/

/-- The session waits with these lines, and if there are any, brackets are open. -/
structure Keeps (session : Session) (held : List String) : Prop where
  waiting_eq : session.waiting = "\n".intercalate held
  opened : held = [] ∨ 0 < openBrackets session.waiting

namespace Keeps

variable {session : Session} {held : List String}

theorem waiting_eq_empty_iff (h : session.Keeps held) : session.waiting = "" ↔ held = [] := by
  constructor
  · intro hw
    refine h.opened.resolve_right fun hopen ↦ ?_
    rw [hw] at hopen
    exact absurd hopen (by decide +kernel)
  · rintro rfl
    rw [h.waiting_eq, String.intercalate_nil]

theorem joined_eq (h : session.Keeps held) (line : String) :
    session.joined line = "\n".intercalate (held ++ [line]) := by
  unfold joined
  cases held with
  | nil =>
    rw [if_pos (String.isEmpty_iff.mpr (h.waiting_eq_empty_iff.mpr rfl)), List.nil_append,
      String.intercalate_singleton]
  | cons first held =>
    have hne : ¬ session.waiting.isEmpty = true := by
      rw [String.isEmpty_iff, h.waiting_eq_empty_iff]
      exact List.cons_ne_nil first held
    rw [if_neg hne, String.intercalate_append_of_ne_nil (by simp) (by simp),
      String.intercalate_singleton, h.waiting_eq]

theorem clear (h : session.waiting = "") : session.Keeps [] :=
  ⟨h, .inl rfl⟩

end Keeps

/-- The session got from one state to the other by evaluating the inputs. -/
def Follows (session : Session) (inputs : List String) (next : Session) : Prop :=
  next.scope = session.scope ∧
    ∃ values, Evaluates session.scope inputs session.store values next.store ∧
      next.last = values.getLast?.getD session.last

theorem Follows.trans {session next final : Session} {first second : List String}
    (h : session.Follows first next) (h' : next.Follows second final) :
    session.Follows (first ++ second) final := by
  obtain ⟨hscope, values, heval, hlast⟩ := h
  obtain ⟨hscope', others, heval', hlast'⟩ := h'
  rw [hscope] at hscope' heval'
  refine ⟨hscope', values ++ others, heval.append heval', ?_⟩
  rw [hlast', hlast, List.getLast?_append]
  cases others.getLast? <;> rfl

/-- A line leads on by the input that it completes, if it does. -/
theorem Answers.step {session next : Session} {line : String} {reply : Reply}
    (h : session.Answers line reply next) {held : List String} (hk : session.Keeps held) :
    next.Keeps ((Exchange.line line reply).hold held) ∧
      session.Follows ((Exchange.line line reply).input? held).toList next := by
  have hjoined := hk.joined_eq line
  cases h with
  | more hopen => exact ⟨⟨hjoined, .inr hopen⟩, rfl, [], .nil _, rfl⟩
  | blank hopen hblank =>
    rw [hjoined] at hblank
    exact ⟨.clear rfl, rfl, [], .blank hblank (.nil _), rfl⟩
  | rejected hopen hblank hread =>
    have herrors := (readProgram_eq_error_iff.mp hread).1
    rw [hjoined] at hblank herrors
    exact ⟨.clear rfl, rfl, [], .rejected hblank herrors (.nil _), rfl⟩
  | silent hopen hblank h =>
    rw [hjoined] at hblank h
    exact ⟨.clear rfl, rfl, [none], .finished hblank h (.nil _), rfl⟩
  | @value t v text hopen hblank h htext =>
    rw [hjoined] at hblank h
    exact ⟨.clear rfl, rfl, [some v], .finished hblank h (.nil _), rfl⟩

/-- A request leads on by the input that it completes, if it does. -/
theorem serve_step {depth : Nat} {session next : Session} {request : Request}
    {exchange : Exchange} (h : session.serve depth request = some (exchange, next))
    {held : List String} (hk : session.Keeps held) :
    next.Keeps (exchange.hold held) ∧ session.Follows (exchange.input? held).toList next := by
  cases request with
  | clear =>
    obtain ⟨rfl, rfl⟩ := Prod.mk.inj (Option.some.inj h)
    exact ⟨.clear rfl, rfl, [], .nil _, rfl⟩
  | line text =>
    obtain ⟨⟨reply, next'⟩, hfeed, h⟩ := Option.map_eq_some_iff.mp h
    obtain ⟨rfl, rfl⟩ := Prod.mk.inj h
    exact (feed_iff.mp ⟨depth, hfeed⟩).step hk

/-- Requests lead on by the inputs that they complete. -/
theorem play_run {depth : Nat} {session final : Session} {requests : List Request}
    {exchanges : List Exchange} (h : session.play depth requests = some (exchanges, final))
    {held : List String} (hk : session.Keeps held) :
    final.Keeps (heldAfter held exchanges) ∧ session.Follows (inputs held exchanges) final := by
  induction requests generalizing session exchanges held with
  | nil =>
    obtain ⟨rfl, rfl⟩ := Prod.mk.inj (Option.some.inj h)
    exact ⟨hk, rfl, [], .nil _, rfl⟩
  | cons request requests ih =>
    simp only [play, Option.bind_eq_bind, Option.bind_eq_some_iff] at h
    obtain ⟨⟨exchange, next⟩, hserve, ⟨rest, final'⟩, hplay, h⟩ := h
    obtain ⟨rfl, rfl⟩ := Prod.mk.inj (Option.some.inj h)
    obtain ⟨hk, hfollows⟩ := serve_step hserve hk
    obtain ⟨hk, hfollows'⟩ := ih hplay hk
    exact ⟨hk, hfollows.trans hfollows'⟩

/-- Nothing but the lines that are held changes without an evaluation. -/
theorem serve_idle {depth : Nat} {session next : Session} {request : Request}
    {exchange : Exchange} (h : session.serve depth request = some (exchange, next))
    (hidle : exchange.isIdle = true) :
    next.store = session.store ∧ next.scope = session.scope ∧ next.last = session.last := by
  cases request with
  | clear =>
    obtain ⟨rfl, rfl⟩ := Prod.mk.inj (Option.some.inj h)
    exact ⟨rfl, rfl, rfl⟩
  | line text =>
    obtain ⟨⟨reply, next'⟩, hfeed, h⟩ := Option.map_eq_some_iff.mp h
    obtain ⟨rfl, rfl⟩ := Prod.mk.inj h
    cases feed_iff.mp ⟨depth, hfeed⟩ with
    | more => exact ⟨rfl, rfl, rfl⟩
    | rejected => exact ⟨rfl, rfl, rfl⟩
    | blank => cases hidle
    | silent => cases hidle
    | value => cases hidle

/-- A line has an answer unless evaluating its input does not end, or ends in a value without a
text. -/
theorem exists_feed_iff (session : Session) (line : String) :
    (∃ depth reply next, session.feed depth line = some (reply, next)) ↔
      0 < openBrackets (session.joined line) ∨ Text.allBlank (session.joined line) = true ∨
        (Parsed.ofSource (session.joined line)).errors ≠ [] ∨
        ∃ value t, Finishes (session.joined line) session.scope session.store value t ∧
          ∀ v ∈ value, (t.inspect? v).isSome := by
  constructor
  · rintro ⟨depth, reply, next, h⟩
    cases feed_iff.mp ⟨depth, h⟩ with
    | more hopen => exact .inl hopen
    | blank _ hblank => exact .inr (.inl hblank)
    | rejected _ _ hread => exact .inr (.inr (.inl (readProgram_eq_error_iff.mp hread).1))
    | silent _ _ hinput => exact .inr (.inr (.inr ⟨_, _, hinput, by simp⟩))
    | value _ _ hinput htext => exact .inr (.inr (.inr ⟨_, _, hinput, by simp [htext]⟩))
  · intro h
    suffices h : ∃ reply next, session.Answers line reply next by
      obtain ⟨reply, next, h⟩ := h
      obtain ⟨depth, h⟩ := feed_iff.mpr h
      exact ⟨depth, reply, next, h⟩
    by_cases hopen : 0 < openBrackets (session.joined line)
    · exact ⟨_, _, .more hopen⟩
    cases hblank : Text.allBlank (session.joined line) with
    | true => exact ⟨_, _, .blank hopen hblank⟩
    | false =>
      rcases h with h | h | h | ⟨value, t, h, htext⟩
      · exact absurd h hopen
      · rw [hblank] at h
        cases h
      · exact ⟨_, _, .rejected hopen hblank (readProgram_eq_error_iff.mpr ⟨h, rfl⟩)⟩
      · cases value with
        | none => exact ⟨_, _, .silent hopen hblank h⟩
        | some v =>
          obtain ⟨text, htext⟩ := Option.isSome_iff_exists.mp (htext v rfl)
          exact ⟨_, _, .value hopen hblank h htext⟩

/-- Which lines are answered with `more` and with errors. -/
theorem reply_iff {depth : Nat} {session next : Session} {line : String} {reply : Reply}
    (h : session.feed depth line = some (reply, next)) :
    (reply = .more ↔ 0 < openBrackets (session.joined line)) ∧
      ((∃ messages, reply = .errors messages) ↔ ¬ 0 < openBrackets (session.joined line) ∧
        Text.allBlank (session.joined line) = false ∧
        (Parsed.ofSource (session.joined line)).errors ≠ []) := by
  cases feed_iff.mp ⟨depth, h⟩ with
  | more hopen => simp [hopen]
  | blank hopen hblank => simp [hopen, hblank]
  | rejected hopen hblank hread => simp [hopen, hblank, (readProgram_eq_error_iff.mp hread).1]
  | silent hopen _ hinput => simp [hopen, hinput.errors_eq_nil]
  | value hopen _ hinput => simp [hopen, hinput.errors_eq_nil]

theorem prompt_eq_iff (session : Session) : session.prompt = ".. " ↔ session.waiting ≠ "" := by
  unfold prompt
  by_cases h : session.waiting = "" <;> simp [h]

/-- A session is a sequence of evaluations. After any requests, it works in the scope it was
started in and waits with the lines that it holds, which are open; the prompt says whether there are
any. Its store and its exit code are those of evaluating the inputs that were completed one after
the other. Where no input is evaluated, only the lines that it holds change. A line has an answer if
evaluating its input has one. -/
theorem play_refines {depth : Nat} {store : Store} {scope : ScopeId} {requests : List Request}
    {exchanges : List Exchange} {session : Session}
    (h : (start store scope).play depth requests = some (exchanges, session)) :
    session.scope = scope ∧
    session.waiting = "\n".intercalate (heldAfter [] exchanges) ∧
    (session.waiting = "" ∨ 0 < openBrackets session.waiting) ∧
    (session.prompt = ".. " ↔ session.waiting ≠ "") ∧
    (∃ values, Evaluates scope (inputs [] exchanges) store values session.store ∧
      session.exitCode = exitCodeOf (values.getLast?.getD none)) ∧
    (∀ values t, Evaluates scope (inputs [] exchanges) store values t →
      t = session.store ∧ exitCodeOf (values.getLast?.getD none) = session.exitCode) ∧
    (∀ depth request exchange next, session.serve depth request = some (exchange, next) →
      exchange.isIdle = true → next.store = session.store ∧ next.output = session.output ∧
        next.exitCode = session.exitCode) ∧
    ∀ line,
      let input := "\n".intercalate (heldAfter [] exchanges ++ [line])
      (∀ depth reply next, session.feed depth line = some (reply, next) →
        (reply = .more ↔ 0 < openBrackets input) ∧
          ((∃ messages, reply = .errors messages) ↔ ¬ 0 < openBrackets input ∧
            Text.allBlank input = false ∧ (Parsed.ofSource input).errors ≠ [])) ∧
      ((∃ depth reply next, session.feed depth line = some (reply, next)) ↔
        0 < openBrackets input ∨ Text.allBlank input = true ∨
          (Parsed.ofSource input).errors ≠ [] ∨
          ∃ value t, Finishes input scope session.store value t ∧
            ∀ v ∈ value, (t.inspect? v).isSome) := by
  obtain ⟨hk, hscope, values, heval, hlast⟩ := play_run h (.clear rfl)
  have hexit : session.exitCode = exitCodeOf (values.getLast?.getD none) :=
    congrArg exitCodeOf hlast
  refine ⟨hscope, hk.waiting_eq, ?_, prompt_eq_iff session, ⟨values, heval, hexit⟩, ?_, ?_, ?_⟩
  · exact hk.opened.imp hk.waiting_eq_empty_iff.mpr id
  · intro others t hothers
    obtain ⟨rfl, rfl⟩ := heval.unique hothers
    exact ⟨rfl, hexit.symm⟩
  · intro depth request exchange next hserve hidle
    obtain ⟨hstore, hscope, hlast⟩ := serve_idle hserve hidle
    exact ⟨hstore, by rw [output, output, hstore, hscope], congrArg exitCodeOf hlast⟩
  · intro line
    dsimp only
    rw [← hk.joined_eq line, ← show session.scope = scope from hscope]
    exact ⟨fun depth reply next hfeed ↦ reply_iff hfeed, exists_feed_iff session line⟩

/-- A function over three lines, a line that is dropped, a syntax error, a blank line and a call.
Four inputs are completed, and the exit code is the value of the call. -/
theorem play_refines_call :
    let s := Store.empty.openGlobal.2
    let requests := [.line "let f = fn(a) \x7b", .line "a + 40", .line "\x7d;", .line "(1", .clear,
      .line "let = 5", .line " ", .line "f(2)"]
    ∃ exchanges session, (start s ⟨0⟩).play 30 requests = some (exchanges, session) ∧
      ∃ values, Evaluates ⟨0⟩ ["let f = fn(a) \x7b\na + 40\n\x7d;", "let = 5", " ", "f(2)"] s values
        session.store ∧ exitCodeOf (values.getLast?.getD none) = 42 := by
  intro s requests
  have hrun : (match (start s ⟨0⟩).play 30 requests with
      | some (exchanges, session) => decide (inputs [] exchanges =
          ["let f = fn(a) \x7b\na + 40\n\x7d;", "let = 5", " ", "f(2)"] ∧ session.exitCode = 42)
      | none => false) = true := by
    decide +kernel
  cases hplay : (start s ⟨0⟩).play 30 requests with
  | none => simp [hplay] at hrun
  | some outcome =>
    obtain ⟨exchanges, session⟩ := outcome
    rw [hplay] at hrun
    obtain ⟨hinputs, hexit⟩ := of_decide_eq_true hrun
    obtain ⟨-, -, -, -, ⟨values, heval, hcode⟩, -⟩ := play_refines hplay
    rw [hinputs] at heval
    exact ⟨exchanges, session, rfl, values, heval, hcode.symm.trans hexit⟩

end Session

end Treewalk
