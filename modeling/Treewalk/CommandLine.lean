import Treewalk.Session

/-!
# The command line

The program runs a file, a source text given as an argument, or, given neither, the lines of its
standard input as a session. `CommandLine.perform` is all that it does, as a function from the files
and the input to the output, the error output and the exit code.
-/

set_option autoImplicit false
set_option relaxedAutoImplicit false

namespace Treewalk.CommandLine

/-- What the arguments ask for. -/
structure Options where
  file : Option String
  source : Option String
  quiet : Bool
deriving DecidableEq, Repr, Inhabited

/-- What is asked for before any argument is read. -/
def Options.start : Options := ⟨none, none, false⟩

/-- Whether an argument is an option and not a value: it starts with a hyphen and goes on. -/
def isOption (argument : String) : Bool :=
  match argument.toList with
  | '-' :: _ :: _ => true
  | _ => false

/-- The source text can be given once and not beside a file. -/
def Options.withSource (o : Options) (text : String) : Option Options :=
  if o.source.isSome || o.file.isSome then none else some { o with source := some text }

/-- The file can be given once and not beside a source text. -/
def Options.withFile (o : Options) (path : String) : Option Options :=
  if o.source.isSome || o.file.isSome then none else some { o with file := some path }

/-- The short options behind one hyphen. The last of them takes what is left, or else the next
argument, as the source text; the flag says whether the next argument is needed. -/
def cluster (o : Options) : List Char → Option (Options × Bool)
  | [] => some (o, false)
  | 'q' :: cs => cluster { o with quiet := true } cs
  | ['e'] => some (o, true)
  | 'e' :: '=' :: cs => (o.withSource (String.ofList cs)).map (·, false)
  | 'e' :: cs => (o.withSource (String.ofList cs)).map (·, false)
  | _ => none

/-- Reads arguments that name files. -/
def files (o : Options) : List String → Option Options
  | [] => some o
  | path :: rest => (o.withFile path).bind (files · rest)

/-- Reads the arguments, if they are well formed. After two hyphens there are no more options. -/
def options (o : Options) : List String → Option Options
  | [] => some o
  | "--" :: rest => files o rest
  | "--quiet" :: rest => options { o with quiet := true } rest
  | "--eval" :: text :: rest =>
    if isOption text then none else (o.withSource text).bind (options · rest)
  | argument :: rest =>
    match argument.toList with
    | '-' :: '-' :: 'e' :: 'v' :: 'a' :: 'l' :: '=' :: cs =>
      (o.withSource (String.ofList cs)).bind (options · rest)
    | '-' :: '-' :: _ => none
    | '-' :: c :: cs =>
      match cluster o (c :: cs), rest with
      | some (o, false), rest => options o rest
      | some (o, true), text :: rest =>
        if isOption text then none else (o.withSource text).bind (options · rest)
      | _, _ => none
    | _ => (o.withFile argument).bind (options · rest)

/-- What the program leaves behind. -/
structure Result where
  output : String
  errors : String
  exitCode : Nat
deriving DecidableEq, Repr, Inhabited

/-- A line without the carriage return before its line feed. -/
def dropReturn (line : List Char) : List Char :=
  if line.getLast? = some '\r' then line.dropLast else line

/-- The lines of a text. Only the last may lack its line feed. -/
def inputLines (text : String) : List String :=
  let pieces := Text.pieces ['\n'] text.toList
  let ended := (pieces.dropLast.map dropReturn)
  let unended := pieces.getLast?.getD []
  (if unended.isEmpty then ended else ended ++ [unended]).map String.ofList

/-- Runs a source text by its name. -/
def runSource (depth : Nat) (source name : String) (quiet : Bool) : Option Result :=
  let (scope, s) := Store.empty.openGlobal
  (run depth source name (!quiet) scope s).map fun (r, s) ↦
    ⟨s.output scope, r.report, r.exitCode⟩

/-- Feeds lines to a session. Values are added to the output, and errors are collected. -/
def converse (depth : Nat) (session : Session) (errors : String) : List String → Option Result
  | [] => some ⟨session.output, errors, session.exitCode⟩
  | line :: rest =>
    match session.feed depth line with
    | none => none
    | some (.value text, next) =>
      converse depth { next with store := next.store.write next.scope (text ++ "\n") } errors rest
    | some (.errors messages, next) =>
      converse depth next (errors ++ lines (messages.map ("\t" ++ ·))) rest
    | some (_, next) => converse depth next errors rest

/-- Runs the lines of a text as a session. -/
def runSession (depth : Nat) (input : String) : Option Result :=
  let (scope, s) := Store.empty.openGlobal
  converse depth (Session.start s scope) "" (inputLines input)

/-- What is reported for a file that cannot be read. -/
def unreadableFile (path : String) : String :=
  "Failed to read the input file '" ++ path ++ "': No such file or directory (os error 2)\n"

/-- Does what the arguments ask for, given the contents of the file they name and the standard
input. -/
def perform (depth : Nat) (o : Options) (contents : Option String) (input : String) :
    Option Result :=
  match o.source, o.file with
  | some source, _ => runSource depth source "<eval>" o.quiet
  | none, some path =>
    match contents with
    | some source => runSource depth source path o.quiet
    | none => some ⟨"", unreadableFile path, 1⟩
  | none, none => runSession depth input

/-- A bound on the depth of evaluation that no run reaches in practice. -/
def ample : Nat := 1000000000000

end Treewalk.CommandLine
