import Lox.Session
import Lox.Syntax.Render
import Lox.Text.Quoted
import Lox.Token.Json
import Lox.Utf8

/-!
# The command line

What the commands answer. Five of them take a source file through one more
stage each, from listing its tokens to running it; the sixth runs standard input line
by line in one session. An answer is the text on the two output channels and an
exit status; only reading files and printing answers is left to the program
itself.
-/

namespace Lox

/-- What a program prints, and the status it exits with. -/
structure Answer where
  stdout : String
  stderr : String
  exit : Nat
  deriving Repr, DecidableEq

namespace Answer

/-- The answer of success. -/
def ofOutput (stdout : String) : Answer :=
  ⟨stdout, "", 0⟩

/-- The answer that ends in a failure, after some output. -/
def ofFailure (failure : Failure) (stdout : String) : Answer :=
  ⟨stdout, failure.message ++ "\n", failure.exitCode⟩

end Answer

/-! ## Commands on a source -/

/-- What is done with a source file. -/
inductive SourceCommand where
  | tokenize (json : Bool)
  | parse
  | resolve
  | evaluate
  | run
  deriving Repr, DecidableEq

/-- Lines that each end in a newline. -/
def lines (items : List String) : String :=
  String.join (items.map (· ++ "\n"))

/-- An entry of a binding table as a line of text. -/
def describeBinding (entry : NodeId × Binding) : String :=
  s!"#{entry.1} {entry.2.name} (line {entry.2.line}) -> {entry.2.depth}"

/-- The answer to a value or a failure, given what has been printed. -/
def Answer.ofResult {α : Type} (result : Except Failure α) (stdout : α → String) : Answer :=
  match result with
  | .ok a => .ofOutput (stdout a)
  | .error failure => .ofFailure failure ""

/-- The tokens of a source, or the fault. -/
def tokensOf (source : String) : Except Failure (List Token) :=
  (lex source).toExcept.mapError .ofLexical

/-- The program that a source is. -/
def programOf (source : String) : Except Failure (List Stmt) := do
  (parseProgram (← tokensOf source) 0).1

/-- The expression that a source is. -/
def expressionOf (source : String) : Except Failure Expr := do
  (parseExpression (← tokensOf source) 0).1

namespace SourceCommand

/-- The answer of a command, unless running takes too many steps. Tokens are
printed up to the fault that ends them. -/
def answer (limits : Limits) (source : String) : SourceCommand → Option Answer
  | tokenize false =>
      let l := lex source
      let listing := lines (l.tokens.map Token.text)
      some <| match l.fault? with
        | none => .ofOutput listing
        | some e => .ofFailure (.ofLexical e) listing
  | tokenize true => some (.ofResult (tokensOf source) fun ts => Json.tokens ts ++ "\n")
  | parse => some (.ofResult (programOf source) fun p => renderProgram p ++ "\n")
  | resolve =>
      some (.ofResult (programOf source >>= Lox.resolve) fun table =>
        lines (table.toList.map describeBinding))
  | evaluate =>
      match expressionOf source with
      | .error failure => some (.ofFailure failure "")
      | .ok e =>
          (State.initial.evaluate limits e).map fun
            | (.ok v, st) => .ofOutput (st.output ++ st.store.display v ++ "\n")
            | (.error e, st) => .ofFailure (.ofRuntime e) st.output
  | run =>
      (Session.fresh.run limits source).map fun
        | (.ok (), s) => .ofOutput s.state.output
        | (.error failure, s) => .ofFailure failure s.state.output

end SourceCommand

/-! ## The interactive loop -/

namespace Repl

/-- What is printed before a line is read. -/
def prompt : String := "> "

/-- The lines of a text, each with the newline that ends it. -/
def splitLines (text : List Char) : List (List Char) :=
  match text with
  | [] => []
  | c :: cs =>
      if c = '\n' then [c] :: splitLines cs
      else match splitLines cs with
        | [] => [[c]]
        | line :: rest => (c :: line) :: rest

/-- Take out of a session what it has printed. -/
def drain (s : Session) : String × Session :=
  (s.state.output, { s with state := { s.state with output := "" } })

/-- Run one line: what is printed on either channel, and the session after it. -/
def answerLine (limits : Limits) (s : Session) (line : String) :
    Option (String × String × Session) :=
  (s.run limits line).map fun (result, s) =>
    let (printed, s) := drain s
    match result with
    | .ok () => (printed, "", s)
    | .error failure => (printed, failure.message ++ "\n", s)

/-- Run lines in a session, after some output. A newline follows the last
prompt. -/
def answerLines (limits : Limits) : Session → List String → Answer → Option Answer
  | _, [], sofar => some { sofar with stdout := sofar.stdout ++ prompt ++ "\n" }
  | s, line :: rest, sofar =>
      match answerLine limits s line with
      | none => none
      | some (out, err, s) =>
          answerLines limits s rest
            { sofar with stdout := sofar.stdout ++ prompt ++ out, stderr := sofar.stderr ++ err }

/-- The answer to a whole input. -/
def answer (limits : Limits) (input : String) : Option Answer :=
  answerLines limits .fresh ((splitLines input.toList).map String.ofList) (.ofOutput "")

end Repl

/-! ## Arguments and files -/

/-- A command with its file. -/
inductive Command where
  | source (command : SourceCommand) (path : String)
  | repl
  deriving Repr, DecidableEq

/-- A command, and the log file to create before it, if any. -/
structure Invocation where
  command : Command
  log? : Option String
  deriving Repr, DecidableEq

/-- What arguments have said so far. -/
structure Arguments where
  log : Bool
  logFile : String
  json : Bool
  words : List String

namespace Arguments

/-- Before any argument; the log file has a name even if none is given. -/
def start : Arguments := ⟨false, "app.log", false, []⟩

/-- Sort arguments into flags and words, unless one of them is unknown. -/
def read : List String → Arguments → Option Arguments
  | [], a => some { a with words := a.words.reverse }
  | "--log" :: rest, a => read rest { a with log := true }
  | "--log-file" :: path :: rest, a => read rest { a with logFile := path }
  | "--json" :: rest, a => read rest { a with json := true }
  | word :: rest, a =>
      if word.startsWith "--log-file=" then
        read rest { a with logFile := (word.drop "--log-file=".length).toString }
      else if word.startsWith "-" then none
      else read rest { a with words := word :: a.words }

/-- The command that the words are. -/
def command? (a : Arguments) : Option Command :=
  match a.words with
  | ["tokenize", path] => some (.source (.tokenize a.json) path)
  | ["parse", path] => unflagged (.source .parse path)
  | ["resolve", path] => unflagged (.source .resolve path)
  | ["evaluate", path] => unflagged (.source .evaluate path)
  | ["run", path] => unflagged (.source .run path)
  | ["repl"] => unflagged .repl
  | _ => none
where
  unflagged (c : Command) : Option Command := if a.json then none else some c

end Arguments

/-- Read arguments as an invocation, if they are one. -/
def Invocation.ofArguments (arguments : List String) : Option Invocation := do
  let a ← Arguments.read arguments .start
  let command ← a.command?
  return ⟨command, if a.log then some a.logFile else none⟩

/-- What can be wrong with a file. -/
inductive FileTrouble where
  | cannotOpen (path : String) (reason : String)
  | cannotCreateLog (path : String) (reason : String)
  | notText (path : String) (error : Utf8.DecodeError)
  deriving Repr, DecidableEq

namespace FileTrouble

/-- The reason of a path that leads nowhere. -/
def notFound : String := "No such file or directory (os error 2)"

/-- What was being done. -/
def context : FileTrouble → String
  | cannotOpen path _ => s!"Failed to open file {Text.quoted path}"
  | cannotCreateLog path _ => s!"Failed to create log file {Text.quoted path}"
  | notText path _ => s!"{Text.quoted path} is not valid UTF-8"

/-- What went wrong. -/
def cause : FileTrouble → String
  | cannotOpen _ reason => reason
  | cannotCreateLog _ reason => reason
  | notText _ error => error.message

/-- The answer of a command that could not begin. -/
def answer (t : FileTrouble) : Answer :=
  ⟨"", s!"Error: {t.context}\n\nCaused by:\n    {t.cause}\n", 1⟩

end FileTrouble

/-- What a command finds when it starts: what creating the log file and reading
a file lead to, and standard input. -/
structure Surroundings where
  createLog : String → Except String Unit
  contents : String → Except String (List UInt8)
  input : String

namespace Invocation

/-- The text of a source file. -/
def sourceText (world : Surroundings) (path : String) : Except FileTrouble String :=
  match world.contents path with
  | .error reason => .error (.cannotOpen path reason)
  | .ok bytes => (Utf8.decode bytes).mapError (.notText path)

/-- Create the log file if there is to be one. -/
def prepareLog (i : Invocation) (world : Surroundings) : Except FileTrouble Unit :=
  match i.log? with
  | none => .ok ()
  | some path => (world.createLog path).mapError (.cannotCreateLog path)

/-- The answer of an invocation, unless running takes too many steps. The log
file is created before the source is read. -/
def answer (i : Invocation) (limits : Limits) (world : Surroundings) : Option Answer :=
  match i.prepareLog world with
  | .error trouble => some trouble.answer
  | .ok () =>
      match i.command with
      | .repl => Repl.answer limits world.input
      | .source command path =>
          match sourceText world path with
          | .error trouble => some trouble.answer
          | .ok source => command.answer limits source

end Invocation

end Lox
