import Lox.Machine
import Lox.Syntax.Parser
import Lox.Token.Lexer

/-!
# Sessions

A session runs one source after the other against the same globals. Each source
goes through all stages: it is cut into tokens, read as a tree, its names are
bound, and only then it runs. The numbers of references go on counting from
source to source, also past one that fails, so a function made by an earlier
source keeps what was found out about its references.

## Implementation notes

A run may go on for ever, so it is given a number of steps; `none` stands for a
run that has not ended by then.
-/

namespace Lox

/-- How deep calls may nest, and how many steps a run may take. -/
structure Limits where
  calls : Nat
  steps : Nat
  deriving Repr

/-- The usual limit on calls, and more steps than can be taken. -/
def Limits.standard : Limits :=
  ⟨Machine.maxCalls, Nat.pow 2 62⟩

namespace State

/-- Run a program without binding its names first. A `return` outside every
function ends it. -/
def interpret (st : State) (limits : Limits) (program : List Stmt) :
    Option (Except RuntimeError Unit × State) :=
  (Machine.run limits.calls limits.steps (Machine.program program) st).map fun
    | (.ok _, st) => (.ok (), st)
    | (.error e, st) => (.error e, st)

/-- Evaluate an expression without binding its names first. -/
def evaluate (st : State) (limits : Limits) (e : Expr) :
    Option (Except RuntimeError Value × State) :=
  Machine.run limits.calls limits.steps (Machine.expression e) st

/-- Add what was found out about references. -/
def learn (st : State) (table : BindingTable) : State :=
  { st with table := st.table.merge table }

end State

/-- A session between two sources: the state, and the number that the next
reference will get. -/
structure Session where
  state : State
  nextId : NodeId

namespace Session

/-- The session before its first source. -/
def fresh : Session :=
  ⟨.initial, 0⟩

/-- Run a program. Nothing of it runs unless every stage before accepts it; a
runtime error stops it where it happens. -/
def run (s : Session) (limits : Limits) (source : String) :
    Option (Except Failure Unit × Session) :=
  match (lex source).toExcept with
  | .error e => some (.error (.ofLexical e), s)
  | .ok tokens =>
      let (parsed, nextId) := parseProgram tokens s.nextId
      match parsed with
      | .error failure => some (.error failure, { s with nextId })
      | .ok program =>
          match resolve program with
          | .error failure => some (.error failure, { s with nextId })
          | .ok table =>
              ((s.state.learn table).interpret limits program).map fun
                | (.ok (), state) => (.ok (), ⟨state, nextId⟩)
                | (.error e, state) => (.error (.ofRuntime e), ⟨state, nextId⟩)

/-- Evaluate a single expression, all of whose names are global. -/
def evaluate (s : Session) (limits : Limits) (source : String) :
    Option (Except Failure Value × Session) :=
  match (lex source).toExcept with
  | .error e => some (.error (.ofLexical e), s)
  | .ok tokens =>
      let (parsed, nextId) := parseExpression tokens s.nextId
      match parsed with
      | .error failure => some (.error failure, { s with nextId })
      | .ok e =>
          (s.state.evaluate limits e).map fun
            | (.ok v, state) => (.ok v, ⟨state, nextId⟩)
            | (.error e, state) => (.error (.ofRuntime e), ⟨state, nextId⟩)

end Session

end Lox
