import Lox.Command

/-!
# The program

Reads the arguments, the files that they name and standard input, and prints
the answer of the command.
-/

namespace Lox.Main

/-- The reason that a failed file operation is reported with. -/
def reason : IO.Error → String
  | .noFileOrDirectory .. => FileTrouble.notFound
  | e => toString e

/-- The result of a file operation. -/
def attempt {α : Type} (action : IO α) : IO (Except String α) := do
  match ← action.toBaseIO with
  | .ok a => return .ok a
  | .error e => return .error (reason e)

/-- Print an answer and exit with its status. -/
def deliver (answer : Option Answer) : IO UInt32 := do
  match answer with
  | none => return 70
  | some a =>
      IO.print a.stdout
      (← IO.getStdout).flush
      IO.eprint a.stderr
      return UInt32.ofNat a.exit

/-- Run lines as they are read, until there are no more. -/
partial def interact (s : Session) : IO UInt32 := do
  IO.print Repl.prompt
  (← IO.getStdout).flush
  let line ← (← IO.getStdin).getLine
  if line.isEmpty then
    IO.println ""
    return 0
  match Repl.answerLine .standard s line with
  | none => return 70
  | some (out, err, s) =>
      IO.print out
      IO.eprint err
      interact s

/-- Carry out an invocation. -/
def carryOut (i : Invocation) : IO UInt32 := do
  let created ← match i.log? with
    | some path => attempt (IO.FS.writeFile path "")
    | none => pure (.ok ())
  let read ← match i.command with
    | .source _ path => attempt (IO.FS.readBinFile path)
    | .repl => pure (.ok .empty)
  let world : Surroundings :=
    { createLog := fun _ => created
      contents := fun _ => read.map fun bytes => bytes.data.toList
      input := "" }
  match i.command, i.prepareLog world with
  | .repl, .ok () => interact .fresh
  | _, _ => deliver (i.answer .standard world)

end Lox.Main

/-- Carry out the command that the arguments name. -/
def main (arguments : List String) : IO UInt32 := do
  match Lox.Invocation.ofArguments arguments with
  | some i => Lox.Main.carryOut i
  | none =>
      IO.eprintln "usage: lox [--log] [--log-file PATH] COMMAND [--json] [FILE]"
      return 2
