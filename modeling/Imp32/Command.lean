/-!
# Commands

A command is a task that is done with a program. The program comes from a file, from the command
line itself or from the standard input.
-/

namespace Imp32.Command

/-- What is done with a program. -/
inductive Task where
  | run
  | compile (output target entry : Option String)
  | build (output target entry : Option String)
  | check
  /-- Lay the program out anew, or only say whether that would change it. -/
  | format (onlyCheck : Bool)
  | view (tokens : Bool)
  deriving DecidableEq, Repr

/-- The path that code is written to on request. -/
def Task.output? : Task → Option String
  | .compile output _ _ | .build output _ _ => output
  | _ => none

/-- A task and where its program comes from. A file counts before an argument. -/
structure Invocation where
  task : Task
  file : Option String
  argument : Option String
  deriving DecidableEq, Repr

end Imp32.Command
