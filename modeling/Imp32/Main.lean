import Imp32.Command.Line

/-!
# The command line program

The files that a command line may touch are looked at first and make its workspace. Then the
command is worked out on that workspace, and what it changed is written back. No outside command
can be run from here, so none counts as installed, and one that is asked for is not found.
-/

namespace Imp32.Main

open Imp32.Command

def placeText (place : Place) : String :=
  "/" ++ "/".intercalate place

/-- The workspace with what there is at a place. -/
def survey (w : Workspace) (place : Place) : IO Workspace := do
  let withFile (contents : Contents) := { w with files := (place, contents) :: w.files }
  try
    return withFile (.text (← IO.FS.readFile (placeText place)))
  catch
    | .inappropriateType .. => return { w with folders := place :: w.folders }
    | .permissionDenied .. => return { withFile .bytes with unreadable := place :: w.unreadable }
    | .userError _ => return withFile .bytes
    | _ => return w

def wayOf (w : Workspace) (path : Path) : List Place :=
  (List.range (path.names.length + 1)).map fun n =>
    w.reach { path with names := path.names.take n }

/-- The paths that an invocation may touch under these settings. -/
def pathsOf (i : Invocation) (output : String) : List Path :=
  let file := i.file.toList
  let outputs := i.task.output?.toList ++ [output]
  (file ++ outputs).map Path.ofText ++ outputs.filterMap fun o => (Path.ofText o).withSuffix? ".s"

/-- The workspace of an invocation. -/
def workspaceOf (i : Invocation) (here : Place) : IO Workspace := do
  let bare : Workspace := { files := [], folders := [here], here := here }
  let w ← ((Workspace.upward here).map (· ++ [Settings.fileName])).foldlM survey bare
  let output := match w.settings here with
    | .ok s => s.output.text?.getD ""
    | .error _ => ""
  ((pathsOf i output).flatMap (wayOf w)).foldlM survey w

/-- The lines of the standard input. -/
partial def readLines (input : IO.FS.Stream) (text : String) : IO String := do
  let line ← input.getLine
  if line.isEmpty then return text
  readLines input (text ++ line)

/-- The part of the standard input that a command line reads. -/
def readInput (line : Option Line) : IO Contents := do
  try
    match line with
    | some (.perform ⟨.run, none, none⟩ _) => return .text (← (← IO.getStdin).getLine)
    | some (.perform ⟨_, none, none⟩ _) => return .text (← readLines (← IO.getStdin) "")
    | _ => return .text ""
  catch _ => return .bytes

/-- The workspace of what a command line spells. -/
def surveyFor (line : Option Line) (here : Place) : IO Workspace := do
  match line with
  | some (.perform i _) => workspaceOf i here
  | _ => return { files := [], folders := [here], here := here }

/-- More turns than any loop takes that ends in time. -/
def turns : Nat := 1000000000000000000

/-- The exit code of an ending, after what there is left to say. -/
def finish : Ending → IO UInt32
  | .exit code => return code.toUInt32
  | .misuse => do
    IO.eprintln usageLine
    return 2
  | .crash cause => do
    IO.eprintln s!"error: {cause.message}"
    return 1
  | .outOfTurns => do
    IO.eprintln "error: a loop does not end"
    return 1
  | .serving => do
    IO.eprintln "error: no editor can be served from here"
    return 1

end Imp32.Main

open Imp32 Imp32.Command in
/-- Work out a command line. -/
def main (arguments : List String) : IO UInt32 := do
  let here := (Path.ofText (toString (← IO.currentDir))).names
  let line := Line.ofArguments? arguments
  let w ← Imp32.Main.surveyFor line here
  let around : Surroundings :=
    { input := ← Imp32.Main.readInput line
      tools := ⟨[], .missing⟩
      turns := Imp32.Main.turns
      files := .full
      output := .full }
  let (ending, s) := outcome readLine around arguments w
  for (place, contents) in w.changes s.workspace do
    if let .text text := contents then
      IO.FS.writeFile (Imp32.Main.placeText place) text
  IO.print s.output
  IO.eprint s.messages
  Imp32.Main.finish ending
