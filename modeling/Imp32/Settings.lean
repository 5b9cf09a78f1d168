import Imp32.Assembly.Compile
import Imp32.Program.Parser
import Imp32.Toml.Reader
import Imp32.Toml.Text
import Imp32.Workspace

/-!
# Settings

The settings of a folder are in the nearest `climb.toml` on the way up to the root. A value stands
as it was written, whatever its kind; whoever needs it as a text, a number or a switch takes it as
one here.
-/

namespace Imp32

namespace Toml.Value

/-- Whether a value counts as switched on: nothing, zero and what is empty do not. -/
def isOn : Value → Bool
  | string text => text ≠ ""
  | integer n => n ≠ 0
  | float x => !x.isZero
  | boolean b => b
  | date _ | time _ | dateTime _ _ _ => true
  | array items => !items.isEmpty
  | table entries => !entries.isEmpty

/-- The greatest number of levels that is within a value, if that is a number. A truth value counts
as 1 or 0. A number that nothing exceeds is replaced by `most`. -/
def levels? (most : Nat) : Value → Option Int
  | integer n => some n
  | boolean b => some (if b then 1 else 0)
  | float (.infinite true) => some 0
  | float x => some (x.floor?.getD most)
  | _ => none

end Toml.Value

/-- What can be set, each as it was written. -/
structure Settings where
  target : Toml.Value
  entry : Toml.Value
  output : Toml.Value
  assembler : Toml.Value
  limit : Toml.Value
  color : Toml.Value

/-- Why settings cannot be taken from a text. -/
inductive SettingsError where
  | unreadable (e : Toml.Error)
  /-- A section is a value of another kind. -/
  | notTable (name : String)
  deriving DecidableEq, Repr

namespace Settings

/-- The entries of a section. One that is not there has none. -/
def section? (t : Toml.Table) (name : String) : Except SettingsError Toml.Table :=
  match t.get? name with
  | none => .ok []
  | some (.table entries) => .ok entries
  | some _ => .error (.notTable name)

/-- The settings where none are made. -/
def default : Settings where
  target := .string defaultTarget
  entry := .string defaultEntry
  output := .string "a.out"
  assembler := .string ""
  limit := .integer defaultLimit
  color := .boolean true

/-- The settings in a table. What is not set has its default. -/
def ofTable (t : Toml.Table) : Except SettingsError Settings := do
  let build ← section? t "build"
  let parser ← section? t "parser"
  let diagnostics ← section? t "diagnostics"
  return {
    target := (build.get? "target").getD default.target
    entry := (build.get? "entry").getD default.entry
    output := (build.get? "output").getD default.output
    assembler := (build.get? "assembler").getD default.assembler
    limit := (parser.get? "max_depth").getD default.limit
    color := (diagnostics.get? "color").getD default.color }

def ofText (text : String) : Except SettingsError Settings :=
  match Toml.parse text with
  | .ok t => ofTable t
  | .error e => .error (.unreadable e)

/-- What is shown of an error. The limit reads as it is set. -/
def fault? (s : Settings) : Failure → Option Fault
  | .parse (.nestingTooDeep token limit) =>
    some (Fault.nestingTooDeep token (s.limit.text?.getD (toString limit)))
  | e => e.fault?

def fileName : String := "climb.toml"

def missingMessage : String :=
  s!"No {fileName} found in any parent directory"

end Settings

def SettingsError.message : SettingsError → String
  | unreadable _ => s!"{Settings.fileName} cannot be read"
  | notTable name => s!"{name} in {Settings.fileName} is not a table"

namespace Workspace

/-- The nearest place of settings, from a place up to the root. -/
def settingsPlace? (w : Workspace) (start : Place) : Option Place :=
  let folder := if (w.contents? start).isSome then start.dropLast else start
  ((upward folder).map (· ++ [Settings.fileName])).find? fun place => (w.entry? place).isSome

/-- Why the settings of a place cannot be had. -/
inductive DiscoveryError where
  | file (e : FileError)
  | settings (e : SettingsError)
  deriving DecidableEq, Repr

def DiscoveryError.message : DiscoveryError → String
  | file e => s!"{Settings.fileName}: {e.message}"
  | settings e => e.message

/-- Why there can be no place with these names. -/
def placeError? (place : Place) : Option FileError :=
  if place.any hasNull then some .nullCharacter
  else if place.any isLongName then some .tooLong
  else none

/-- The settings of a place, which are the defaults where none are made. -/
def settings (w : Workspace) (start : Place) : Except DiscoveryError Settings := do
  if let some e := placeError? start then throw (.file e)
  match w.settingsPlace? start with
  | none => .ok .default
  | some place =>
    match w.readAt place with
    | .error e => .error (.file e)
    | .ok text => (Settings.ofText text).mapError .settings

end Workspace

end Imp32
