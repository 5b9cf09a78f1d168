/-!
# Files and folders

A workspace is a tree of files with a folder that work is done in. A place is the list of names on
the way from the root. A path is what a user writes for a place; it is shown without empty names
and without single points. Walking along a path needs a folder at every step, and two points go
back to the folder above. A file holds a text or bytes that are none, and a place may be closed to
reading or to writing.
-/

namespace Imp32

/-- The names on the way from the root. -/
abbrev Place := List String

/-- A place as it is written, from the root or from the folder that work is done in. -/
structure Path where
  /-- The slashes in front of a path from the root. -/
  root : String
  names : List String
  deriving DecidableEq, Repr

namespace Path

/-- The slashes that count in front of a path: two are kept and more than two are one. -/
def rootOf : List Char → String
  | '/' :: '/' :: '/' :: _ => "/"
  | '/' :: '/' :: _ => "//"
  | '/' :: _ => "/"
  | _ => ""

/-- The texts between slashes. -/
def splitAtSlashes : List Char → List (List Char)
  | [] => [[]]
  | c :: cs =>
    if c = '/' then [] :: splitAtSlashes cs
    else
      match splitAtSlashes cs with
      | [] => [[c]]
      | name :: names => (c :: name) :: names

/-- The names that a text spells, the empty ones among them. -/
def namesOf (text : String) : List String :=
  (splitAtSlashes text.toList).map String.ofList

/-- The path that a text spells. -/
def ofText (text : String) : Path :=
  ⟨rootOf text.toList, (namesOf text).filter fun name => name ≠ "" && name ≠ "."⟩

def text (path : Path) : String :=
  if path.root = "" ∧ path.names = [] then "." else path.root ++ "/".intercalate path.names

def isAbsolute (path : Path) : Bool :=
  path.root ≠ ""

/-- The path with more text behind its last name, if it has one. -/
def withSuffix? (path : Path) (suffix : String) : Option Path :=
  path.names.getLast?.map fun name =>
    { path with names := path.names.dropLast ++ [name ++ suffix] }

theorem intercalate_concat_append (sep : String) (xs : List String) (a b : String) :
    sep.intercalate (xs ++ [a ++ b]) = sep.intercalate (xs ++ [a]) ++ b := by
  induction xs with
  | nil => rw [List.nil_append, List.nil_append, String.intercalate_singleton,
      String.intercalate_singleton]
  | cons x xs ih =>
    rw [List.cons_append, List.cons_append, String.intercalate_cons_of_ne_nil (by simp),
      String.intercalate_cons_of_ne_nil (by simp), ih, String.append_assoc, String.append_assoc,
      String.append_assoc]

/-- The path is shown with the text behind it. -/
theorem text_of_withSuffix? {path path' : Path} {suffix : String}
    (h : path.withSuffix? suffix = some path') : path'.text = path.text ++ suffix := by
  obtain ⟨name, hname, rfl⟩ := Option.map_eq_some_iff.1 h
  obtain ⟨names, hnames⟩ := List.getLast?_eq_some_iff.1 hname
  unfold text
  dsimp only
  rw [hnames, List.dropLast_concat, if_neg (by simp), if_neg (by simp), intercalate_concat_append,
    String.append_assoc]

end Path

/-- What a file holds. -/
inductive Contents where
  | text (text : String)
  /-- Bytes that are no text. -/
  | bytes
  deriving DecidableEq, Repr

/-- What there is at a place. -/
inductive Entry where
  | file (contents : Contents)
  | folder
  deriving DecidableEq, Repr

/-- Why a file cannot be read or written. -/
inductive FileError where
  /-- There is nothing at the place, or no folder for it. -/
  | missing
  /-- There is a folder at the place. -/
  | isFolder
  /-- The path goes through a file. -/
  | notFolder
  /-- The place is closed. -/
  | denied
  /-- The file holds bytes that are no text. -/
  | notText
  /-- The path or a name in it is longer than any path or name. -/
  | tooLong
  /-- The path holds the character that no path holds. -/
  | nullCharacter
  deriving DecidableEq, Repr

def FileError.message : FileError → String
  | missing => "no such file or folder"
  | isFolder => "there is a folder in place of a file"
  | notFolder => "there is a file in place of a folder"
  | denied => "permission denied"
  | notText => "there are bytes that are no text"
  | tooLong => "the name is too long"
  | nullCharacter => "the name holds a null character"

def Contents.read : Contents → Except FileError String
  | text s => .ok s
  | bytes => .error .notText

/-- Files in folders, without links between them. A folder is there if it is listed or leads to a file or folder. -/
structure Workspace where
  files : List (Place × Contents)
  folders : List Place
  /-- The folder that work is done in. -/
  here : Place
  /-- The places that may not be read. -/
  unreadable : List Place := []
  /-- The places that may not be written, whether or not there is a file. -/
  unwritable : List Place := []
  deriving Repr

namespace Workspace

def contents? (w : Workspace) (place : Place) : Option Contents :=
  (w.files.find? fun file => file.1 = place).map Prod.snd

/-- Whether there is a folder at a place that is not a file. -/
def leadsOn (w : Workspace) (place : Place) : Bool :=
  place = [] || w.folders.any place.isPrefixOf || w.files.any fun file => place.isPrefixOf file.1

def entry? (w : Workspace) (place : Place) : Option Entry :=
  match w.contents? place with
  | some contents => some (.file contents)
  | none => if w.leadsOn place then some .folder else none

def maxNameBytes : Nat := 255

def maxPathBytes : Nat := 4095

def isLongName (name : String) : Bool :=
  maxNameBytes < name.utf8ByteSize

/-- Whether a text holds the character that no path holds. -/
def hasNull (text : String) : Bool :=
  text.toList.contains '\x00'

/-- Go from a place to a name in it. -/
def step (w : Workspace) (place : Place) (name : String) : Except FileError Place :=
  match w.entry? place with
  | none => .error .missing
  | some (.file _) => .error .notFolder
  | some .folder =>
    if name = "" ∨ name = "." then .ok place
    else if name = ".." then .ok place.dropLast
    else if isLongName name then .error .tooLong
    else .ok (place ++ [name])

/-- The place behind names, beginning at the root or here. -/
def walk (w : Workspace) (absolute : Bool) (names : List String) : Except FileError Place :=
  names.foldlM w.step (if absolute then [] else w.here)

def place (w : Workspace) (path : Path) : Except FileError Place :=
  if hasNull path.text then .error .nullCharacter
  else if maxPathBytes < path.text.utf8ByteSize then .error .tooLong
  else w.walk path.isAbsolute path.names

/-- The text of the file at a place. -/
def readAt (w : Workspace) (place : Place) : Except FileError String :=
  match w.entry? place with
  | none => .error .missing
  | some .folder => .error .isFolder
  | some (.file contents) =>
    if w.unreadable.contains place then .error .denied else contents.read

def read (w : Workspace) (path : Path) : Except FileError String := do
  w.readAt (← w.place path)

def put (w : Workspace) (place : Place) (text : String) : Workspace :=
  { w with files := (place, .text text) :: w.files.filter fun file => file.1 ≠ place }

/-- Only the last text at a place is left. -/
@[simp] theorem put_put (w : Workspace) (place : Place) (a b : String) :
    (w.put place a).put place b = w.put place b := by
  unfold put
  rw [List.filter_cons_of_neg (by simp), List.filter_filter]
  simp only [Bool.and_self]

/-- The place of a path that a file can be written at, in place of the one that is there or as a new
one in a folder that is there. -/
def writable (w : Workspace) (path : Path) : Except FileError Place := do
  let place ← w.place path
  if w.entry? place = some .folder then throw .isFolder
  if w.unwritable.contains place then throw .denied
  return place

/-- The files that are new or hold something new. -/
def changes (before after : Workspace) : List (Place × Contents) :=
  after.files.filter fun file => before.contents? file.1 ≠ some file.2

/-- Where a path leads by its names alone, whether or not there is anything. -/
def reach (w : Workspace) (path : Path) : Place :=
  path.names.foldl (fun place name => if name = ".." then place.dropLast else place ++ [name])
    (if path.isAbsolute then [] else w.here)

/-- The folders from a place up to the root. -/
def upward (place : Place) : List Place :=
  (List.range (place.length + 1)).reverse.map place.take

end Workspace

end Imp32
