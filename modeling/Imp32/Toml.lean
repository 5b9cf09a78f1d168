import Imp32.Binary64
import Imp32.Bindings
import Imp32.Calendar

/-!
# TOML documents

A document is a table of values by name; a value may be a table again, or an array. A document is
built from its statements in order: a heading opens a table, or adds one to an array of tables, and
an assignment puts a value at a path below the open table. `Draft` is a document under
construction. It remembers which tables have been written out already, and so may not be opened or
extended again, and which values are closed because they were written in one piece.
-/

namespace Imp32.Toml

/-- A value. -/
inductive Value where
  | string (text : String)
  | integer (n : Int)
  | float (x : Binary64)
  | boolean (b : Bool)
  | date (d : Date)
  | time (t : TimeOfDay)
  /-- A date with a time of day, and maybe with an offset from universal time in minutes. -/
  | dateTime (d : Date) (t : TimeOfDay) (offset : Option Int)
  | array (items : List Value)
  | table (entries : List (String × Value))
  deriving Inhabited, Repr

abbrev Table := Bindings Value

/-- Why a text is not a document. -/
inductive Error where
  /-- The text breaks a rule of the format. -/
  | malformed
  /-- An integer has more digits than the number reader takes. -/
  | digitLimit (digits : Nat)
  deriving DecidableEq, Repr

abbrev Key := List String

namespace Table

/-- Change the table behind a path; the tables on the path are made if there are none. A path
through an array goes to its last item, if it may go through arrays at all. -/
def modifyAt (throughArrays : Bool) (f : Table → Except Error Table) :
    Key → Table → Except Error Table
  | [], t => f t
  | name :: key, t =>
    match t.get? name with
    | none => do
      let inner ← modifyAt throughArrays f key []
      return t.set name (.table inner)
    | some (.table inner) => do
      let inner ← modifyAt throughArrays f key inner
      return t.set name (.table inner)
    | some (.array items) =>
      match throughArrays, items.getLast? with
      | true, some (.table inner) => do
        let inner ← modifyAt throughArrays f key inner
        return t.set name (.array (items.dropLast ++ [.table inner]))
      | _, _ => .error .malformed
    | some _ => .error .malformed

def putNew (name : String) (v : Value) (t : Table) : Except Error Table :=
  if t.has name then .error .malformed else .ok (t.set name v)

/-- Add an empty table to an array of tables, which is made if there is none. -/
def appendTable (name : String) (t : Table) : Except Error Table :=
  match t.get? name with
  | none => .ok (t.set name (.array [.table []]))
  | some (.array items) => .ok (t.set name (.array (items ++ [.table []])))
  | some _ => .error .malformed

end Table

/-- Whether a value was written in one piece. -/
def Value.isCompound : Value → Bool
  | .array _ | .table _ => true
  | _ => false

/-- Whether one of the paths is this one or leads to it. -/
def leadsTo (keys : List Key) (key : Key) : Bool :=
  keys.any fun k => k.isPrefixOf key

/-- A document under construction. -/
structure Draft where
  root : Table
  /-- The open table. -/
  heading : Key
  /-- Tables that have been written out. -/
  written : List Key
  /-- Tables that are going to count as written out when the next heading comes. -/
  pending : List Key
  /-- Values that were written in one piece. -/
  closed : List Key

namespace Draft

/-- Nothing has been read. -/
def empty : Draft := ⟨[], [], [], [], []⟩

/-- Count the pending tables as written out. -/
def settle (d : Draft) : Draft :=
  { d with written := d.pending ++ d.written, pending := [] }

def openTable (key : Key) (d : Draft) : Except Error Draft := do
  if d.written.contains key || leadsTo d.closed key then throw .malformed
  let root ← d.root.modifyAt true .ok key
  return { d with root := root, heading := key, written := key :: d.written }

/-- Open a new table of an array. What was written out below the last one does not count here. -/
def openItem (key : Key) (d : Draft) : Except Error Draft := do
  if leadsTo d.closed key then throw .malformed
  let root ← d.root.modifyAt true (Table.appendTable (key.getLast?.getD "")) key.dropLast
  let below (k : Key) := key.isPrefixOf k
  return { d with
    root := root
    heading := key
    written := key :: d.written.filter (!below ·)
    closed := d.closed.filter (!below ·) }

/-- The paths that begin a path, without the whole of it. -/
def properPrefixes (key : Key) : List Key :=
  (List.range key.length).tail.map fun n => key.take n

/-- Put a value at a path below the open table. The tables on the path may not have been written
out. -/
def assign (key : Key) (v : Value) (d : Draft) : Except Error Draft := do
  let onPath := (properPrefixes key).map (d.heading ++ ·)
  if onPath.any d.written.contains then throw .malformed
  let parent := d.heading ++ key.dropLast
  if leadsTo d.closed parent then throw .malformed
  let root ← d.root.modifyAt true (Table.putNew (key.getLast?.getD "") v) parent
  return { d with
    root := root
    pending := onPath ++ d.pending
    closed := if v.isCompound then (d.heading ++ key) :: d.closed else d.closed }

end Draft

end Imp32.Toml
