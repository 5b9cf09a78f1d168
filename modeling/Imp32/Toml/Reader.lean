import Imp32.Text.Lines
import Imp32.Toml.Scalar

/-!
# Reading TOML documents

A document is a sequence of lines, each empty, a heading or an assignment, and each maybe with a
comment. Arrays may go over several lines and inline tables may not. Every step takes a character
at least, so the characters serve to count the steps and to bound the nesting of values.
-/

namespace Imp32.Toml

/-- Pass a comment, up to the end of its line. -/
def comment : Reader Unit := do
  if (← Reader.peek) = some '#' then
    let text := (← get).takeWhile (· ≠ '\n')
    if text.any (isForbidden false) then Reader.malformed
    Reader.pass text.length

/-- Pass blanks, line feeds and comments. The list counts the steps. -/
def blanksAndComments : (count : List Char) → Reader Unit
  | [] => return ()
  | _ :: count => do
    Reader.skip isSpaceOrNewline
    if (← Reader.peek) = some '#' then
      comment
      blanksAndComments count

/-! ## Keys -/

/-- A character of a name without quotes. -/
def isBareKeyChar (c : Char) : Bool :=
  c.isAlphanum || c = '-' || c = '_'

/-- A name, in quotes or without. -/
def keyPart : Reader String := do
  match ← Reader.peek with
  | none => Reader.malformed
  | some c =>
    if isBareKeyChar c then
      let name := (← get).takeWhile isBareKeyChar
      Reader.pass name.length
      return String.ofList name
    else if c = '"' || c = '\'' then
      Reader.pass 1
      return String.ofList (← lineString c)
    else Reader.malformed

/-- The names behind the first, each behind a point. The list counts the names. -/
def keyRest : (count : List Char) → (done : Key) → Reader Key
  | [], done => return done.reverse
  | _ :: count, done => do
    Reader.skip isSpace
    if ← Reader.passIf ['.'] then
      Reader.skip isSpace
      let part ← keyPart
      keyRest count (part :: done)
    else return done.reverse

def key : Reader Key := do
  let part ← keyPart
  keyRest (← get) [part]

/-- A path, an equals sign and a value. -/
def assignment (value : Reader Value) : Reader (Key × Value) := do
  let k ← key
  Reader.expect ['=']
  Reader.skip isSpace
  let v ← value
  return (k, v)

/-! ## Values -/

/-- The items of an array up to its end, behind those that have been read, last first. -/
def arrayItems (value : Reader Value) :
    (count : List Char) → (done : List Value) → Reader (List Value)
  | [], _ => Reader.malformed
  | _ :: count, done => do
    blanksAndComments (← get)
    if ← Reader.passIf [']'] then return done.reverse
    let v ← value
    blanksAndComments (← get)
    if ← Reader.passIf [','] then arrayItems value count (v :: done)
    else
      Reader.expect [']']
      return (v :: done).reverse

/-- The assignments of an inline table up to its end, behind those that have been read. A value
that was written in one piece is closed. -/
def inlineEntries (value : Reader Value) :
    (count : List Char) → (closed : List Key) → (done : Table) → Reader Table
  | [], _, _ => Reader.malformed
  | _ :: count, closed, done => do
    let (k, v) ← assignment value
    if leadsTo closed k then Reader.malformed
    let done ← match done.modifyAt false (Table.putNew (k.getLast?.getD "") v) k.dropLast with
      | .ok t => pure t
      | .error e => throw e
    Reader.skip isSpace
    if ← Reader.passIf ['}'] then return done
    Reader.expect [',']
    Reader.skip isSpace
    inlineEntries value count (if v.isCompound then k :: closed else closed) done

/-- A value, nested at most as deep as the list is long. -/
def value : (count : List Char) → Reader Value
  | [] => Reader.malformed
  | _ :: count => do
    if ← Reader.passIf ['"', '"', '"'] then return .string (String.ofList (← blockString '"'))
    if ← Reader.passIf ['"'] then return .string (String.ofList (← lineString '"'))
    if ← Reader.passIf ['\'', '\'', '\''] then
      return .string (String.ofList (← blockString '\''))
    if ← Reader.passIf ['\''] then return .string (String.ofList (← lineString '\''))
    if ← Reader.passIf ['t', 'r', 'u', 'e'] then return .boolean true
    if ← Reader.passIf ['f', 'a', 'l', 's', 'e'] then return .boolean false
    if ← Reader.passIf ['['] then return .array (← arrayItems (value count) (← get) [])
    if ← Reader.passIf ['{'] then
      Reader.skip isSpace
      if ← Reader.passIf ['}'] then return .table []
      return .table (← inlineEntries (value count) (← get) [] [])
    dateOrNumber

/-! ## Documents -/

def change (x : Except Error Draft) : Reader Draft :=
  match x with
  | .ok d => return d
  | .error e => throw e

/-- A heading. -/
def heading (d : Draft) : Reader Draft := do
  let d := d.settle
  if ← Reader.passIf ['[', '['] then
    Reader.skip isSpace
    let k ← key
    let d ← change (d.openItem k)
    Reader.expect [']', ']']
    return d
  else
    Reader.pass 1
    Reader.skip isSpace
    let k ← key
    let d ← change (d.openTable k)
    Reader.expect [']']
    return d

/-- The statement of a line that is not empty. A comment alone is one. -/
def statement (d : Draft) : Reader Draft := do
  match ← Reader.peek with
  | some '[' => heading d
  | some '#' => return d
  | _ =>
    let (k, v) ← assignment (value (← get))
    change (d.assign k v)

/-- The lines of a document. The list counts them. -/
def lines : (count : List Char) → Draft → Reader Draft
  | [], d => return d
  | _ :: count, d => do
    Reader.skip isSpace
    match ← Reader.peek with
    | none => return d
    | some '\n' =>
      Reader.pass 1
      lines count d
    | some _ =>
      let d ← statement d
      Reader.skip isSpace
      comment
      match ← Reader.peek with
      | none => return d
      | some '\n' =>
        Reader.pass 1
        lines count d
      | some _ => Reader.malformed

/-- The pairs of a carriage return and a line feed as line feeds. -/
def joinLineEnds : List Char → List Char
  | '\r' :: '\n' :: rest => '\n' :: joinLineEnds rest
  | c :: rest => c :: joinLineEnds rest
  | [] => []

/-- The document that a text spells. -/
def parse (text : String) : Except Error Table :=
  let cs := joinLineEnds text.toList
  match lines cs .empty cs with
  | .ok d _ => .ok d.root
  | .error e _ => .error e

end Imp32.Toml
