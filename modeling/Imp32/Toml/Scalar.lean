import Imp32.Text.Decimal
import Imp32.Toml

/-!
# TOML scalars

Strings between single quotes are taken as they are; between double quotes, escapes stand for
characters. Three quotes enclose a string of several lines. Numbers may have single underscores
between digits. Dates have to exist.
-/

namespace Imp32.Toml

abbrev Reader := EStateM Error (List Char)

namespace Reader

def malformed {α : Type} : Reader α :=
  throw .malformed

def peek : Reader (Option Char) := do
  return (← get).head?

def pass (n : Nat) : Reader Unit :=
  modify (·.drop n)

def skip (p : Char → Bool) : Reader Unit :=
  modify (·.dropWhile p)

def sees (text : List Char) : Reader Bool := do
  return text.isPrefixOf (← get)

/-- Pass this if it comes next, and say whether it does. -/
def passIf (text : List Char) : Reader Bool := do
  if ← sees text then
    pass text.length
    return true
  else return false

/-- Pass this, which has to come next. -/
def expect (text : List Char) : Reader Unit := do
  if !(← passIf text) then malformed

end Reader

def isSpace (c : Char) : Bool :=
  c = ' ' || c = '\t'

/-- A space, a tab or a line feed. -/
def isSpaceOrNewline (c : Char) : Bool :=
  isSpace c || c = '\n'

/-- A control character that no comment or string may hold. Strings of several lines may hold line
feeds. -/
def isForbidden (lines : Bool) (c : Char) : Bool :=
  (c.toNat < 0x20 || c.toNat = 0x7F) && c ≠ '\t' && !(lines && c = '\n')

/-! ## Strings -/

/-- The text in front of the first occurrence of another, and the text behind it. -/
def splitAtFirst (mark : List Char) : List Char → Option (List Char × List Char)
  | [] => if mark.isEmpty then some ([], []) else none
  | c :: rest =>
    if mark.isPrefixOf (c :: rest) then some ([], (c :: rest).drop mark.length)
    else (splitAtFirst mark rest).map fun pair => (c :: pair.1, pair.2)

/-- The rest of a string that is taken as it is, up to its closing quotes. -/
def literalRest (lines : Bool) (close : List Char) : Reader (List Char) := do
  match splitAtFirst close (← get) with
  | none => Reader.malformed
  | some (text, rest) =>
    if text.any (isForbidden lines) then Reader.malformed
    set rest
    return text

/-- The character that a letter behind a backslash stands for. -/
def namedEscape? : Char → Option Char
  | 'b' => some '\x08'
  | 't' => some '\t'
  | 'n' => some '\n'
  | 'f' => some '\x0c'
  | 'r' => some '\r'
  | '"' => some '"'
  | '\\' => some '\\'
  | _ => none

/-- The value of a hexadecimal digit. -/
def hexValue? (c : Char) : Option Nat :=
  if '0' ≤ c ∧ c ≤ '9' then some (c.toNat - '0'.toNat)
  else if 'a' ≤ c ∧ c ≤ 'f' then some (c.toNat - 'a'.toNat + 10)
  else if 'A' ≤ c ∧ c ≤ 'F' then some (c.toNat - 'A'.toNat + 10)
  else none

/-- The character with a code point of this many hexadecimal digits. -/
def codePoint (width : Nat) : Reader (List Char) := do
  let digits := ((← get).take width).filterMap hexValue?
  let n := Text.valueInBase 16 digits
  if digits.length ≠ width ∨ !n.isValidChar then Reader.malformed
  Reader.pass width
  return [Char.ofNat n]

/-- What the text behind a backslash stands for. In a string of several lines a backslash at the
end of a line takes all blanks up to the next character. -/
def escape (lines : Bool) : Reader (List Char) := do
  match ← Reader.peek with
  | none => Reader.malformed
  | some c =>
    Reader.pass 1
    if lines && isSpaceOrNewline c then
      if c ≠ '\n' then
        Reader.skip isSpace
        match ← Reader.peek with
        | none => return []
        | some '\n' => Reader.pass 1
        | some _ => Reader.malformed
      Reader.skip isSpaceOrNewline
      return []
    else if c = 'u' then codePoint 4
    else if c = 'U' then codePoint 8
    else
      match namedEscape? c with
      | some e => return [e]
      | none => Reader.malformed

/-- The rest of a string with escapes, up to its closing quotes, behind the text that has been
read, last first. The list counts the steps. -/
def basicRest (lines : Bool) (close : List Char) :
    (count : List Char) → (done : List Char) → Reader (List Char)
  | [], _ => Reader.malformed
  | _ :: count, done => do
    match ← Reader.peek with
    | none => Reader.malformed
    | some c =>
      if c = '"' then
        if ← Reader.passIf close then return done.reverse
        Reader.pass 1
        basicRest lines close count (c :: done)
      else if c = '\\' then
        Reader.pass 1
        let cs ← escape lines
        basicRest lines close count (cs.reverse ++ done)
      else if isForbidden lines c then Reader.malformed
      else
        Reader.pass 1
        basicRest lines close count (c :: done)

/-- Up to two more quotes right behind a string of several lines belong to it. -/
def extraQuotes (quote : Char) : Reader (List Char) := do
  if !(← Reader.passIf [quote]) then return []
  if !(← Reader.passIf [quote]) then return [quote]
  return [quote, quote]

def lineString (quote : Char) : Reader (List Char) := do
  if quote = '"' then basicRest false [quote] (← get) []
  else literalRest false [quote]

/-- The rest of a string of several lines. A line feed right behind the opening quotes is not part
of it. -/
def blockString (quote : Char) : Reader (List Char) := do
  let close := [quote, quote, quote]
  let _ ← Reader.passIf ['\n']
  let text ← if quote = '"' then do basicRest true close (← get) [] else literalRest true close
  return text ++ (← extraQuotes quote)

/-! ## Numbers -/

/-- More digits, each behind an underscore or right behind the last, and the text behind them. -/
def moreDigits (p : Char → Bool) : List Char → List Char × List Char
  | [] => ([], [])
  | c :: rest =>
    if p c then
      let (digits, behind) := moreDigits p rest
      (c :: digits, behind)
    else if c = '_' && rest.head?.any p then
      moreDigits p rest
    else ([], c :: rest)

/-- Digits, one at least, and the text behind them. -/
def digits? (p : Char → Bool) : List Char → Option (List Char × List Char)
  | c :: rest =>
    if p c then
      let (digits, behind) := moreDigits p rest
      some (c :: digits, behind)
    else none
  | [] => none

/-- The base that a letter behind a zero names, with its digits. -/
def namedBase? : Char → Option (Nat × (Char → Bool))
  | 'x' => some (16, fun c => (hexValue? c).isSome)
  | 'o' => some (8, fun c => '0' ≤ c ∧ c ≤ '7')
  | 'b' => some (2, fun c => c = '0' || c = '1')
  | _ => none

/-- An integer in a base that is named. -/
def basedInteger? : List Char → Option (Value × List Char)
  | '0' :: letter :: rest => do
    let (base, p) ← namedBase? letter
    let (digits, behind) ← digits? p rest
    return (.integer (Text.valueInBase base (digits.filterMap hexValue?)), behind)
  | _ => none

/-- A sign, if there is one, and the text behind it. -/
def signed : List Char → List Char × List Char
  | '+' :: rest => (['+'], rest)
  | '-' :: rest => (['-'], rest)
  | cs => ([], cs)

/-- The digits behind a point, if it comes next, and the text behind them. -/
def fraction? : List Char → Option (List Char × List Char)
  | '.' :: rest => digits? Char.isDigit rest
  | _ => none

/-- An exponent, if one comes next, and the text behind it. -/
def exponent? : List Char → Option (Int × List Char)
  | c :: rest =>
    if c = 'e' || c = 'E' then do
      let (sign, behind) := signed rest
      let (digits, behind) ← digits? Char.isDigit behind
      let n : Int := Text.decimalValue digits
      return (if sign = ['-'] then -n else n, behind)
    else none
  | [] => none

/-- The greatest number of digits that the number reader takes. -/
def maxDigits : Nat := 4300

/-- A decimal number, and the text behind it. A leading zero stands alone. -/
def decimalNumber? (cs : List Char) : Option (Except Error Value × List Char) := do
  let (sign, behind) := signed cs
  let negative := sign = ['-']
  let (digits, behind) ← match behind with
    | '0' :: rest => some (['0'], rest)
    | rest => digits? Char.isDigit rest
  let point := fraction? behind
  let (places, behind) := point.getD ([], behind)
  let power := exponent? behind
  let (exponent, behind) := power.getD (0, behind)
  if point.isNone && power.isNone then
    let n : Int := Text.decimalValue digits
    let v : Except Error Value :=
      if maxDigits < digits.length then .error (.digitLimit digits.length)
      else .ok (.integer (if negative then -n else n))
    return (v, behind)
  else
    let d : Decimal := ⟨Text.decimalValue (digits ++ places), exponent - places.length⟩
    return (.ok (.float (.ofDecimal negative d)), behind)

/-- A value that is no number, or has no bound, and the text behind it. -/
def specialFloat? (cs : List Char) : Option (Value × List Char) :=
  let (sign, behind) := signed cs
  match behind with
  | 'i' :: 'n' :: 'f' :: rest => some (.float (.infinite (sign = ['-'])), rest)
  | 'n' :: 'a' :: 'n' :: rest => some (.float .nan, rest)
  | _ => none

/-! ## Dates and times -/

/-- A number of exactly this many digits, within bounds, and the text behind it. -/
def fixedNumber? (width low high : Nat) (cs : List Char) : Option (Nat × List Char) :=
  let digits := cs.take width
  let n := Text.decimalValue digits
  if digits.length = width ∧ digits.all Char.isDigit ∧ low ≤ n ∧ n ≤ high then
    some (n, cs.drop width)
  else none

def passChar? (c : Char) : List Char → Option (List Char)
  | d :: rest => if d = c then some rest else none
  | [] => none

/-- The microseconds behind the seconds, if there is a point, and the text behind them. Digits
behind the sixth do not count. -/
def microseconds : List Char → Nat × List Char
  | '.' :: rest =>
    match rest.takeWhile Char.isDigit with
    | [] => (0, '.' :: rest)
    | digits =>
      (Text.decimalValue ((digits ++ List.replicate 5 '0').take 6), rest.dropWhile Char.isDigit)
  | cs => (0, cs)

/-- A time of day, and the text behind it. -/
def time? (cs : List Char) : Option (TimeOfDay × List Char) := do
  let (hour, cs) ← fixedNumber? 2 0 23 cs
  let cs ← passChar? ':' cs
  let (minute, cs) ← fixedNumber? 2 0 59 cs
  let cs ← passChar? ':' cs
  let (second, cs) ← fixedNumber? 2 0 59 cs
  let (micro, cs) := microseconds cs
  return (⟨hour, minute, second, micro⟩, cs)

/-- An offset from universal time in minutes, and the text behind it. -/
def offset? : List Char → Option (Int × List Char)
  | c :: rest =>
    if c = 'Z' || c = 'z' then some (0, rest)
    else if c = '+' || c = '-' then do
      let (hours, cs) ← fixedNumber? 2 0 23 rest
      let cs ← passChar? ':' cs
      let (minutes, cs) ← fixedNumber? 2 0 59 cs
      let n : Int := hours * 60 + minutes
      return (if c = '-' then -n else n, cs)
    else none
  | [] => none

def timeBehindDate? : List Char → Option (TimeOfDay × List Char)
  | c :: rest => if c = 'T' || c = 't' || c = ' ' then time? rest else none
  | [] => none

/-- A date, maybe with a time of day, if there is such a day, and the text behind it. -/
def date? (cs : List Char) : Option (Option Value × List Char) := do
  let (year, cs) ← fixedNumber? 4 0 9999 cs
  let cs ← passChar? '-' cs
  let (month, cs) ← fixedNumber? 2 1 12 cs
  let cs ← passChar? '-' cs
  let (day, cs) ← fixedNumber? 2 1 31 cs
  let date := Date.ofNumbers? year month day
  match timeBehindDate? cs with
  | none => return (date.map .date, cs)
  | some (t, cs) =>
    let (offset, cs) := match offset? cs with
      | some (n, cs) => (some n, cs)
      | none => (none, cs)
    return (date.map fun d => .dateTime d t offset, cs)

/-- A date, a time, or a number. -/
def dateOrNumber : Reader Value := do
  let cs ← get
  match date? cs with
  | some (none, _) => Reader.malformed
  | some (some v, behind) =>
    set behind
    return v
  | none =>
    match time? cs with
    | some (t, behind) =>
      set behind
      return .time t
    | none =>
      match basedInteger? cs with
      | some (v, behind) =>
        set behind
        return v
      | none =>
        match decimalNumber? cs with
        | some (.ok v, behind) =>
          set behind
          return v
        | some (.error e, _) => throw e
        | none =>
          match specialFloat? cs with
          | some (v, behind) =>
            set behind
            return v
          | none => Reader.malformed

end Imp32.Toml
