import Imp32.Binary64.Shortest
import Imp32.Text.Quoted
import Imp32.Toml.Scalar

/-!
# TOML values as texts

A value by itself is shown as it reads: a string without quotes, a date as it is written. Inside an
array or a table it is shown so that its kind can be told: a string in quotes, a date as the call
that makes it. An integer of too many digits cannot be shown, nor can what it is in.
-/

namespace Imp32.Toml

/-- An integer in decimal, unless it has too many digits. -/
def integerText? (n : Int) : Option String :=
  let digits := Nat.toDigits 10 n.natAbs
  if maxDigits < digits.length then none
  else some ((if n < 0 then "-" else "") ++ String.ofList digits)

def longIntegerMessage : String :=
  s!"Exceeds the limit ({maxDigits} digits) for integer string conversion; " ++
    "use sys.set_int_max_str_digits() to increase the limit"

def booleanText (b : Bool) : String :=
  if b then "True" else "False"

def quotedText (text : String) : String :=
  String.ofList (Text.quoted text.toList)

/-! ## Calls -/

/-- The call of a maker from the calendar. -/
def call (maker : String) (arguments : List String) : String :=
  let inside := ", ".intercalate arguments
  s!"datetime.{maker}({inside})"

def dateArguments (d : Date) : List String :=
  [d.year, d.month, d.day].map toString

/-- The numbers of a time as arguments. Seconds and microseconds are left out from the end as far
as they are zero. -/
def timeArguments (t : TimeOfDay) : List String :=
  let seconds :=
    if t.microsecond ≠ 0 then [t.second, t.microsecond]
    else if t.second ≠ 0 then [t.second]
    else []
  ([t.hour, t.minute] ++ seconds).map toString

/-- An offset in minutes as the call of a time zone. A negative one is a day back and seconds
forward. -/
def offsetCall (minutes : Int) : String :=
  let seconds (n : Int) := s!"seconds={n * 60}"
  if minutes = 0 then "datetime.timezone.utc"
  else
    let arguments :=
      if minutes < 0 then ["days=-1", seconds (minutes + 1440)] else [seconds minutes]
    call "timezone" [call "timedelta" arguments]

def dateTimeCall (d : Date) (t : TimeOfDay) (offset : Option Int) : String :=
  call "datetime" (dateArguments d ++ timeArguments t ++
    offset.toList.map fun minutes => s!"tzinfo={offsetCall minutes}")

/-! ## Values -/

def bracketed (texts : List String) : String :=
  "[" ++ ", ".intercalate texts ++ "]"

def braced (texts : List String) : String :=
  "\x7b" ++ ", ".intercalate texts ++ "\x7d"

mutual

/-- A value as it is shown inside another. -/
def Value.innerText? : Value → Option String
  | .string text => some (quotedText text)
  | .integer n => integerText? n
  | .float x => some x.text
  | .boolean b => some (booleanText b)
  | .date d => some (call "date" (dateArguments d))
  | .time t => some (call "time" (timeArguments t))
  | .dateTime d t offset => some (dateTimeCall d t offset)
  | .array items => (itemTexts? items).map bracketed
  | .table entries => (entryTexts? entries).map braced

/-- The items of an array as they are shown. -/
def itemTexts? : List Value → Option (List String)
  | [] => some []
  | v :: rest => do
    let text ← v.innerText?
    let texts ← itemTexts? rest
    return text :: texts

/-- The entries of a table as they are shown. -/
def entryTexts? : List (String × Value) → Option (List String)
  | [] => some []
  | (name, v) :: rest => do
    let text ← v.innerText?
    let texts ← entryTexts? rest
    return s!"{quotedText name}: {text}" :: texts

end

/-- A value as it is shown by itself. -/
def Value.text? : Value → Option String
  | .string text => some text
  | .date d => some d.text
  | .time t => some t.text
  | .dateTime d t offset =>
    let zone := (offset.map offsetText).getD ""
    some s!"{d.text} {t.text}{zone}"
  | v => v.innerText?

end Imp32.Toml
