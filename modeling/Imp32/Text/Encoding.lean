/-!
# Encodings

Text that goes to a file or to the standard output is turned into bytes. There need not be bytes for
every character, and then there are none for a text that holds it.
-/

namespace Imp32

/-- How text is turned into bytes, as far as that may fail. -/
structure Encoding where
  /-- Whether there are bytes for a character. -/
  has : Char → Bool

namespace Encoding

/-- Whether there are bytes for a text. -/
def takes (e : Encoding) (text : String) : Bool :=
  text.toList.all e.has

/-- The encoding with bytes for every character. -/
def full : Encoding := ⟨fun _ => true⟩

/-- What a file holds after a text has been written to it: nothing if there are no bytes for it. -/
def written (e : Encoding) (text : String) : String :=
  if e.takes text then text else ""

end Encoding

end Imp32
