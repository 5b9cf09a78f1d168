/-!
# UTF-8

Offsets into a text count the bytes of its UTF-8 form. `utf8` writes a text as bytes and
`decodeLossy` reads any bytes: a maximal piece that begins no character, or breaks off inside one,
is read as one replacement character.

The reader is a machine that takes a byte at a time. Between characters it looks at the leading
byte; inside one it is `Partial`: how many bytes are still owed, the range the next one has to lie
in, and the bits read so far. The range alone rules out overlong forms, surrogates and code points
past the last.
-/

namespace Imp32.Text

def utf8 (cs : List Char) : List UInt8 :=
  cs.flatMap String.utf8EncodeChar

def utf8Length : List Char → Nat
  | [] => 0
  | c :: rest => c.utf8Size + utf8Length rest

theorem length_utf8 (cs : List Char) : (utf8 cs).length = utf8Length cs := by
  induction cs with
  | nil => rfl
  | cons c rest ih => simp_all [utf8, utf8Length]

theorem utf8_append (cs ds : List Char) : utf8 (cs ++ ds) = utf8 cs ++ utf8 ds := by
  simp [utf8]

theorem utf8Length_append (cs ds : List Char) :
    utf8Length (cs ++ ds) = utf8Length cs + utf8Length ds := by
  induction cs with
  | nil => simp [utf8Length]
  | cons c rest ih => simp [utf8Length, ih, Nat.add_assoc]

/-- Stands for bytes that spell no character. -/
def replacementChar : Char := '\ufffd'

/-- A character of which at least one byte is still owed. -/
structure Partial where
  /-- The bytes owed after the next one. -/
  later : Nat
  /-- The least value of the next byte. -/
  low : Nat
  /-- The greatest value of the next byte. -/
  high : Nat
  /-- The bits read so far. -/
  bits : Nat

/-- What a leading byte begins. -/
inductive Lead where
  | whole (c : Char)
  | part (p : Partial)
  | stray

/-- Read a leading byte. -/
def lead (byte : UInt8) : Lead :=
  let b := byte.toNat
  if b < 0x80 then .whole (Char.ofNat b)
  else if b < 0xC2 then .stray
  else if b < 0xE0 then .part ⟨0, 0x80, 0xBF, b - 0xC0⟩
  else if b = 0xE0 then .part ⟨1, 0xA0, 0xBF, 0⟩
  else if b = 0xED then .part ⟨1, 0x80, 0x9F, 0xD⟩
  else if b < 0xF0 then .part ⟨1, 0x80, 0xBF, b - 0xE0⟩
  else if b = 0xF0 then .part ⟨2, 0x90, 0xBF, 0⟩
  else if b < 0xF4 then .part ⟨2, 0x80, 0xBF, b - 0xF0⟩
  else if b = 0xF4 then .part ⟨2, 0x80, 0x8F, 4⟩
  else .stray

/-- Read on, from between two characters or from inside one. -/
def decodeFrom : Option Partial → List UInt8 → List Char
  | none, [] => []
  | some _, [] => [replacementChar]
  | none, byte :: rest =>
    match lead byte with
    | .whole c => c :: decodeFrom none rest
    | .part p => decodeFrom (some p) rest
    | .stray => replacementChar :: decodeFrom none rest
  | some p, byte :: rest =>
    let b := byte.toNat
    if p.low ≤ b ∧ b ≤ p.high then
      let bits := p.bits * 0x40 + (b - 0x80)
      match p.later with
      | 0 => Char.ofNat bits :: decodeFrom none rest
      | later + 1 => decodeFrom (some ⟨later, 0x80, 0xBF, bits⟩) rest
    else
      replacementChar ::
        match lead byte with
        | .whole c => c :: decodeFrom none rest
        | .part p => decodeFrom (some p) rest
        | .stray => replacementChar :: decodeFrom none rest

/-- The text that bytes spell, with a replacement character for each piece that spells none. -/
def decodeLossy (bytes : List UInt8) : List Char :=
  decodeFrom none bytes

end Imp32.Text
