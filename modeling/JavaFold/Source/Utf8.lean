/-!
# Text as UTF-8 bytes

Offsets into a source are byte offsets, so reading works on the bytes of the text. `encode` gives
them. `decodeLossy` goes back: every longest proper start of a well-formed character that the next
byte does not continue, and every byte that can start none, is read as one U+FFFD.
-/

namespace JavaFold.Utf8

/-- The bytes of a text. -/
def encode (text : String) : List UInt8 := text.toByteArray.data.toList

/-- A character of which some bytes have been read: the bits so far, the number of bytes that are
missing, and the range the next byte has to lie in. -/
structure Pending where
  bits : Nat
  missing : Nat
  low : UInt8
  high : UInt8

/-- The character that stands for bytes that are not well formed. -/
def replacement : Char := '\uFFFD'

/-- Reads a byte at which a character starts. -/
def start (b : UInt8) : List Char × Option Pending :=
  if b < 0x80 then ([Char.ofNat b.toNat], none)
  else if b < 0xC2 then ([replacement], none)
  else if b < 0xE0 then ([], some ⟨b.toNat - 0xC0, 1, 0x80, 0xBF⟩)
  else if b = 0xE0 then ([], some ⟨0, 2, 0xA0, 0xBF⟩)
  else if b = 0xED then ([], some ⟨0xD, 2, 0x80, 0x9F⟩)
  else if b < 0xF0 then ([], some ⟨b.toNat - 0xE0, 2, 0x80, 0xBF⟩)
  else if b = 0xF0 then ([], some ⟨0, 3, 0x90, 0xBF⟩)
  else if b < 0xF4 then ([], some ⟨b.toNat - 0xF0, 3, 0x80, 0xBF⟩)
  else if b = 0xF4 then ([], some ⟨4, 3, 0x80, 0x8F⟩)
  else ([replacement], none)

/-- Reads a byte after those of `pending`: it continues the character, or the character is given up
and the byte starts another one. -/
def next (pending : Pending) (b : UInt8) : List Char × Option Pending :=
  if pending.low ≤ b ∧ b ≤ pending.high then
    let bits := pending.bits * 64 + (b.toNat - 0x80)
    if pending.missing ≤ 1 then ([Char.ofNat bits], none)
    else ([], some ⟨bits, pending.missing - 1, 0x80, 0xBF⟩)
  else
    let (chars, state) := start b
    (replacement :: chars, state)

/-- Reads bytes after those of a pending character. -/
def decodeFrom : Option Pending → List UInt8 → List Char
  | none, [] => []
  | some _, [] => [replacement]
  | none, b :: rest =>
    let (chars, state) := start b
    chars ++ decodeFrom state rest
  | some pending, b :: rest =>
    let (chars, state) := next pending b
    chars ++ decodeFrom state rest

/-- The text of bytes of which some may not be well formed. -/
def decodeLossy (bytes : List UInt8) : String := String.ofList (decodeFrom none bytes)

end JavaFold.Utf8
