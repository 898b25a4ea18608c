/-!
Text in UTF-8. Any bytes can be read: where they are broken a replacement character stands for
each run that begins a character and goes on wrongly, and for each byte that begins none.
-/
namespace Coverage

abbrev Bytes := List UInt8

namespace Text

/-- The text in UTF-8. -/
def bytes (text : String) : Bytes := text.toList.flatMap String.utf8EncodeChar

def replacement : Char := '\ufffd'

/-- A character of which some bytes are still to come: the bits that have been read, the number of
bytes behind the next one, and the least and the greatest byte that can come next. -/
structure Pending where
  bits : Nat
  after : Nat
  low : UInt8
  high : UInt8
deriving DecidableEq

/-- What a byte yields between two characters. The bounds keep out what has a shorter encoding,
surrogates, and numbers that are too large. -/
def opening (b : UInt8) : List Char × Option Pending :=
  let n := b.toNat
  if n < 0x80 then ([Char.ofNat n], none)
  else if n < 0xc2 then ([replacement], none)
  else if n < 0xe0 then ([], some ⟨n % 32, 0, 0x80, 0xbf⟩)
  else if n < 0xf0 then
    ([], some ⟨n % 16, 1, if n = 0xe0 then 0xa0 else 0x80, if n = 0xed then 0x9f else 0xbf⟩)
  else if n < 0xf5 then
    ([], some ⟨n % 8, 2, if n = 0xf0 then 0x90 else 0x80, if n = 0xf4 then 0x8f else 0xbf⟩)
  else ([replacement], none)

def Pending.take (p : Pending) (b : UInt8) : List Char × Option Pending :=
  let bits := p.bits * 64 + b.toNat % 64
  match p.after with
  | 0 => ([Char.ofNat bits], none)
  | after + 1 => ([], some ⟨bits, after, 0x80, 0xbf⟩)

/-- A byte that does not fit breaks off what was begun and opens what comes next. -/
def read (state : Option Pending) (b : UInt8) : List Char × Option Pending :=
  match state with
  | none => opening b
  | some p =>
      if p.low ≤ b ∧ b ≤ p.high then p.take b
      else (replacement :: (opening b).1, (opening b).2)

def decode : Option Pending → Bytes → List Char
  | none, [] => []
  | some _, [] => [replacement]
  | state, b :: rest => (read state b).1 ++ decode (read state b).2 rest

/-- The text of any bytes; what is broken in them is replaced. -/
def readable (b : Bytes) : String := String.ofList (decode none b)

/-- The text that is encoded by the bytes, if they encode one. -/
def ofBytes? (b : Bytes) : Option String :=
  if bytes (readable b) = b then some (readable b) else none

end Text

end Coverage
