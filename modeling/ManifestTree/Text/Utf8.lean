import ManifestTree.Text.Quoted

/-!
# UTF-8

`Utf8.encode` writes characters as bytes and `Utf8.decode` reads them.  What is no UTF-8 is refused
at the first sequence that is not well formed, with the bytes that are wrong and the reason.
-/

namespace ManifestTree.Utf8

/-! ## Writing -/

/-- A byte that continues a sequence, with the six lowest bits of a number. -/
def continuation (n : Nat) : UInt8 := (0x80 + n % 0x40).toUInt8

/-- The sequence of one character. -/
def encodeChar (c : Char) : List UInt8 :=
  let n := c.toNat
  if n < 0x80 then [n.toUInt8]
  else if n < 0x800 then [(0xC0 + n / 0x40).toUInt8, continuation n]
  else if n < 0x10000 then
    [(0xE0 + n / 0x1000).toUInt8, continuation (n / 0x40), continuation n]
  else
    [(0xF0 + n / 0x40000).toUInt8, continuation (n / 0x1000), continuation (n / 0x40),
      continuation n]

/-- The bytes of a text. -/
def encode (cs : List Char) : List UInt8 := cs.flatMap encodeChar

/-! ## Reading -/

/-- Why a sequence of bytes is not well formed. -/
inductive Reason where
  /-- No sequence starts with this byte. -/
  | invalidStart
  /-- The bytes before it do not allow the next byte. -/
  | invalidContinuation
  /-- The bytes end within a sequence. -/
  | unexpectedEnd
deriving DecidableEq, Repr

/-- A reason in words. -/
def Reason.phrase : Reason → String
  | .invalidStart => "invalid start byte"
  | .invalidContinuation => "invalid continuation byte"
  | .unexpectedEnd => "unexpected end of data"

/-- Bytes that are no UTF-8. -/
structure Fault where
  /-- Why they are not. -/
  reason : Reason
  /-- How many bytes come before them. -/
  offset : Nat
  /-- The first of them. -/
  first : UInt8
  /-- How many of them are wrong together. -/
  length : Nat
deriving DecidableEq, Repr

/-- A fault in words. -/
def Fault.message (f : Fault) : String :=
  let place :=
    if f.length = 1 then
      s!"byte 0x{String.ofList (Text.hexDigits 2 f.first.toNat)} in position {f.offset}"
    else s!"bytes in position {f.offset}-{f.offset + f.length - 1}"
  s!"'utf-8' codec can't decode {place}: {f.reason.phrase}"

/-- What a first byte promises. -/
structure Lead where
  /-- The bits that it contributes. -/
  bits : Nat
  /-- The least second byte. -/
  low : Nat
  /-- The greatest second byte. -/
  high : Nat
  /-- How many bytes follow the second. -/
  more : Nat
deriving DecidableEq, Repr

/-- What the first byte of a sequence of several bytes promises.  The bounds of the second byte
leave out what is longer than it has to be, surrogates, and all beyond U+10FFFF. -/
def lead? (b : Nat) : Option Lead :=
  if b < 0xC2 then none
  else if b < 0xE0 then some ⟨b - 0xC0, 0x80, 0xBF, 0⟩
  else if b < 0xF0 then
    some ⟨b - 0xE0, if b = 0xE0 then 0xA0 else 0x80, if b = 0xED then 0x9F else 0xBF, 1⟩
  else if b < 0xF5 then
    some ⟨b - 0xF0, if b = 0xF0 then 0x90 else 0x80, if b = 0xF4 then 0x8F else 0xBF, 2⟩
  else none

/-- The bytes that continue a sequence of which `taken` bytes are read and whose next byte lies
between two bounds: the number they complete and their count, or how many bytes are wrong. -/
def continued (bits taken low high : Nat) : (more : Nat) → List UInt8 →
    Except (Reason × Nat) (Nat × Nat)
  | _, [] => .error (.unexpectedEnd, taken)
  | more, b :: rest =>
    if low ≤ b.toNat ∧ b.toNat ≤ high then
      let bits := bits * 0x40 + (b.toNat - 0x80)
      match more with
      | 0 => .ok (bits, taken + 1)
      | more + 1 => continued bits (taken + 1) 0x80 0xBF more rest
    else .error (.invalidContinuation, taken)

/-- The number that a sequence stands for and how many bytes it has. -/
def sequence (first : UInt8) (rest : List UInt8) : Except (Reason × Nat) (Nat × Nat) :=
  if first.toNat < 0x80 then .ok (first.toNat, 1)
  else
    match lead? first.toNat with
    | none => .error (.invalidStart, 1)
    | some lead => continued lead.bits 1 lead.low lead.high lead.more rest

/-- The characters of some bytes that come after `offset` others. -/
def decodeFrom (offset : Nat) : List UInt8 → Except Fault (List Char)
  | [] => .ok []
  | first :: rest =>
    match sequence first rest with
    | .error (reason, length) => .error ⟨reason, offset, first, length⟩
    | .ok (n, length) =>
      match decodeFrom (offset + length) (rest.drop (length - 1)) with
      | .ok cs => .ok (Char.ofNat n :: cs)
      | .error f => .error f
termination_by bytes => bytes.length

/-- The text of some bytes. -/
def decode (bytes : List UInt8) : Except Fault (List Char) := decodeFrom 0 bytes

end ManifestTree.Utf8
