/-!
# Decoding UTF-8

A sequence of bytes is text if it is made of characters in their shortest
encoding. Decoding stops at the first byte that cannot go on what came before,
and says where the broken character began and how many of its bytes were in
order.

## Implementation notes

The decoder reads byte by byte; in between it knows the character that is
`Pending`. Only the byte after the first one is restricted further than to
the range of continuation bytes: that excludes encodings that are too long,
surrogates, and code points past the last one.
-/

namespace Lox.Utf8

/-- Why bytes are not text. -/
inductive DecodeError where
  /-- Bytes that no text contains, `length` of them from `offset` on. -/
  | invalid (length offset : Nat)
  /-- The bytes end in the middle of the character at `offset`. -/
  | incomplete (offset : Nat)
  deriving Repr, DecidableEq

/-- The wording of a decoding error. -/
def DecodeError.message : DecodeError → String
  | invalid length offset => s!"invalid utf-8 sequence of {length} bytes from index {offset}"
  | incomplete offset => s!"incomplete utf-8 byte sequence from index {offset}"

/-- A character of which some bytes have been read: where it began, how many
bytes were read and how many are missing, the range of the next one, and the
code point so far. -/
structure Pending where
  offset : Nat
  read : Nat
  missing : Nat
  low : Nat
  high : Nat
  code : Nat

/-- The character that a first byte above the ASCII range begins. -/
def Pending.ofLead? (offset lead : Nat) : Option Pending :=
  if lead < 0xC2 then none
  else if lead < 0xE0 then some ⟨offset, 1, 1, 0x80, 0xBF, lead - 0xC0⟩
  else if lead = 0xE0 then some ⟨offset, 1, 2, 0xA0, 0xBF, 0⟩
  else if lead = 0xED then some ⟨offset, 1, 2, 0x80, 0x9F, 0xD⟩
  else if lead < 0xF0 then some ⟨offset, 1, 2, 0x80, 0xBF, lead - 0xE0⟩
  else if lead = 0xF0 then some ⟨offset, 1, 3, 0x90, 0xBF, 0⟩
  else if lead < 0xF4 then some ⟨offset, 1, 3, 0x80, 0xBF, lead - 0xF0⟩
  else if lead = 0xF4 then some ⟨offset, 1, 3, 0x80, 0x8F, 4⟩
  else none

/-- The code point with one more byte. -/
def Pending.codeWith (p : Pending) (byte : Nat) : Nat :=
  p.code * 64 + (byte - 0x80)

/-- Decode bytes from an offset on, in the middle of a character if one is
pending, after the characters of `text`, the latest first. -/
def decodeFrom (offset : Nat) (text : List Char) :
    Option Pending → List UInt8 → Except DecodeError (List Char)
  | none, [] => .ok text.reverse
  | some p, [] => .error (.incomplete p.offset)
  | none, b :: bs =>
      let byte := b.toNat
      if byte < 0x80 then decodeFrom (offset + 1) (Char.ofNat byte :: text) none bs
      else match Pending.ofLead? offset byte with
        | none => .error (.invalid 1 offset)
        | some p => decodeFrom (offset + 1) text (some p) bs
  | some p, b :: bs =>
      let byte := b.toNat
      if byte < p.low ∨ p.high < byte then .error (.invalid p.read p.offset)
      else if p.missing = 1 then
        decodeFrom (offset + 1) (Char.ofNat (p.codeWith byte) :: text) none bs
      else
        let p := { p with
          read := p.read + 1
          missing := p.missing - 1
          low := 0x80
          high := 0xBF
          code := p.codeWith byte }
        decodeFrom (offset + 1) text (some p) bs

/-- Decode a whole sequence of bytes. -/
def decode (bytes : List UInt8) : Except DecodeError String :=
  (decodeFrom 0 [] none bytes).map String.ofList

end Lox.Utf8
