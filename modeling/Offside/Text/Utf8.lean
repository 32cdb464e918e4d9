/-!
# UTF-8

The octets of a text and back. Decoding is strict: it refuses the first octet that no encoding of
a text could have at that place.

- `encode`: the octets of a text.
- `decode`: the text of octets, or the stretch that is no encoding and why.
-/
namespace Offside.Text.Utf8

set_option autoImplicit false

inductive Reason where
  | badStart
  /-- An octet stands where a continuation is owed and cannot be one. -/
  | badContinuation
  | cutShort
  deriving DecidableEq, Repr

def Reason.message : Reason → String
  | .badStart => "invalid start byte"
  | .badContinuation => "invalid continuation byte"
  | .cutShort => "unexpected end of data"

/-- A stretch of octets, from `start` up to and without `stop`, that encodes no character. -/
structure Fault where
  start : Nat
  stop : Nat
  octet : UInt8
  reason : Reason
  deriving DecidableEq, Repr

def hexOctet (b : UInt8) : String :=
  String.ofList [Nat.digitChar (b.toNat / 16), Nat.digitChar (b.toNat % 16)]

/-- A fault in one sentence: one octet is shown, of several only the places. -/
def Fault.message (f : Fault) : String :=
  let what :=
    if f.stop = f.start + 1 then
      "byte 0x" ++ hexOctet f.octet ++ " in position " ++ toString f.start
    else
      "bytes in position " ++ toString f.start ++ "-" ++ toString (f.stop - 1)
  "\x27utf-8\x27 codec can\x27t decode " ++ what ++ ": " ++ f.reason.message

/-- An encoding that has begun: where, with which octet, how many octets it is owed, between which
bounds the next of them lies, and the bits read so far. -/
structure Partial where
  start : Nat
  first : UInt8
  owed : Nat
  low : UInt8
  high : UInt8
  bits : Nat
  deriving DecidableEq, Repr

/-- What a first octet above the one-octet range begins. The bounds of the second octet exclude
overlong encodings, surrogates and code points past the last. -/
def Partial.begin? (start : Nat) (b : UInt8) : Option Partial :=
  if 0xc2 ≤ b ∧ b ≤ 0xdf then some ⟨start, b, 1, 0x80, 0xbf, b.toNat - 0xc0⟩
  else if b = 0xe0 then some ⟨start, b, 2, 0xa0, 0xbf, 0⟩
  else if b = 0xed then some ⟨start, b, 2, 0x80, 0x9f, 0xd⟩
  else if 0xe1 ≤ b ∧ b ≤ 0xef then some ⟨start, b, 2, 0x80, 0xbf, b.toNat - 0xe0⟩
  else if b = 0xf0 then some ⟨start, b, 3, 0x90, 0xbf, 0⟩
  else if b = 0xf4 then some ⟨start, b, 3, 0x80, 0x8f, 4⟩
  else if 0xf1 ≤ b ∧ b ≤ 0xf3 then some ⟨start, b, 3, 0x80, 0xbf, b.toNat - 0xf0⟩
  else none

/-- Decodes the octets from `place` on, with an encoding begun before it or none. -/
def decodeFrom (place : Nat) : Option Partial → List UInt8 → Except Fault (List Char)
  | none, [] => .ok []
  | some p, [] => .error ⟨p.start, place, p.first, .cutShort⟩
  | none, b :: rest =>
    if b < 0x80 then (Char.ofNat b.toNat :: ·) <$> decodeFrom (place + 1) none rest
    else match Partial.begin? place b with
      | none => .error ⟨place, place + 1, b, .badStart⟩
      | some p => decodeFrom (place + 1) (some p) rest
  | some p, b :: rest =>
    if p.low ≤ b ∧ b ≤ p.high then
      let bits := p.bits * 64 + (b.toNat - 0x80)
      if p.owed ≤ 1 then (Char.ofNat bits :: ·) <$> decodeFrom (place + 1) none rest
      else decodeFrom (place + 1) (some ⟨p.start, p.first, p.owed - 1, 0x80, 0xbf, bits⟩) rest
    else .error ⟨p.start, place, p.first, .badContinuation⟩

def decode (octets : List UInt8) : Except Fault (List Char) := decodeFrom 0 none octets

def encode (cs : List Char) : List UInt8 := cs.flatMap String.utf8EncodeChar

end Offside.Text.Utf8
