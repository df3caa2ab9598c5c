import Micheline.Bytes

/-!
Lenient reading of UTF-8. Octets that do not belong to a well-formed sequence become replacement
characters: one for each longest run that a well-formed sequence could have begun with, and one
for each other octet. Well-formed input is read as it is.
-/

namespace Micheline.Text.Utf8

/-- A sequence that has begun: the bits read so far, the range the next octet must lie in, and
the number of octets that must follow the next one. -/
structure Pending where
  bits : Nat
  low : UInt8
  high : UInt8
  missing : Nat

/-- How a lead octet begins a sequence of two to four octets. The narrower ranges after `e0`,
`ed`, `f0` and `f4` keep out overlong forms, surrogates and numbers above `10ffff`. -/
def lead? (b : UInt8) : Option Pending :=
  if 0xc2 ≤ b ∧ b ≤ 0xdf then some ⟨b.toNat - 0xc0, 0x80, 0xbf, 0⟩
  else if b = 0xe0 then some ⟨0, 0xa0, 0xbf, 1⟩
  else if b = 0xed then some ⟨0xd, 0x80, 0x9f, 1⟩
  else if 0xe1 ≤ b ∧ b ≤ 0xef then some ⟨b.toNat - 0xe0, 0x80, 0xbf, 1⟩
  else if b = 0xf0 then some ⟨0, 0x90, 0xbf, 2⟩
  else if b = 0xf4 then some ⟨4, 0x80, 0x8f, 2⟩
  else if 0xf1 ≤ b ∧ b ≤ 0xf3 then some ⟨b.toNat - 0xf0, 0x80, 0xbf, 2⟩
  else none

def replacement : Char := '\ufffd'

/-- What an octet outside any sequence yields: characters, and the sequence it begins. -/
def begin (b : UInt8) : List Char × Option Pending :=
  if b < 0x80 then ([Char.ofNat b.toNat], none)
  else match lead? b with
    | some p => ([], some p)
    | none => ([replacement], none)

/-- What an octet yields behind an unfinished sequence. An octet that does not continue it ends
it early and is then read afresh. -/
def resume (p : Pending) (b : UInt8) : List Char × Option Pending :=
  if p.low ≤ b ∧ b ≤ p.high then
    let bits := 64 * p.bits + (b.toNat - 0x80)
    match p.missing with
    | 0 => ([Char.ofNat bits], none)
    | missing + 1 => ([], some ⟨bits, 0x80, 0xbf, missing⟩)
  else
    let (chars, next) := begin b
    (replacement :: chars, next)

def decodeFrom : Option Pending → Bytes → List Char
  | none, [] => []
  | some _, [] => [replacement]
  | pending, b :: rest =>
    let (chars, next) := match pending with
      | none => begin b
      | some p => resume p b
    chars ++ decodeFrom next rest

def decodeLossy (bytes : Bytes) : String :=
  String.ofList (decodeFrom none bytes)

end Micheline.Text.Utf8
