import Micheline.Text.Utf8

/-!
Hexadecimal text. Printing uses lower-case digits. Reading works on the octets of a text and
takes either case; it stops at the first pair that is not two digits, and a digit left over at
the end counts as such a pair. The octets of a bad pair are shown as text, however broken.
-/

namespace Micheline.Hex

/-- A pair that is not two hexadecimal digits, and the octet at which it starts. At the end of
the text it may be a single octet. -/
structure Malformed where
  pair : String
  offset : Nat
deriving DecidableEq, Repr

def digit? (octet : UInt8) : Option UInt8 :=
  if 0x30 ≤ octet ∧ octet ≤ 0x39 then some (octet - 0x30)
  else if 0x41 ≤ octet ∧ octet ≤ 0x46 then some (octet - 0x37)
  else if 0x61 ≤ octet ∧ octet ≤ 0x66 then some (octet - 0x57)
  else none

/-- Reads pairs of digits, the first of which stands at `offset`. -/
def decodeAt (offset : Nat) : Bytes → Except Malformed Bytes
  | [] => .ok []
  | [last] => .error ⟨Text.Utf8.decodeLossy [last], offset⟩
  | high :: low :: rest =>
    match digit? high, digit? low with
    | some h, some l => (decodeAt (offset + 2) rest).map ((16 * h + l) :: ·)
    | _, _ => .error ⟨Text.Utf8.decodeLossy [high, low], offset⟩

def decode (text : String) : Except Malformed Bytes :=
  decodeAt 0 (Bytes.ofText text)

def octet (b : UInt8) : List Char :=
  [Nat.digitChar (b.toNat / 16), Nat.digitChar (b.toNat % 16)]

def encode (bytes : Bytes) : String :=
  String.ofList (bytes.flatMap octet)

end Micheline.Hex
