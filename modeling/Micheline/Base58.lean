import Micheline.Bytes
import Micheline.Radix

/-!
Base-58 text. An octet string is read as a number in base 256 and written in base 58; a leading
zero octet becomes a leading `1`, one for one, so that texts and octet strings correspond exactly.
-/

namespace Micheline.Base58

/-- The digits in order: letters and decimal digits without `0`, `I`, `O` and `l`. -/
def alphabet : List Char :=
  ['1', '2', '3', '4', '5', '6', '7', '8', '9', 'A', 'B', 'C', 'D', 'E', 'F', 'G',
   'H', 'J', 'K', 'L', 'M', 'N', 'P', 'Q', 'R', 'S', 'T', 'U', 'V', 'W', 'X', 'Y',
   'Z', 'a', 'b', 'c', 'd', 'e', 'f', 'g', 'h', 'i', 'j', 'k', 'm', 'n', 'o', 'p',
   'q', 'r', 's', 't', 'u', 'v', 'w', 'x', 'y', 'z']

def symbol (digit : Nat) : Char :=
  alphabet.getD digit '1'

def digit? (c : Char) : Option Nat :=
  alphabet.idxOf? c

def encode (bytes : Bytes) : String :=
  String.ofList ((Radix.convert 256 58 (bytes.map UInt8.toNat)).map symbol)

def decode? (text : String) : Option Bytes :=
  (text.toList.mapM digit?).map fun digits => (Radix.convert 58 256 digits).map UInt8.ofNat

end Micheline.Base58
