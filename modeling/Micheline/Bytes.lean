/-!
Octet strings, and the two ways this library writes a value into octets: a number as a
big-endian word of fixed width, a text in UTF-8. A word keeps its value only modulo its width.
-/

namespace Micheline

abbrev Bytes := List UInt8

namespace Bytes

/-- The `width` low octets of a number, most significant first. -/
def bigEndian : Nat → Nat → Bytes
  | 0, _ => []
  | width + 1, n => bigEndian width (n / 256) ++ [UInt8.ofNat n]

/-- An integer reduced into the range of a word of `width` octets. Negative integers take the
two's complement form. -/
def word (width : Nat) (value : Int) : Bytes :=
  bigEndian width (value.emod (Nat.pow 256 width)).toNat

def ofText (text : String) : Bytes :=
  text.toUTF8.data.toList

@[simp]
theorem length_bigEndian (width n : Nat) : (bigEndian width n).length = width := by
  induction width generalizing n with
  | zero => rfl
  | succ width ih => simp [bigEndian, ih]

@[simp]
theorem length_word (width : Nat) (value : Int) : (word width value).length = width :=
  length_bigEndian ..

end Bytes
end Micheline
