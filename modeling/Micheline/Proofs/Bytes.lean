import Mathlib.Algebra.Group.Int.Defs
import Mathlib.Algebra.Group.Nat.Defs
import Micheline.Bytes
import Micheline.Radix

/-!
Words of a fixed width, and content behind a field of four octets that holds its length. A word
keeps a number modulo its width, and so such a field keeps the length only below 2^32; there, and
only there, framed content can be told from what follows it.
-/

namespace Micheline.Bytes

theorem value_bigEndian (width n : Nat) :
    Radix.value 256 ((bigEndian width n).map UInt8.toNat) = n % 256 ^ width := by
  induction width generalizing n with
  | zero => simp [bigEndian, Radix.value, Nat.mod_one]
  | succ width ih =>
      have hsnoc (ds : List Nat) (d : Nat) :
          Radix.value 256 (ds ++ [d]) = Radix.value 256 ds * 256 + d := by
        simp [Radix.value]
      have hpow : 256 ^ (width + 1) = 256 * 256 ^ width := Nat.pow_succ'
      rw [bigEndian, List.map_append, List.map_singleton, hsnoc, ih, UInt8.toNat_ofNat', hpow,
        Nat.mod_mul]
      omega

/-- A word read as a number in base 256 is what it was made of, modulo its width in bits. -/
theorem value_word (width : Nat) (value : Int) :
    (Radix.value 256 ((word width value).map UInt8.toNat) : Int) = value % 2 ^ (8 * width) := by
  have hpow : ((256 ^ width : Nat) : Int) = 2 ^ (8 * width) := by
    rw [Int.pow_mul]
    exact Int.natCast_pow 256 width
  have hpos : (0 : Int) < (256 ^ width : Nat) := by
    rw [hpow]
    exact Int.pow_pos (by decide)
  have hreduced : ((value.emod (Nat.pow 256 width)).toNat : Int) = value % 2 ^ (8 * width) := by
    rw [← hpow]
    exact Int.toNat_of_nonneg (Int.emod_nonneg _ (Int.ne_of_gt hpos))
  have hlt : (value.emod (Nat.pow 256 width)).toNat < 256 ^ width := by
    rw [← Int.ofNat_lt, hreduced, ← hpow]
    exact Int.emod_lt_of_pos _ hpos
  rw [word, value_bigEndian, Nat.mod_eq_of_lt hlt, hreduced]

/-- A length in four octets, most significant first. -/
def lengthField (n : Nat) : Bytes :=
  [UInt8.ofNat (n / 2 ^ 24), UInt8.ofNat (n / 2 ^ 16), UInt8.ofNat (n / 2 ^ 8), UInt8.ofNat n]

def framed (content : Bytes) : Bytes :=
  lengthField content.length ++ content

theorem length_lengthField (n : Nat) : (lengthField n).length = 4 := rfl

theorem length_framed (content : Bytes) : (framed content).length = 4 + content.length := by
  simp [framed, length_lengthField]

theorem word_four (n : Nat) : word 4 n = lengthField n := by
  have hmod : ((n : Int).emod (Nat.pow 256 4)).toNat = n % 2 ^ 32 := rfl
  simp only [word, hmod, bigEndian, lengthField, List.nil_append, List.cons_append]
  simp only [List.cons.injEq, ← UInt8.toNat_inj, UInt8.toNat_ofNat', and_true]
  omega

theorem lengthField_inj {n m : Nat} (hn : n < 2 ^ 32) (hm : m < 2 ^ 32)
    (h : lengthField n = lengthField m) : n = m := by
  simp only [lengthField, List.cons.injEq, ← UInt8.toNat_inj, UInt8.toNat_ofNat', and_true] at h
  omega

theorem framed_append_inj {b c r s : Bytes} (hb : b.length < 2 ^ 32) (hc : c.length < 2 ^ 32)
    (h : framed b ++ r = framed c ++ s) : b = c ∧ r = s := by
  simp only [framed, List.append_assoc] at h
  obtain ⟨hfield, hrest⟩ := List.append_inj h rfl
  exact List.append_inj hrest (lengthField_inj hb hc hfield)

theorem cons_framed_append_inj {tag tag' : UInt8} {b c r s : Bytes}
    (hb : (tag :: framed b).length < 2 ^ 32) (hc : (tag' :: framed c).length < 2 ^ 32)
    (h : tag :: framed b ++ r = tag' :: framed c ++ s) : b = c ∧ r = s := by
  rw [List.length_cons, length_framed] at hb hc
  apply framed_append_inj
  · omega
  · omega
  · exact (List.cons.inj h).2

theorem ofText_inj {s t : String} (h : ofText s = ofText t) : s = t := by
  simp only [ofText, String.toUTF8_eq_toByteArray, Array.toList_inj] at h
  exact String.toByteArray_inj.mp (ByteArray.ext h)

theorem ofText_ofList (cs : List Char) :
    ofText (String.ofList cs) = cs.flatMap String.utf8EncodeChar := by
  rw [ofText, String.toUTF8_eq_toByteArray, String.toByteArray_ofList, List.utf8Encode,
    List.toList_data_toByteArray]

/-- The character of a single octet. -/
def charOf (octet : UInt8) : Char :=
  Char.ofNat octet.toNat

theorem utf8EncodeChar_charOf {octet : UInt8} (h : octet < 0x80) :
    String.utf8EncodeChar (charOf octet) = [octet] := by
  have htable : ∀ i : Fin 128,
      String.utf8EncodeChar (charOf (UInt8.ofNat i)) = [UInt8.ofNat i] := by
    decide +kernel
  simpa using htable ⟨octet.toNat, UInt8.lt_iff_toNat_lt.mp h⟩

theorem ofText_charOf {octets : Bytes} (h : ∀ b ∈ octets, b < 0x80) :
    ofText (String.ofList (octets.map charOf)) = octets := by
  rw [ofText_ofList]
  induction octets with
  | nil => rfl
  | cons b octets ih =>
      rw [List.map_cons, List.flatMap_cons, utf8EncodeChar_charOf (h b (List.mem_cons_self ..)),
        ih fun c hc => h c (List.mem_cons_of_mem _ hc), List.singleton_append]

/-- A text of single octets is the text of their characters. -/
theorem toList_eq_map_charOf {text : String} (h : ∀ b ∈ ofText text, b < 0x80) :
    text.toList = (ofText text).map charOf := by
  have hsame := ofText_inj (ofText_charOf h)
  rw [← String.toList_inj, String.toList_ofList] at hsame
  exact hsame.symm

end Micheline.Bytes
