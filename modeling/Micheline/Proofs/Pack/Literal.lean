import Micheline.Proofs.Decimal.Denotation
import Micheline.Proofs.Hex
import Micheline.Proofs.Pack.Layout
import Micheline.Proofs.Pack.Number.Reading
import Micheline.Proofs.Text.Utf8

/-!
Literals in packed form. An integer is packed by the value of its text and octets by the octets that
their text spells, so the spellings of one value are packed alike. A text that spells nothing is
refused, and the refusal of a hexadecimal text shows the characters that stand at its first bad
pair.
-/

namespace Micheline.Pack

theorem encodeBehind_int {limit : Nat} (h : 1 ≤ limit) (start : Bytes) (text : String) :
    encodeBehind start limit (.int text) =
      match Decimal.parse? text with
      | some n => .ok (start ++ 0x00 :: Number.encode n)
      | none => .error (.invalidInt text) := by
  rw [encodeBehind, write_int h, writeInt]
  cases Decimal.parse? text <;> simp [Except.map, intTag]

theorem encodeBehind_bytes {limit : Nat} (h : 1 ≤ limit) (start : Bytes) (text : String) :
    encodeBehind start limit (.bytes text) =
      match Hex.decode text with
      | .ok content => .ok (start ++ 0x0a :: Bytes.framed content)
      | .error malformed => .error (.malformedHex malformed) := by
  rw [encodeBehind, write_bytes h, writeBytes]
  cases Hex.decode text <;> simp [Except.map, bytesTag]

theorem encode_int_of_denotes {text : String} {n : Int} (h : Decimal.Denotes text n) :
    (Expr.int text).encode = .ok (0x00 :: Number.encode n) := by
  rw [Expr.encode, encodeBehind_int (by decide), Decimal.parse?_eq_some_iff.mpr h]
  rfl

theorem encode_int_of_not {text : String} (h : ¬ Decimal.IsNumeral text) :
    (Expr.int text).encode = .error (.invalidInt text) := by
  rw [Expr.encode, encodeBehind_int (by decide), (Decimal.parse?_eq_none_iff text).mpr h]

theorem isNumeral_of_encode_int {text : String} {bytes : Bytes}
    (h : (Expr.int text).encode = .ok bytes) : Decimal.IsNumeral text := by
  by_contra hnot
  rw [encode_int_of_not hnot] at h
  cases h

theorem encode_int_eq_error_iff {text : String} {error : Error} :
    (Expr.int text).encode = .error error ↔
      ¬ Decimal.IsNumeral text ∧ error = .invalidInt text := by
  constructor
  · intro h
    have hnot : ¬ Decimal.IsNumeral text := by
      intro hnumeral
      obtain ⟨n, hn⟩ := Decimal.isNumeral_iff.mp hnumeral
      rw [encode_int_of_denotes hn] at h
      cases h
    rw [encode_int_of_not hnot] at h
    exact ⟨hnot, (Except.error.inj h).symm⟩
  · rintro ⟨hnot, rfl⟩
    exact encode_int_of_not hnot

theorem encode_int_inj {s t : String} {n m : Int} (hs : Decimal.Denotes s n)
    (ht : Decimal.Denotes t m) : (Expr.int s).encode = (Expr.int t).encode ↔ n = m := by
  rw [encode_int_of_denotes hs, encode_int_of_denotes ht]
  constructor
  · intro h
    have hsame := (List.cons.inj (Except.ok.inj h)).2
    exact (Number.encode_append_inj (congrArg (· ++ []) hsame)).1
  · rintro rfl
    rfl

/-- A literal that stands alone is packed as it is encoded, under every limit but zero. -/
theorem packWithin_int {limit : Nat} (h : 1 ≤ limit) (text : String) :
    (Expr.int text).packWithin limit = (Expr.int text).encode.map (0x05 :: ·) := by
  rw [Expr.packWithin, Expr.encode, encodeBehind_int h, encodeBehind_int (by decide)]
  cases Decimal.parse? text <;> rfl

/-- Numerals, and no other texts, are packed as integers, and two of them alike exactly if they
denote one integer. Every integer has a numeral, whose packed form gives the integer back. -/
theorem integers_packed_by_value :
    (∀ text, Decimal.IsNumeral text ↔ ∃! n, Decimal.Denotes text n) ∧
    (∀ text, (∃ bytes, (Expr.int text).encode = .ok bytes) ↔ Decimal.IsNumeral text) ∧
    (∀ text error, (Expr.int text).encode = .error error ↔
      ¬ Decimal.IsNumeral text ∧ error = .invalidInt text) ∧
    (∀ s t n m, Decimal.Denotes s n → Decimal.Denotes t m →
      ((Expr.int s).encode = (Expr.int t).encode ↔ n = m)) ∧
    (∀ n, ∃ text octets, Expr.ofInt n = .int text ∧ Decimal.Denotes text n ∧
      (Expr.ofInt n).encode = .ok (0x00 :: octets) ∧ Number.read octets = n) ∧
    ∀ text limit, 1 ≤ limit →
      (Expr.int text).packWithin limit = (Expr.int text).encode.map (0x05 :: ·) := by
  refine ⟨?_, ?_, fun _ _ => encode_int_eq_error_iff, fun _ _ _ _ => encode_int_inj, ?_,
    fun text _ h => packWithin_int h text⟩
  · intro text
    rw [Decimal.isNumeral_iff]
    constructor
    · rintro ⟨n, hn⟩
      exact ⟨n, hn, fun m hm => hm.unique hn⟩
    · rintro ⟨n, hn, -⟩
      exact ⟨n, hn⟩
  · intro text
    constructor
    · rintro ⟨bytes, h⟩
      exact isNumeral_of_encode_int h
    · intro h
      obtain ⟨n, hn⟩ := Decimal.isNumeral_iff.mp h
      exact ⟨_, encode_int_of_denotes hn⟩
  · intro n
    have hprint := Decimal.denotes_print n
    exact ⟨_, _, rfl, hprint, encode_int_of_denotes hprint, Number.read_encode n⟩

/-- A negative zero with zeros in front is packed like a plain zero, and unlike a one. -/
theorem integers_packed_by_value_zero :
    Decimal.Denotes "-00" 0 ∧ Decimal.Denotes "0" 0 ∧ Decimal.Denotes "+1" 1 ∧
      (Expr.int "-00").encode = (Expr.int "0").encode ∧
      (Expr.int "-00").encode ≠ (Expr.int "+1").encode ∧
      (Expr.int "-00").packWithin 1 = (Expr.int "-00").encode.map (0x05 :: ·) := by
  have hzero : Decimal.Denotes "-00" 0 := Decimal.parse?_eq_some_iff.mp (by decide +kernel)
  have hplain : Decimal.Denotes "0" 0 := Decimal.parse?_eq_some_iff.mp (by decide +kernel)
  have hone : Decimal.Denotes "+1" 1 := Decimal.parse?_eq_some_iff.mp (by decide +kernel)
  obtain ⟨-, -, -, hiff, -, hpack⟩ := integers_packed_by_value
  refine ⟨hzero, hplain, hone, (hiff _ _ _ _ hzero hplain).mpr rfl, ?_, hpack _ 1 (by decide)⟩
  intro hsame
  exact absurd ((hiff _ _ _ _ hzero hone).mp hsame) (by decide)

/-- A malformed pair shows the characters of the text that stand there, as far as they fit into two
octets. -/
theorem pair_of_malformed {text : String} {malformed : Hex.Malformed}
    (h : Hex.decode text = .error malformed) :
    malformed.pair = String.ofList (Text.Utf8.cut 2 (text.toList.drop malformed.offset)) := by
  obtain ⟨hfirst, hpair⟩ := Hex.decode_eq_error_iff.mp h
  have hdigits := Hex.isDigit_of_firstBad hfirst
  obtain ⟨rest, hchars, hback⟩ := Text.Utf8.exists_rest_of_ofText
    (List.take_append_drop malformed.offset (Bytes.ofText text)).symm
    fun b hb => Hex.lt_of_isDigit (hdigits b hb)
  have hlength : ((Bytes.ofText text).take malformed.offset).length = malformed.offset :=
    List.length_take_of_le (Nat.le_of_lt hfirst.1.2.1)
  have hrest : text.toList.drop malformed.offset = rest := by
    rw [hchars, List.drop_left' (by rw [List.length_map, hlength])]
  rw [hpair, hback, Text.Utf8.decodeLossy_take, String.toList_ofList, hrest]

theorem encode_ofBytes (bytes : Bytes) :
    (Expr.ofBytes bytes).encode = .ok (0x0a :: Bytes.framed bytes) := by
  rw [Expr.ofBytes, Expr.encode, encodeBehind_bytes (by decide), Hex.decode_encode]
  rfl

theorem packWithin_ofBytes {limit : Nat} (h : 1 ≤ limit) (bytes : Bytes) :
    (Expr.ofBytes bytes).packWithin limit = .ok (0x05 :: 0x0a :: Bytes.framed bytes) := by
  rw [Expr.ofBytes, Expr.packWithin, encodeBehind_bytes h, Hex.decode_encode]
  rfl

/-- Hexadecimal texts are those of an even number of digits, and each is, but for the case of its
letters, what its octets are printed as. Any other text is refused for the octets at the first even
offset at which no two digits stand. That offset lies within the text, digits alone stand in front
of it, and what is shown are the characters that begin there. -/
theorem octets_packed_as_spelled :
    (∀ text, (∃ bytes, Hex.decode text = .ok bytes) ↔
      Even (Bytes.ofText text).length ∧ ∀ b ∈ Bytes.ofText text, Hex.IsDigit b) ∧
    (∀ text bytes, Hex.decode text = .ok bytes → Hex.encode bytes = text.toLower) ∧
    (∀ bytes, Hex.decode (Hex.encode bytes) = .ok bytes) ∧
    (∀ bytes, (Expr.ofBytes bytes).encode = .ok (0x0a :: Bytes.framed bytes) ∧
      ∀ limit, 1 ≤ limit →
        (Expr.ofBytes bytes).packWithin limit = .ok (0x05 :: 0x0a :: Bytes.framed bytes)) ∧
    (∀ text malformed, Hex.decode text = .error malformed ↔
      Hex.FirstBad (Bytes.ofText text) malformed.offset ∧
        malformed.pair =
          Text.Utf8.decodeLossy (((Bytes.ofText text).drop malformed.offset).take 2)) ∧
    ∀ text malformed, Hex.decode text = .error malformed →
      malformed.offset < (Bytes.ofText text).length ∧
      (∀ b ∈ (Bytes.ofText text).take malformed.offset, Hex.IsDigit b) ∧
      malformed.message = "can't parse hex byte " ++ Text.quoted malformed.pair ++ " at offset " ++
        Decimal.print malformed.offset ∧
      malformed.pair = String.ofList (Text.Utf8.cut 2 (text.toList.drop malformed.offset)) := by
  refine ⟨Hex.decode_eq_ok_iff_digits, fun _ _ => Hex.encode_of_decode, Hex.decode_encode,
    fun bytes => ⟨encode_ofBytes bytes, fun _ h => packWithin_ofBytes h bytes⟩,
    fun _ _ => Hex.decode_eq_error_iff, ?_⟩
  intro text malformed h
  have hfirst := (Hex.decode_eq_error_iff.mp h).1
  exact ⟨hfirst.1.2.1, Hex.isDigit_of_firstBad hfirst, rfl, pair_of_malformed h⟩

/-- Letters in both cases, and a character of three octets that a pair ends within. -/
theorem octets_packed_as_spelled_cut :
    Hex.decode "cAFe" = .ok [0xca, 0xfe] ∧ Hex.encode [0xca, 0xfe] = "cAFe".toLower ∧
      (Expr.ofBytes [0xca, 0xfe]).packWithin 1 =
        .ok [0x05, 0x0a, 0x00, 0x00, 0x00, 0x02, 0xca, 0xfe] ∧
      Hex.decode "00\u20ac" = .error ⟨"\ufffd", 2⟩ ∧
      (∀ b ∈ (Bytes.ofText "00\u20ac").take 2, Hex.IsDigit b) ∧
      Text.Utf8.decodeLossy [0xe2, 0x82] = "\ufffd" := by
  obtain ⟨-, hprinted, -, hpacked, hiff, hrefused⟩ := octets_packed_as_spelled
  have hread : Hex.decode "cAFe" = .ok [0xca, 0xfe] := by decide +kernel
  have hcut : Hex.decode "00\u20ac" = .error ⟨"\ufffd", 2⟩ := by decide +kernel
  have hdigits := (hrefused _ _ hcut).2.1
  have hpair := ((hiff _ _).mp hcut).2
  exact ⟨hread, hprinted _ _ hread, (hpacked [0xca, 0xfe]).2 1 (by decide), hcut, hdigits,
    hpair.symm⟩

end Micheline.Pack
