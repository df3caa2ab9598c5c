import Micheline.Proofs.Base58

/-!
The first letters of base-58 text. Letters are the digits of a number too, and an octet string is
written with them in front exactly as long as its own number stays between theirs and the next one,
each times a power of 58. The length of the text is then known as well.
-/

namespace Micheline.Base58

/-- The number that octets stand for, the first of them the most significant. -/
def number (bytes : Bytes) : Nat :=
  Radix.value 256 (bytes.map UInt8.toNat)

theorem number_append (front back : Bytes) :
    number (front ++ back) = number front * 256 ^ back.length + number back := by
  rw [number, List.map_append, Radix.value_append, List.length_map]
  rfl

theorem number_lt (bytes : Bytes) : number bytes < 256 ^ bytes.length := by
  rw [← List.length_map UInt8.toNat]
  apply Radix.value_lt_pow (by decide)
  intro d hd
  obtain ⟨byte, -, rfl⟩ := List.mem_map.mp hd
  exact byte.toNat_lt

/-- Octets that do not begin with a zero are written without a `1` in front. -/
theorem toList_encode {bytes : Bytes} (h : bytes.headD 0 ≠ 0) :
    (encode bytes).toList = (Radix.digits 58 (number bytes)).map symbol := by
  have hzeros : (bytes.map UInt8.toNat).takeWhile (· == 0) = [] := by
    cases bytes with
    | nil => rfl
    | cons byte bytes =>
        have hbyte : byte.toNat ≠ 0 := fun hzero => h (UInt8.toNat_inj.mp hzero)
        rw [List.map_cons, List.takeWhile_cons_of_neg (by simpa using hbyte)]
  rw [encode, String.toList_ofList, Radix.convert, hzeros, List.nil_append, number]

/-- The digits that letters of the alphabet stand for. -/
def digitsOf (letters : List Char) : List Nat :=
  letters.map fun c => alphabet.idxOf c

theorem lt_of_mem_digitsOf {letters : List Char} (h : letters ⊆ alphabet) {d : Nat}
    (hd : d ∈ digitsOf letters) : d < 58 := by
  obtain ⟨c, hc, rfl⟩ := List.mem_map.mp hd
  exact List.idxOf_lt_length_of_mem (h hc)

theorem map_symbol_digitsOf {letters : List Char} (h : letters ⊆ alphabet) :
    (digitsOf letters).map symbol = letters := by
  have hid : ∀ c ∈ letters, (symbol ∘ fun c => alphabet.idxOf c) c = id c := by
    intro c hc
    have hlt := List.idxOf_lt_length_of_mem (h hc)
    simp [symbol, List.getElem?_eq_getElem hlt]
  rw [digitsOf, List.map_map, List.map_congr_left hid, List.map_id]

/-- Whether all octet strings that begin with `lead` and go on for `room` octets are written with
the letters in front and in this many characters. -/
def Covers (letters : List Char) (length : Nat) (lead : Bytes) (room : Nat) : Prop :=
  (letters ⊆ alphabet ∧ letters.length ≤ length) ∧
    ((digitsOf letters).headD 0 ≠ 0 ∧ lead.headD 0 ≠ 0) ∧
    Radix.value 58 (digitsOf letters) * 58 ^ (length - letters.length) ≤ number lead * 256 ^ room ∧
    (number lead + 1) * 256 ^ room ≤
      (Radix.value 58 (digitsOf letters) + 1) * 58 ^ (length - letters.length)

instance (letters : List Char) (length : Nat) (lead : Bytes) (room : Nat) :
    Decidable (Covers letters length lead room) :=
  inferInstanceAs (Decidable ((_ ∧ _) ∧ (_ ∧ _) ∧ _ ∧ _))

theorem Covers.toList_encode {letters : List Char} {length : Nat} {lead tail : Bytes}
    (h : Covers letters length lead tail.length) :
    ∃ rest, (encode (lead ++ tail)).toList = letters ++ rest ∧
      (letters ++ rest).length = length := by
  obtain ⟨⟨hletters, hlength⟩, ⟨hdigits, hlead⟩, hlow, hhigh⟩ := h
  have hhead : (lead ++ tail).headD 0 ≠ 0 := by
    cases lead with
    | nil => exact absurd rfl hlead
    | cons byte lead => exact hlead
  have htail := number_lt tail
  have hnumber := number_append lead tail
  have hbelow : number (lead ++ tail) < (number lead + 1) * 256 ^ tail.length := by
    rw [hnumber, Nat.add_mul, Nat.one_mul]
    exact Nat.add_lt_add_left htail _
  obtain ⟨rest, hrest, hlen⟩ := Radix.digits_eq_append (by decide)
    (Radix.value_pos (by decide) hdigits)
    (Nat.le_trans hlow (hnumber ▸ Nat.le_add_right _ _)) (Nat.lt_of_lt_of_le hbelow hhigh)
  have hhead? : (digitsOf letters).head? ≠ some 0 := by
    intro hzero
    rw [List.headD_eq_head?_getD, hzero] at hdigits
    exact hdigits rfl
  refine ⟨rest.map symbol, ?_, ?_⟩
  · rw [Base58.toList_encode hhead, hrest, List.map_append,
      Radix.digits_value (by decide) (fun d hd => lt_of_mem_digitsOf hletters hd) hhead?,
      map_symbol_digitsOf hletters]
  · rw [List.length_append, List.length_map, hlen]
    exact Nat.add_sub_cancel' hlength

end Micheline.Base58
