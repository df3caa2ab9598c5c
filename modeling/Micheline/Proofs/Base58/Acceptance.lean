import Micheline.Proofs.Base58

/-!
Which texts carry a payload, and what is wrong with the others. A text of the alphabet is the
numeral of exactly one octet string, so whether it is too short, or carries a wrong checksum, is a
question about that octet string.
-/

namespace Micheline.Base58

theorem digit?_eq_none_iff {c : Char} : digit? c = none ↔ c ∉ alphabet :=
  List.idxOf?_eq_none_iff

theorem mapM_digit?_eq_none_iff (cs : List Char) :
    cs.mapM digit? = none ↔ ∃ c ∈ cs, c ∉ alphabet := by
  induction cs with
  | nil => simp
  | cons c cs ih =>
      cases hc : digit? c with
      | none =>
          have hforeign : c ∉ alphabet := digit?_eq_none_iff.mp hc
          simp [hc, hforeign]
      | some d =>
          have hmem : c ∈ alphabet := by
            by_contra hforeign
            rw [digit?_eq_none_iff.mpr hforeign] at hc
            cases hc
          cases hcs : cs.mapM digit? with
          | none => simpa [hc, hcs, hmem] using ih.mp hcs
          | some ds => simpa [hc, hcs, hmem] using ih

theorem decode?_eq_none_iff (text : String) :
    decode? text = none ↔ ∃ c ∈ text.toList, c ∉ alphabet := by
  rw [decode?, Option.map_eq_none_iff, mapM_digit?_eq_none_iff]

theorem decode?_eq_some_iff {text : String} {bytes : Bytes} :
    decode? text = some bytes ↔ encode bytes = text := by
  constructor
  · exact encode_of_decode?
  · rintro rfl
    exact decode?_encode bytes

namespace Check

theorem decode_of_foreign {text : String} (h : ∃ c ∈ text.toList, c ∉ alphabet) :
    decode text = .error .invalidBase58 := by
  rw [decode, (decode?_eq_none_iff text).mpr h]

theorem decode_encode_short {bytes : Bytes} (h : bytes.length < checksumSize) :
    decode (Base58.encode bytes) = .error .missingChecksum := by
  rw [decode, decode?_encode]
  exact if_pos h

theorem decode_encode_append (payload : Bytes) {sum : Bytes} (h : sum.length = checksumSize) :
    decode (Base58.encode (payload ++ sum)) =
      if checksum payload = sum then .ok payload else .error .invalidChecksum := by
  have hlen : (payload ++ sum).length - checksumSize = payload.length := by
    simp [h]
  rw [decode, decode?_encode]
  simp only [hlen, List.take_left, List.drop_left]
  rw [if_neg (by simp [h])]

/-- What a text is: foreign to the alphabet, the numeral of too few octets, or the numeral of a
payload with some checksum behind it. -/
theorem exists_reading (text : String) :
    (∃ c ∈ text.toList, c ∉ alphabet) ∨
      (∃ bytes, Base58.encode bytes = text ∧ bytes.length < checksumSize) ∨
      ∃ payload sum, Base58.encode (payload ++ sum) = text ∧ sum.length = checksumSize := by
  cases hdecode : decode? text with
  | none => exact .inl ((decode?_eq_none_iff text).mp hdecode)
  | some bytes =>
      have htext : Base58.encode bytes = text := decode?_eq_some_iff.mp hdecode
      by_cases hshort : bytes.length < checksumSize
      · exact .inr (.inl ⟨bytes, htext, hshort⟩)
      · refine .inr (.inr ⟨bytes.take (bytes.length - checksumSize),
          bytes.drop (bytes.length - checksumSize), ?_, ?_⟩)
        · rw [List.take_append_drop, htext]
        · rw [List.length_drop]
          omega

theorem decode_eq_ok_iff {text : String} {payload : Bytes} :
    decode text = .ok payload ↔ encode payload = text := by
  constructor
  · exact encode_of_decode
  · rintro rfl
    exact decode_encode payload

theorem decode_eq_invalidBase58_iff (text : String) :
    decode text = .error .invalidBase58 ↔ ∃ c ∈ text.toList, c ∉ alphabet := by
  refine ⟨fun h => ?_, decode_of_foreign⟩
  obtain hforeign | ⟨bytes, rfl, hshort⟩ | ⟨payload, sum, rfl, hsum⟩ := exists_reading text
  · exact hforeign
  · rw [decode_encode_short hshort] at h
    cases h
  · rw [decode_encode_append payload hsum] at h
    split at h <;> cases h

theorem decode_eq_missingChecksum_iff (text : String) :
    decode text = .error .missingChecksum ↔
      ∃ bytes, Base58.encode bytes = text ∧ bytes.length < checksumSize := by
  constructor
  · intro h
    obtain hforeign | hshort | ⟨payload, sum, rfl, hsum⟩ := exists_reading text
    · rw [decode_of_foreign hforeign] at h
      cases h
    · exact hshort
    · rw [decode_encode_append payload hsum] at h
      split at h <;> cases h
  · rintro ⟨bytes, rfl, hshort⟩
    exact decode_encode_short hshort

theorem decode_eq_invalidChecksum_iff (text : String) :
    decode text = .error .invalidChecksum ↔
      ∃ payload sum, Base58.encode (payload ++ sum) = text ∧ sum.length = checksumSize ∧
        sum ≠ checksum payload := by
  constructor
  · intro h
    obtain hforeign | ⟨bytes, rfl, hshort⟩ | ⟨payload, sum, rfl, hsum⟩ := exists_reading text
    · rw [decode_of_foreign hforeign] at h
      cases h
    · rw [decode_encode_short hshort] at h
      cases h
    · rw [decode_encode_append payload hsum] at h
      split at h
      · cases h
      next hne => exact ⟨payload, sum, rfl, hsum, fun heq => hne heq.symm⟩
  · rintro ⟨payload, sum, rfl, hsum, hne⟩
    rw [decode_encode_append payload hsum, if_neg hne.symm]

/-- Payloads correspond one to one to the texts that are accepted, and the error on any other text
is the first that applies: a foreign character, too few octets, a wrong checksum. -/
theorem texts_correspond_to_payloads :
    (∀ payload, decode (encode payload) = .ok payload) ∧
    (∀ text payload, decode text = .ok payload ↔ encode payload = text) ∧
    (∀ text, decode text = .error .invalidBase58 ↔ ∃ c ∈ text.toList, c ∉ alphabet) ∧
    (∀ text, decode text = .error .missingChecksum ↔
      ∃ bytes, Base58.encode bytes = text ∧ bytes.length < 4) ∧
    ∀ text, decode text = .error .invalidChecksum ↔
      ∃ payload sum, Base58.encode (payload ++ sum) = text ∧ sum.length = 4 ∧
        sum ≠ checksum payload :=
  ⟨decode_encode, fun _ _ => decode_eq_ok_iff, decode_eq_invalidBase58_iff,
    decode_eq_missingChecksum_iff, decode_eq_invalidChecksum_iff⟩

end Check
end Micheline.Base58
