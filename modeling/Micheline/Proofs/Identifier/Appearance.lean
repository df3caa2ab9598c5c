import Micheline.Identifier
import Micheline.Proofs.Base58.Numeral

/-!
How identifiers look in text. Lead octets and payload sizes are chosen so that all texts of a kind
begin with the same letters and have the same length, whatever payload and checksum they carry. One
kind does not look as it is meant to: the scalar, whose letters are those of a payload that is one
octet shorter.
-/

namespace Micheline.Identifier

/-- The letters that a text begins with, and the number of its characters. -/
structure Appearance where
  letters : String
  length : Nat
deriving DecidableEq, Repr

def Appearance.Describes (a : Appearance) (text : String) : Prop :=
  a.letters.toList <+: text.toList ∧ text.length = a.length

/-- The appearance that is meant for the texts of a kind. -/
def Kind.appearance : Kind → Appearance
  | .chainId => ⟨"Net", 15⟩
  | .blockHash => ⟨"B", 51⟩
  | .operationHash => ⟨"o", 51⟩
  | .operationListHash => ⟨"Lo", 52⟩
  | .operationListListHash => ⟨"LLo", 53⟩
  | .protocolHash => ⟨"P", 51⟩
  | .contextHash => ⟨"Co", 52⟩
  | .contractTz1Hash => ⟨"tz1", 36⟩
  | .contractTz2Hash => ⟨"tz2", 36⟩
  | .contractTz3Hash => ⟨"tz3", 36⟩
  | .contractKt1Hash => ⟨"KT1", 36⟩
  | .cryptoboxPublicKeyHash => ⟨"id", 30⟩
  | .seedEd25519 => ⟨"edsk", 54⟩
  | .publicKeyEd25519 => ⟨"edpk", 54⟩
  | .secretKeySecp256k1 => ⟨"spsk", 54⟩
  | .secretKeyP256 => ⟨"p2sk", 54⟩
  | .encryptedSeedEd25519 => ⟨"edesk", 88⟩
  | .encryptedSecretKeySecp256k1 => ⟨"spesk", 88⟩
  | .encryptedSecretKeyP256 => ⟨"p2esk", 88⟩
  | .publicKeySecp256k1 => ⟨"sppk", 55⟩
  | .publicKeyP256 => ⟨"p2pk", 55⟩
  | .secp256k1Scalar => ⟨"SSp", 53⟩
  | .secp256k1Element => ⟨"GSp", 54⟩
  | .secretKeyEd25519 => ⟨"edsk", 98⟩
  | .ed25519Signature => ⟨"edsig", 99⟩
  | .secp256k1Signature => ⟨"spsig1", 99⟩
  | .p256Signature => ⟨"p2sig", 98⟩
  | .unknownSignature => ⟨"sig", 96⟩

theorem Appearance.describes_encode {a : Appearance} {lead payload sum : Bytes} {size : Nat}
    (h : Base58.Covers a.letters.toList a.length lead (size + Base58.Check.checksumSize))
    (hpayload : payload.length = size) (hsum : sum.length = Base58.Check.checksumSize) :
    a.Describes (Base58.encode (lead ++ payload ++ sum)) := by
  rw [← hpayload, ← hsum, ← List.length_append] at h
  obtain ⟨rest, htext, hlength⟩ := h.toList_encode
  rw [← List.append_assoc] at htext
  refine ⟨⟨rest, htext.symm⟩, ?_⟩
  rw [← String.length_toList, htext, hlength]

theorem Kind.covers_lead {kind : Kind} (h : kind ≠ .secp256k1Scalar) :
    Base58.Covers kind.appearance.letters.toList kind.appearance.length kind.lead
      (kind.size + Base58.Check.checksumSize) := by
  -- the kinds are few, so the bounds on their numerals are checked one kind after the other
  have htable : ∀ kind ∈ Kind.all, kind ≠ .secp256k1Scalar →
      Base58.Covers kind.appearance.letters.toList kind.appearance.length kind.lead
        (kind.size + Base58.Check.checksumSize) := by
    decide +kernel
  exact htable kind kind.mem_all h

/-- How the texts of scalars begin, and how long they are. -/
def scalarAppearance : Appearance := ⟨"2wJv", 55⟩

theorem Kind.covers_lead_scalar :
    Base58.Covers scalarAppearance.letters.toList scalarAppearance.length
      Kind.secp256k1Scalar.lead (Kind.secp256k1Scalar.size + Base58.Check.checksumSize) := by
  decide +kernel

/-- The letters meant for a scalar are those of a payload of 32 octets. -/
theorem scalar_of_32_looks_as_meant {payload sum : Bytes} (hpayload : payload.length = 32)
    (hsum : sum.length = Base58.Check.checksumSize) :
    Kind.secp256k1Scalar.appearance.Describes
      (Base58.encode (Kind.secp256k1Scalar.lead ++ payload ++ sum)) :=
  Appearance.describes_encode (by decide +kernel) hpayload hsum

theorem scalar_describes {payload sum : Bytes}
    (hpayload : payload.length = Kind.secp256k1Scalar.size)
    (hsum : sum.length = Base58.Check.checksumSize) :
    scalarAppearance.Describes
      (Base58.encode (Kind.secp256k1Scalar.lead ++ payload ++ sum)) :=
  Appearance.describes_encode Kind.covers_lead_scalar hpayload hsum

theorem appearance_describes_iff (kind : Kind) {payload sum : Bytes}
    (hpayload : payload.length = kind.size) (hsum : sum.length = Base58.Check.checksumSize) :
    kind.appearance.Describes (Base58.encode (kind.lead ++ payload ++ sum)) ↔
      kind ≠ .secp256k1Scalar := by
  constructor
  · rintro ⟨-, hmeant⟩ rfl
    obtain ⟨-, hactual⟩ := scalar_describes hpayload hsum
    rw [hactual] at hmeant
    exact absurd hmeant (by decide)
  · intro h
    exact Appearance.describes_encode (Kind.covers_lead h) hpayload hsum

/-- Every payload of its kind's size has a text, and the text looks as it is meant to exactly if
the kind is not the scalar, whose texts all have another look. The digest has no part in this:
other octets in the place of the checksum would change nothing. -/
theorem encode_looks_as_meant (kind : Kind) {payload : Bytes}
    (hpayload : payload.length = kind.size) :
    (∃ text, encode kind payload = .ok text ∧
      (kind.appearance.Describes text ↔ kind ≠ .secp256k1Scalar) ∧
      (kind = .secp256k1Scalar → scalarAppearance.Describes text)) ∧
    ∀ sum : Bytes, sum.length = 4 →
      (kind.appearance.Describes (Base58.encode (kind.lead ++ payload ++ sum)) ↔
        kind ≠ .secp256k1Scalar) := by
  constructor
  · have hsum := Base58.Check.length_checksum (kind.lead ++ payload)
    refine ⟨Base58.Check.encode (kind.lead ++ payload), if_pos hpayload,
      appearance_describes_iff kind hpayload hsum, ?_⟩
    rintro rfl
    exact scalar_describes hpayload hsum
  · intro sum hsum
    exact appearance_describes_iff kind hpayload hsum

/-- The largest signature, also with the largest checksum, and the smallest scalar. -/
theorem encode_looks_as_meant_extremes :
    let signature : Bytes := List.replicate 64 0xff
    let scalar : Bytes := List.replicate 33 0
    (∃ text, encode .ed25519Signature signature = .ok text ∧
      Appearance.Describes ⟨"edsig", 99⟩ text) ∧
    Appearance.Describes ⟨"edsig", 99⟩
      (Base58.encode (Kind.ed25519Signature.lead ++ signature ++ List.replicate 4 0xff)) ∧
    ∃ text, encode .secp256k1Scalar scalar = .ok text ∧
      ¬ Appearance.Describes ⟨"SSp", 53⟩ text ∧ scalarAppearance.Describes text := by
  intro signature scalar
  obtain ⟨⟨text, hencode, hlook, -⟩, hany⟩ :=
    encode_looks_as_meant .ed25519Signature (show signature.length = _ by decide)
  obtain ⟨⟨text', hencode', hlook', hother⟩, -⟩ :=
    encode_looks_as_meant .secp256k1Scalar (show scalar.length = _ by decide)
  exact ⟨⟨text, hencode, hlook.mpr (by decide)⟩, (hany _ (by decide)).mpr (by decide),
    text', hencode', fun h => hlook'.mp h rfl, hother rfl⟩

/-- The scalar of 33 zero octets does not look as it is meant to. -/
theorem scalar_looks_otherwise :
    let payload : Bytes := List.replicate 33 0
    let text := "2wJvW7xsKsmiRaCkYEWZ4rWpHdWgDTgXNhoNEj6c6jyaqKraoTR1DE6"
    payload.length = Kind.secp256k1Scalar.size ∧ encode .secp256k1Scalar payload = .ok text ∧
      ¬ Kind.secp256k1Scalar.appearance.Describes text := by
  intro payload text
  have hlength : payload.length = Kind.secp256k1Scalar.size := by decide
  have htext : Base58.Check.encode (Kind.secp256k1Scalar.lead ++ payload) = text := by
    decide +kernel
  refine ⟨hlength, ?_, ?_⟩
  · rw [encode, if_pos hlength, htext]
  · rintro ⟨-, hshort⟩
    exact absurd hshort (by decide)

end Micheline.Identifier
