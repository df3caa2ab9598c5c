import Micheline.Proofs.Address.Acceptance
import Micheline.Proofs.Identifier.Appearance

/-!
How accounts look in text. Every accepted text begins with three letters that tell the kind of the
account, and goes on to a fixed length. Reading never looks at these letters: they are what the lead
octets of a kind amount to in base 58, so they could not be relied on if some hash or some checksum
carried over into them.
-/

namespace Micheline

namespace AccountKind

/-- The letters that the texts of a kind begin with. -/
def letters : AccountKind → String
  | .tz1 => "tz1"
  | .tz2 => "tz2"
  | .tz3 => "tz3"
  | .kt1 => "KT1"

/-- A text of 36 characters shows the kind by its letters, and does not show another one. -/
def ShownBy (kind : AccountKind) (text : String) : Prop :=
  text.length = 36 ∧ ∀ other : AccountKind, other.letters.toList <+: text.toList ↔ other = kind

theorem appearance_identifierKind (kind : AccountKind) :
    kind.identifierKind.appearance = ⟨kind.letters, 36⟩ := by
  cases kind <;> rfl

theorem identifierKind_ne_scalar (kind : AccountKind) :
    kind.identifierKind ≠ .secp256k1Scalar := by
  cases kind <;> decide

theorem eq_of_letters {kind other : AccountKind} {text : List Char}
    (h : kind.letters.toList <+: text) (h' : other.letters.toList <+: text) : other = kind := by
  have hsame : other.letters.toList = kind.letters.toList := by
    apply (List.prefix_of_prefix_length_le h' h ?_).eq_of_length
    · cases kind <;> cases other <;> rfl
    · cases kind <;> cases other <;> exact Nat.le_refl 3
  revert hsame
  cases kind <;> cases other <;> decide

theorem shownBy_of_describes {kind : AccountKind} {text : String}
    (h : kind.identifierKind.appearance.Describes text) : kind.ShownBy text := by
  rw [appearance_identifierKind] at h
  obtain ⟨hletters, hlength⟩ := h
  refine ⟨hlength, fun other => ⟨eq_of_letters hletters, ?_⟩⟩
  rintro rfl
  exact hletters

theorem shownBy_encode (kind : AccountKind) {hash sum : Bytes} (hhash : hash.length = 20)
    (hsum : sum.length = 4) :
    kind.ShownBy (Base58.encode (kind.identifierKind.lead ++ hash ++ sum)) := by
  have hsize : hash.length = kind.identifierKind.size := by
    rw [hhash, Account.size_identifierKind, Account.hashSize]
  apply shownBy_of_describes
  exact (Identifier.appearance_describes_iff _ hsize hsum).mpr kind.identifierKind_ne_scalar

end AccountKind

theorem Account.IsText.shown {account : Account} {text : String} (h : account.IsText text) :
    account.kind.ShownBy text := by
  rw [IsText, Identifier.encode] at h
  split at h
  · obtain rfl := Except.ok.inj h
    exact account.kind.shownBy_encode account.length_hash (Base58.Check.length_checksum _)
  · cases h

namespace Address

/-- What stands in front of the first percent sign of an accepted text shows the kind of the
account. So does the text of any hash of twenty octets, and would do so with any checksum. -/
theorem accepted_text_shows_kind :
    (∀ text address, parse text = .ok address →
      address.account.kind.ShownBy ((segments text).getD 0 "")) ∧
    (∀ (kind : AccountKind) (hash : Bytes), hash.length = 20 →
      ∃ text, Identifier.encode kind.identifierKind hash = .ok text ∧ kind.ShownBy text) ∧
    ∀ (kind : AccountKind) (hash sum : Bytes), hash.length = 20 → sum.length = 4 →
      kind.ShownBy (Base58.encode (kind.identifierKind.lead ++ hash ++ sum)) := by
  refine ⟨?_, ?_, ?_⟩
  · intro text address h
    have htext := (parse_eq_ok_iff.mp h).1
    rw [accountPart_eq] at htext
    exact htext.shown
  · intro kind hash hhash
    obtain ⟨text, htext⟩ := Account.exists_isText ⟨kind, hash, hhash⟩
    exact ⟨text, htext, htext.shown⟩
  · intro kind hash sum hhash hsum
    exact kind.shownBy_encode hhash hsum

/-- A contract with an entrypoint, and the largest hash with the largest checksum. -/
theorem accepted_text_shows_kind_extremes :
    let text := "KT1BRd2ka5q2cPRdXALtXD1QZ38CPam2j1ye%a"
    let hash : Bytes := List.replicate 20 0xff
    let sum : Bytes := List.replicate 4 0xff
    (∃ address, parse text = .ok address ∧ address.account.kind = .kt1 ∧
      AccountKind.ShownBy .kt1 "KT1BRd2ka5q2cPRdXALtXD1QZ38CPam2j1ye") ∧
    (∃ other, Identifier.encode .contractTz2Hash hash = .ok other ∧
      AccountKind.ShownBy .tz2 other) ∧
    AccountKind.ShownBy .tz2
      (Base58.encode (Identifier.Kind.contractTz2Hash.lead ++ hash ++ sum)) := by
  intro text hash sum
  let account : Account := ⟨.kt1, [0x1f, 0x2d, 0x82, 0x5f, 0xdd, 0x9d, 0xa2, 0x19, 0x23, 0x55,
    0x10, 0x33, 0x5e, 0x55, 0x85, 0x20, 0x23, 0x5f, 0x4f, 0x54], rfl⟩
  have hparse : parse text = .ok ⟨account, ⟨"a"⟩⟩ := by decide +kernel
  have hhead : (segments text).getD 0 "" = "KT1BRd2ka5q2cPRdXALtXD1QZ38CPam2j1ye" := by
    decide +kernel
  obtain ⟨haccepted, hrendered, hany⟩ := accepted_text_shows_kind
  have hshown := haccepted text _ hparse
  rw [hhead] at hshown
  exact ⟨⟨_, hparse, rfl, hshown⟩, hrendered .tz2 hash (by decide),
    hany .tz2 hash sum (by decide) (by decide)⟩

end Address
end Micheline
