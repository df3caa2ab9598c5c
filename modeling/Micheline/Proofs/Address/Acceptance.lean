import Micheline.Proofs.Address
import Micheline.Proofs.Base58.Acceptance

/-!
Which texts denote addresses, and what is said of the others. A text is accepted exactly if its
first segment is the rendering of an account; the second segment is the name of the entrypoint and
the others are not looked at. A refusal names the whole text, and its cause the first segment only.
-/

namespace Micheline

namespace Identifier

/-- What is wrong with a text that is not the rendering of a candidate. -/
def refusal (text : String) : Error :=
  match Base58.Check.decode text with
  | .error cause => .base58 text cause
  | .ok _ => .unrecognised text

theorem refusal_ne_wrongSize (text : String) (kind : Kind) (expected actual : Nat) :
    refusal text ≠ .wrongSize kind expected actual := by
  rw [refusal]
  split <;> simp

theorem mem_alphabet_of_encode {kind : Kind} {payload : Bytes} {text : String}
    (h : encode kind payload = .ok text) {c : Char} (hc : c ∈ text.toList) :
    c ∈ Base58.alphabet := by
  by_contra hforeign
  obtain ⟨decoded, hdecoded, -⟩ := encode_eq_ok_iff.mp h
  rw [Base58.Check.decode_of_foreign ⟨c, hc, hforeign⟩] at hdecoded
  cases hdecoded

theorem length_payload_of_encode {kind : Kind} {payload : Bytes} {text : String}
    (h : encode kind payload = .ok text) : payload.length = kind.size := by
  obtain ⟨_, _, hpayload⟩ := encode_eq_ok_iff.mp h
  exact (Kind.payload?_eq_some_iff.mp hpayload).2

theorem eq_refusal_of_resolve {candidates : List Kind} {text : String} {error : Error}
    (h : resolve candidates text = .error error) : error = refusal text := by
  cases hdecode : Base58.Check.decode text with
  | error cause =>
      rw [resolve_of_decode_error hdecode] at h
      rw [refusal, hdecode]
      exact (Except.error.inj h).symm
  | ok decoded =>
      rw [resolve_of_decode_ok hdecode] at h
      rw [refusal, hdecode]
      cases hclass : classify? candidates decoded with
      | some i =>
          rw [hclass] at h
          cases h
      | none =>
          rw [hclass] at h
          exact (Except.error.inj h).symm

end Identifier

namespace Account

theorem size_identifierKind (k : AccountKind) : k.identifierKind.size = hashSize := by
  cases k <;> rfl

/-- The rendering of an account. -/
def IsText (account : Account) (text : String) : Prop :=
  Identifier.encode account.kind.identifierKind account.hash = .ok text

theorem exists_isText (account : Account) : ∃ text, account.IsText text := by
  refine ⟨_, if_pos ?_⟩
  rw [account.length_hash, size_identifierKind]

theorem exists_of_resolve {text : String} {identifier : Identifier}
    (h : Identifier.resolve (AccountKind.all.map AccountKind.identifierKind) text =
      .ok identifier) :
    ∃ account, ofIdentifier text identifier = .ok account := by
  obtain ⟨hkind, hencode⟩ := Identifier.resolve_eq_ok_iff.mp h
  obtain ⟨k, -, hk⟩ := List.mem_map.mp hkind
  have hlen : identifier.payload.length = hashSize := by
    rw [Identifier.length_payload_of_encode hencode, ← hk, size_identifierKind]
  refine ⟨⟨k, identifier.payload, hlen⟩, ofIdentifier_eq_ok_iff.mpr ?_⟩
  rw [hk]

/-- The branches for another kind or another size are never taken. -/
theorem eq_invalid_of_parse {text : String} {error : Error} (h : parse text = .error error) :
    error = .invalid text (Identifier.refusal text) := by
  rw [parse] at h
  cases hresolve : Identifier.resolve (AccountKind.all.map AccountKind.identifierKind) text with
  | ok identifier =>
      obtain ⟨account, haccount⟩ := exists_of_resolve hresolve
      rw [hresolve] at h
      dsimp only at h
      rw [haccount] at h
      cases h
  | error cause =>
      rw [hresolve] at h
      rw [← Identifier.eq_refusal_of_resolve hresolve]
      exact (Except.error.inj h).symm

theorem parse_eq_error_iff {text : String} {error : Error} :
    parse text = .error error ↔
      (∀ account : Account, ¬ account.IsText text) ∧
        error = .invalid text (Identifier.refusal text) := by
  constructor
  · intro h
    refine ⟨fun account htext => ?_, eq_invalid_of_parse h⟩
    rw [parse_eq_ok_iff.mpr htext] at h
    cases h
  · rintro ⟨hnone, rfl⟩
    cases hparse : parse text with
    | ok account => exact absurd (parse_eq_ok_iff.mp hparse) (hnone account)
    | error error => rw [eq_invalid_of_parse hparse]

end Account

namespace Address

theorem separator_notMem_of_isText {account : Account} {text : String}
    (h : account.IsText text) : separator ∉ text.toList := by
  intro hmem
  exact absurd (Identifier.mem_alphabet_of_encode h hmem) (by decide)

theorem parse_eq_ok_iff {text : String} {address : Address} :
    parse text = .ok address ↔
      address.account.IsText (accountPart text) ∧
        address.entrypoint.name = entrypointPart text := by
  rw [Account.IsText, ← Account.parse_eq_ok_iff]
  unfold parse
  cases Account.parse (accountPart text) with
  | ok account =>
      constructor
      · intro h
        obtain rfl := Except.ok.inj h
        exact ⟨rfl, rfl⟩
      · rintro ⟨haccount, hname⟩
        obtain rfl := Except.ok.inj haccount
        rw [← hname]
  | error error => cases error <;> simp

theorem parse_eq_error_iff {text : String} {error : Account.Error} :
    parse text = .error error ↔
      (∀ account : Account, ¬ account.IsText (accountPart text)) ∧
        error = .invalid text (Identifier.refusal (accountPart text)) := by
  unfold parse
  cases hparse : Account.parse (accountPart text) with
  | ok account =>
      have htext : account.IsText (accountPart text) := Account.parse_eq_ok_iff.mp hparse
      constructor
      · intro h
        cases h
      · intro h
        exact absurd htext (h.1 account)
  | error cause =>
      obtain ⟨hnone, rfl⟩ := Account.parse_eq_error_iff.mp hparse
      constructor
      · intro h
        exact ⟨hnone, (Except.error.inj h).symm⟩
      · intro h
        exact congrArg Except.error h.2.symm

theorem parse_text {account : Account} {text : String} (h : account.IsText text) :
    parse text = .ok ⟨account, ⟨""⟩⟩ := by
  have hnot := separator_notMem_of_isText h
  rw [parse_eq_ok_iff, accountPart, entrypointPart, beforeSeparator_of_notMem hnot,
    afterSeparator_of_notMem hnot, String.ofList_toList]
  exact ⟨h, rfl⟩

theorem parse_text_append {account : Account} {text : String} (h : account.IsText text)
    {whole : String} {rest : List Char} (hwhole : whole.toList = text.toList ++ separator :: rest) :
    parse whole = .ok ⟨account, ⟨String.ofList (beforeSeparator rest)⟩⟩ := by
  have hnot := separator_notMem_of_isText h
  rw [parse_eq_ok_iff, accountPart, entrypointPart, hwhole, beforeSeparator_append hnot,
    afterSeparator_append hnot, String.ofList_toList]
  exact ⟨h, rfl⟩

/-- An account alone is a text of an address that names no entrypoint. -/
theorem parse_account_iff {text : String} {account : Account} :
    Account.parse text = .ok account ↔
      separator ∉ text.toList ∧ ∃ entrypoint, parse text = .ok ⟨account, entrypoint⟩ := by
  rw [Account.parse_eq_ok_iff]
  constructor
  · intro h
    exact ⟨separator_notMem_of_isText h, _, parse_text h⟩
  · rintro ⟨hnot, entrypoint, h⟩
    have htext := (parse_eq_ok_iff.mp h).1
    rw [accountPart, beforeSeparator_of_notMem hnot, String.ofList_toList] at htext
    exact htext

/-- The accepted texts are the renderings of accounts, alone or in front of the name of an
entrypoint and of what is not read. Any other text is refused, with the whole text and with what
is wrong with its first segment. -/
theorem parse_accepts_renderings :
    (∀ text address, parse text = .ok address ↔
      address.account.IsText ((segments text).getD 0 "") ∧
        address.entrypoint.name = (segments text).getD 1 "") ∧
    (∀ account name, separator ∉ name.toList → ∃ text, account.IsText text ∧
      parse text = .ok ⟨account, ⟨""⟩⟩ ∧
      parse (text ++ "%" ++ name) = .ok ⟨account, ⟨name⟩⟩ ∧
      ∀ tail, parse (text ++ "%" ++ name ++ "%" ++ tail) = .ok ⟨account, ⟨name⟩⟩) ∧
    (∀ text error, parse text = .error error ↔
      (∀ account : Account, ¬ account.IsText ((segments text).getD 0 "")) ∧
        error = .invalid text (Identifier.refusal ((segments text).getD 0 ""))) ∧
    (∀ text kind, parse text ≠ .error (.unexpectedKind kind)) ∧
    (∀ text whole kind expected actual,
      parse text ≠ .error (.invalid whole (.wrongSize kind expected actual))) ∧
    ∀ text account, Account.parse text = .ok account ↔
      separator ∉ text.toList ∧ ∃ entrypoint, parse text = .ok ⟨account, entrypoint⟩ := by
  refine ⟨?accepted, ?renderings, ?refused, ?kinds, ?sizes, ?accounts⟩
  case accepted =>
    intro text address
    rw [← accountPart_eq, ← entrypointPart_eq]
    exact parse_eq_ok_iff
  case renderings =>
    intro account name hname
    obtain ⟨text, htext⟩ := account.exists_isText
    refine ⟨text, htext, parse_text htext, ?_, ?_⟩
    · have hwhole : (text ++ "%" ++ name).toList = text.toList ++ separator :: name.toList := by
        simp [separator]
      rw [parse_text_append htext hwhole, beforeSeparator_of_notMem hname, String.ofList_toList]
    · intro tail
      have hwhole : (text ++ "%" ++ name ++ "%" ++ tail).toList =
          text.toList ++ separator :: (name.toList ++ separator :: tail.toList) := by
        simp [separator]
      rw [parse_text_append htext hwhole, beforeSeparator_append hname, String.ofList_toList]
  case refused =>
    intro text error
    rw [← accountPart_eq]
    exact parse_eq_error_iff
  case kinds =>
    intro text kind h
    cases (parse_eq_error_iff.mp h).2
  case sizes =>
    intro text whole kind expected actual h
    have hcause := (Account.Error.invalid.inj (parse_eq_error_iff.mp h).2).2
    exact Identifier.refusal_ne_wrongSize _ _ _ _ hcause.symm
  case accounts =>
    intro text account
    exact parse_account_iff

/-- A contract with an entrypoint and a segment behind that. -/
theorem parse_accepts_renderings_contract :
    let account : Account := ⟨.kt1, [0x1f, 0x2d, 0x82, 0x5f, 0xdd, 0x9d, 0xa2, 0x19, 0x23, 0x55,
      0x10, 0x33, 0x5e, 0x55, 0x85, 0x20, 0x23, 0x5f, 0x4f, 0x54], rfl⟩
    let text := "KT1BRd2ka5q2cPRdXALtXD1QZ38CPam2j1ye"
    separator ∉ "a".toList ∧ account.IsText text ∧
      parse (text ++ "%a") = .ok ⟨account, ⟨"a"⟩⟩ ∧
      parse (text ++ "%a%b") = .ok ⟨account, ⟨"a"⟩⟩ ∧
      ∀ other, Account.parse (text ++ "%a") ≠ .ok other := by
  intro account text
  have hname : separator ∉ "a".toList := by decide
  have htext : account.IsText text := by
    have hchecked : Base58.Check.encode
        (account.kind.identifierKind.lead ++ account.hash) = text := by
      decide +kernel
    rw [Account.IsText, Identifier.encode, if_pos (by decide), hchecked]
  obtain ⟨-, hrendered, -, -, -, haccounts⟩ := parse_accepts_renderings
  obtain ⟨rendered, hrendering, -, hentrypoint, htail⟩ := hrendered account "a" hname
  have hsame : rendered = text := Except.ok.inj (hrendering.symm.trans htext)
  subst hsame
  refine ⟨hname, htext, hentrypoint, htail "b", ?_⟩
  intro other h
  exact absurd ((haccounts _ _).mp h).1 (by simp [separator])

end Address
end Micheline
