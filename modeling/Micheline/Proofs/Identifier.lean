import Micheline.Identifier
import Micheline.Proofs.Base58

/-!
Identifiers and their texts. No decoded octets fit two kinds, so it does not matter in which order
candidates are tried, or how often; and a text is resolved to an identifier exactly if it is the
text of that identifier.
-/

namespace Micheline.Identifier

theorem Kind.eq_of_lead {k k' : Kind} (hlead : k.lead <+: k'.lead)
    (hlen : k.lead.length + k.size = k'.lead.length + k'.size) : k = k' := by
  have htable : ∀ k ∈ Kind.all, ∀ k' ∈ Kind.all, k.lead.isPrefixOf k'.lead = true →
      k.lead.length + k.size = k'.lead.length + k'.size → k = k' := by
    decide +kernel
  exact htable k k.mem_all k' k'.mem_all (List.isPrefixOf_iff_prefix.mpr hlead) hlen

theorem Kind.payload?_eq_some_iff {kind : Kind} {decoded payload : Bytes} :
    kind.payload? decoded = some payload ↔
      decoded = kind.lead ++ payload ∧ payload.length = kind.size := by
  rw [Kind.payload?]
  constructor
  · intro h
    split at h
    next hlen =>
      rw [List.isPrefixOf?_eq_some_iff_append_eq] at h
      refine ⟨h.symm, ?_⟩
      rw [← h, List.length_append] at hlen
      exact Nat.add_left_cancel hlen
    · cases h
  · rintro ⟨rfl, hlen⟩
    rw [if_pos (by rw [List.length_append, hlen]), List.isPrefixOf?_eq_some_iff_append_eq]

theorem Kind.eq_of_payload? {k k' : Kind} {decoded p p' : Bytes}
    (h : k.payload? decoded = some p) (h' : k'.payload? decoded = some p') : k = k' := by
  obtain ⟨hd, hp⟩ := Kind.payload?_eq_some_iff.mp h
  obtain ⟨hd', hp'⟩ := Kind.payload?_eq_some_iff.mp h'
  have hlen : k.lead.length + k.size = k'.lead.length + k'.size := by
    rw [← hp, ← hp', ← List.length_append, ← List.length_append, ← hd, ← hd']
  have hlead : k.lead <+: decoded := ⟨p, hd.symm⟩
  have hlead' : k'.lead <+: decoded := ⟨p', hd'.symm⟩
  obtain hpre | hpre := List.prefix_or_prefix_of_prefix hlead hlead'
  · exact Kind.eq_of_lead hpre hlen
  · exact (Kind.eq_of_lead hpre hlen.symm).symm

/-- The candidate that is found first is the only one there is. -/
theorem classify?_eq_some_iff {candidates : List Kind} {decoded : Bytes} {i : Identifier} :
    classify? candidates decoded = some i ↔
      i.kind ∈ candidates ∧ i.kind.payload? decoded = some i.payload := by
  have hfound : ∀ {j}, classify? candidates decoded = some j →
      j.kind ∈ candidates ∧ j.kind.payload? decoded = some j.payload := by
    intro j h
    obtain ⟨kind, hkind, hj⟩ := List.exists_of_findSome?_eq_some h
    obtain ⟨payload, hpayload, rfl⟩ := Option.map_eq_some_iff.mp hj
    exact ⟨hkind, hpayload⟩
  refine ⟨hfound, ?_⟩
  rintro ⟨hkind, hpayload⟩
  cases hc : classify? candidates decoded with
  | none =>
      have hnone := List.findSome?_eq_none_iff.mp hc i.kind hkind
      rw [hpayload] at hnone
      cases hnone
  | some j =>
      obtain ⟨-, hj⟩ := hfound hc
      have hsame : j.kind = i.kind := Kind.eq_of_payload? hj hpayload
      rw [hsame, hpayload] at hj
      cases i
      cases j
      simp_all

theorem encode_eq_ok_iff {kind : Kind} {payload : Bytes} {text : String} :
    encode kind payload = .ok text ↔
      ∃ decoded, Base58.Check.decode text = .ok decoded ∧ kind.payload? decoded = some payload := by
  constructor
  · intro h
    rw [encode] at h
    split at h
    next hlen =>
      obtain rfl := Except.ok.inj h
      exact ⟨_, Base58.Check.decode_encode _, Kind.payload?_eq_some_iff.mpr ⟨rfl, hlen⟩⟩
    · cases h
  · rintro ⟨decoded, hdecoded, hpayload⟩
    obtain ⟨rfl, hlen⟩ := Kind.payload?_eq_some_iff.mp hpayload
    rw [encode, if_pos hlen, Base58.Check.encode_of_decode hdecoded]

theorem resolve_of_decode_error {text : String} {cause : Base58.Check.Error}
    (h : Base58.Check.decode text = .error cause) (candidates : List Kind) :
    resolve candidates text = .error (.base58 text cause) := by
  rw [resolve, h]

theorem resolve_of_decode_ok {text : String} {decoded : Bytes}
    (h : Base58.Check.decode text = .ok decoded) (candidates : List Kind) :
    resolve candidates text =
      (classify? candidates decoded).elim (.error (.unrecognised text)) .ok := by
  rw [resolve, h]
  dsimp only
  cases classify? candidates decoded <;> rfl

theorem resolve_eq_ok_iff {candidates : List Kind} {text : String} {i : Identifier} :
    resolve candidates text = .ok i ↔
      i.kind ∈ candidates ∧ encode i.kind i.payload = .ok text := by
  rw [encode_eq_ok_iff]
  cases hd : Base58.Check.decode text with
  | error cause =>
      rw [resolve_of_decode_error hd]
      simp
  | ok decoded =>
      rw [resolve_of_decode_ok hd]
      simp only [Except.ok.injEq, exists_eq_left', ← classify?_eq_some_iff]
      cases classify? candidates decoded <;> simp

theorem classify?_congr {candidates candidates' : List Kind}
    (h : ∀ kind, kind ∈ candidates ↔ kind ∈ candidates') (decoded : Bytes) :
    classify? candidates decoded = classify? candidates' decoded := by
  refine Option.ext fun i => ?_
  rw [classify?_eq_some_iff, classify?_eq_some_iff, h]

theorem encode_inj {k k' : Kind} {p p' : Bytes} {text : String} (h : encode k p = .ok text)
    (h' : encode k' p' = .ok text) : k = k' ∧ p = p' := by
  obtain ⟨decoded, hd, hp⟩ := encode_eq_ok_iff.mp h
  obtain ⟨decoded', hd', hp'⟩ := encode_eq_ok_iff.mp h'
  obtain rfl := Except.ok.inj (hd.symm.trans hd')
  obtain rfl := Kind.eq_of_payload? hp hp'
  exact ⟨rfl, Option.some.inj (hp.symm.trans hp')⟩

/-- Resolving undoes rendering and accepts nothing else, whatever the order of candidates. -/
theorem resolve_inverts_encode :
    (∀ candidates text kind payload, resolve candidates text = .ok ⟨kind, payload⟩ ↔
      kind ∈ candidates ∧ encode kind payload = .ok text) ∧
    (∀ candidates text cause, Base58.Check.decode text = .error cause →
      resolve candidates text = .error (.base58 text cause)) ∧
    (∀ candidates text decoded, Base58.Check.decode text = .ok decoded →
      (∀ kind ∈ candidates, ∀ payload, encode kind payload ≠ .ok text) →
      resolve candidates text = .error (.unrecognised text)) ∧
    (∀ candidates candidates' text, (∀ kind, kind ∈ candidates ↔ kind ∈ candidates') →
      resolve candidates text = resolve candidates' text) ∧
    (∀ text k k' p p', encode k p = .ok text → encode k' p' = .ok text → k = k' ∧ p = p') ∧
    ∀ kind payload text, encode kind payload = .ok text → decode kind text = .ok payload := by
  refine ⟨fun _ _ _ _ => resolve_eq_ok_iff, fun candidates _ _ h =>
    resolve_of_decode_error h candidates, ?_, ?_, fun _ _ _ _ _ => encode_inj, ?_⟩
  · intro candidates text decoded hd hnone
    rw [resolve_of_decode_ok hd]
    cases hc : classify? candidates decoded with
    | none => rfl
    | some i =>
        obtain ⟨hkind, hpayload⟩ := classify?_eq_some_iff.mp hc
        exact absurd (encode_eq_ok_iff.mpr ⟨decoded, hd, hpayload⟩) (hnone _ hkind _)
  · intro candidates candidates' text h
    cases hd : Base58.Check.decode text with
    | error cause => rw [resolve_of_decode_error hd, resolve_of_decode_error hd]
    | ok decoded => rw [resolve_of_decode_ok hd, resolve_of_decode_ok hd, classify?_congr h]
  · intro kind payload text h
    have hresolve : resolve [kind] text = .ok ⟨kind, payload⟩ :=
      resolve_eq_ok_iff.mpr ⟨List.mem_singleton_self _, h⟩
    rw [decode, hresolve]
    rfl

/-- A chain's text, with candidates that come twice or in another order. -/
theorem resolve_inverts_encode_chain :
    let payload : Bytes := [0x8e, 0xce, 0xda, 0x2f]
    let text := "NetXgtSLGNJvNye"
    encode .chainId payload = .ok text ∧
      resolve [.blockHash, .chainId, .chainId] text = .ok ⟨.chainId, payload⟩ ∧
      resolve [.chainId, .blockHash] text = .ok ⟨.chainId, payload⟩ ∧
      decode .chainId text = .ok payload ∧
      resolve [.blockHash] text = .error (.unrecognised text) := by
  intro payload text
  have htext : Base58.Check.encode (Kind.chainId.lead ++ payload) = text := by decide +kernel
  have hencode : encode .chainId payload = .ok text := by
    rw [encode, if_pos (by decide), htext]
  obtain ⟨hiff, -, hnone, hcongr, hinj, hdecode⟩ := resolve_inverts_encode
  have hresolve := (hiff [.blockHash, .chainId, .chainId] text .chainId payload).mpr
    ⟨by decide, hencode⟩
  refine ⟨hencode, hresolve, ?_, hdecode _ _ _ hencode, ?_⟩
  · rw [← hresolve]
    exact hcongr _ _ _ fun kind => by simp [or_comm]
  · obtain ⟨decoded, hdecoded, -⟩ := encode_eq_ok_iff.mp hencode
    refine hnone _ _ _ hdecoded fun kind hkind other h => ?_
    obtain ⟨rfl, -⟩ := hinj _ _ _ _ _ h hencode
    simp at hkind

end Micheline.Identifier
