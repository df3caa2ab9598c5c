import Micheline.Address
import Micheline.Proofs.Account
import Micheline.Proofs.Bytes

/-!
Texts of one address. The segments of a text are what stands between percent signs; the first names
the account and the second the entrypoint. Two texts have one binary form exactly if their first
segments are the same and their second ones name the same entrypoint, so nothing is lost in the
binary form but the spelling of the default entrypoint and the segments that are not read.
-/

namespace Micheline

/-- The default entrypoint spelled in one way, with the empty name. -/
def Entrypoint.normal (entrypoint : Entrypoint) : Entrypoint :=
  if entrypoint.name = "default" then ⟨""⟩ else entrypoint

theorem Entrypoint.toBytes_normal (entrypoint : Entrypoint) :
    entrypoint.normal.toBytes = if entrypoint.isDefault then [] else entrypoint.toBytes := by
  cases entrypoint with
  | mk name =>
      by_cases hdefault : name = "default"
      · subst hdefault
        rfl
      · by_cases hempty : name = ""
        · subst hempty
          rfl
        · have hnot : isDefault ⟨name⟩ = false := by
            simp [isDefault, Entrypoint.default, hdefault, hempty]
          simp [normal, hdefault, hnot]

theorem Entrypoint.toBytes_inj {e f : Entrypoint} (h : e.toBytes = f.toBytes) : e = f := by
  cases e
  cases f
  exact congrArg Entrypoint.mk (Bytes.ofText_inj h)

namespace Address

/-- The parts of a text between its separators. -/
def segments (text : String) : List String :=
  (text.toList.splitOn separator).map String.ofList

theorem ne_separator_of_notMem {cs : List Char} (h : separator ∉ cs) :
    ∀ c ∈ cs, (c != separator) = true :=
  fun _ hc => bne_iff_ne.mpr fun heq => h (heq ▸ hc)

theorem beforeSeparator_of_notMem {cs : List Char} (h : separator ∉ cs) :
    beforeSeparator cs = cs :=
  List.takeWhile_eq_self_iff.mpr (ne_separator_of_notMem h)

theorem afterSeparator_of_notMem {cs : List Char} (h : separator ∉ cs) :
    afterSeparator cs = [] := by
  rw [afterSeparator, List.dropWhile_eq_nil_iff.mpr (ne_separator_of_notMem h), List.drop_nil]

theorem beforeSeparator_append {cs : List Char} (h : separator ∉ cs) (rest : List Char) :
    beforeSeparator (cs ++ separator :: rest) = cs := by
  rw [beforeSeparator, List.takeWhile_append_of_pos (ne_separator_of_notMem h)]
  simp

theorem afterSeparator_append {cs : List Char} (h : separator ∉ cs) (rest : List Char) :
    afterSeparator (cs ++ separator :: rest) = rest := by
  rw [afterSeparator, List.dropWhile_append_of_pos (ne_separator_of_notMem h)]
  simp

theorem splitOn_separator (cs : List Char) :
    cs.splitOn separator = beforeSeparator cs ::
      if separator ∈ cs then (afterSeparator cs).splitOn separator else [] := by
  induction cs with
  | nil => rfl
  | cons c cs ih =>
      rw [List.splitOn_cons_eq_if_modifyHead]
      by_cases hc : c = separator
      · subst hc
        simp [beforeSeparator, afterSeparator]
      · rw [if_neg (by simpa using hc), ih, List.modifyHead_cons]
        simp [beforeSeparator, afterSeparator, hc, Ne.symm hc]

theorem accountPart_eq (text : String) : accountPart text = (segments text).getD 0 "" := by
  rw [segments, splitOn_separator]
  rfl

theorem entrypointPart_eq (text : String) : entrypointPart text = (segments text).getD 1 "" := by
  rw [segments, splitOn_separator]
  by_cases hmem : separator ∈ text.toList
  · rw [if_pos hmem, splitOn_separator]
    rfl
  · rw [if_neg hmem, entrypointPart, afterSeparator_of_notMem hmem]
    rfl

/-- The entrypoint that a text names, in its normal form. -/
def entrypointOf (text : String) : Entrypoint :=
  Entrypoint.normal ⟨(segments text).getD 1 ""⟩

theorem encode_eq_ok_iff {text : String} {bytes : Bytes} :
    encode text = .ok bytes ↔
      ∃ account, Account.parse ((segments text).getD 0 "") = .ok account ∧
        account.toBytes ++ (entrypointOf text).toBytes = bytes := by
  -- The equations of these functions have the account read when they are made; unfolding does not.
  unfold encode parse
  rw [← accountPart_eq, entrypointOf, ← entrypointPart_eq]
  cases Account.parse (accountPart text) with
  | ok account =>
      simp [Except.map, toBytes, Entrypoint.toBytes_normal]
  | error error =>
      cases error <;> simp [Except.map]

/-- Texts have one binary form exactly if they name the same account in the same words and the same
entrypoint, up to the spelling of the default one. The other segments have no part in it. -/
theorem encode_identifies_addresses :
    (∀ s t x y, encode s = .ok x → encode t = .ok y →
      (x = y ↔ (segments s).getD 0 "" = (segments t).getD 0 "" ∧
        entrypointOf s = entrypointOf t)) ∧
    ∀ s t x, encode s = .ok x → (segments s).getD 0 "" = (segments t).getD 0 "" →
      entrypointOf s = entrypointOf t → encode t = .ok x := by
  have hcongr : ∀ s t x, encode s = .ok x → (segments s).getD 0 "" = (segments t).getD 0 "" →
      entrypointOf s = entrypointOf t → encode t = .ok x := by
    intro s t x hs haccount hentrypoint
    rw [encode_eq_ok_iff, haccount, hentrypoint] at hs
    exact encode_eq_ok_iff.mpr hs
  refine ⟨?_, hcongr⟩
  intro s t x y hs ht
  constructor
  · rintro rfl
    obtain ⟨a, ha, rfl⟩ := encode_eq_ok_iff.mp hs
    obtain ⟨b, hb, hbytes⟩ := encode_eq_ok_iff.mp ht
    obtain ⟨rfl, hentrypoint⟩ := Account.toBytes_append_inj hbytes
    rw [Account.parse_eq_ok_iff] at ha hb
    exact ⟨Except.ok.inj (ha.symm.trans hb), Entrypoint.toBytes_inj hentrypoint.symm⟩
  · rintro ⟨haccount, hentrypoint⟩
    exact Except.ok.inj ((hcongr s t x hs haccount hentrypoint).symm.trans ht)

/-- The default entrypoint in two spellings, one of them with a segment that is not read, and an
entrypoint of another name. -/
theorem encode_identifies_addresses_default :
    let plain := "tz1WrbkDrzKVqcGXkjw4Qk4fXkjXpAJuNP1j"
    let spelled := "tz1WrbkDrzKVqcGXkjw4Qk4fXkjXpAJuNP1j%default%bar"
    let named := "tz1WrbkDrzKVqcGXkjw4Qk4fXkjXpAJuNP1j%bar"
    let bytes : Bytes := [0x00, 0x00, 0x7b, 0x09, 0xf7, 0x82, 0xe0, 0xbc, 0xd6, 0x77, 0x39, 0x51,
      0x0a, 0xfa, 0x81, 0x9d, 0x85, 0x97, 0x61, 0x19, 0xd5, 0xef]
    encode plain = .ok bytes ∧ encode spelled = .ok bytes ∧
      ∃ other, encode named = .ok other ∧ bytes ≠ other := by
  intro plain spelled named bytes
  obtain ⟨hiff, hcongr⟩ := encode_identifies_addresses
  have hplain : encode plain = .ok bytes := by decide +kernel
  have hnamed : encode named = .ok (bytes ++ [0x62, 0x61, 0x72]) := by decide +kernel
  refine ⟨hplain, hcongr plain spelled bytes hplain (by decide +kernel) (by decide +kernel), _,
    hnamed, ?_⟩
  intro hsame
  have hentrypoint := ((hiff plain named _ _ hplain hnamed).mp hsame).2
  exact absurd hentrypoint (by decide +kernel)

end Address
end Micheline
