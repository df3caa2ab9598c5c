import Mathlib.Algebra.Group.Nat.Even
import Mathlib.Order.Bounds.Basic
import Micheline.Hex
import Micheline.Proofs.Bytes

/-!
Which texts are hexadecimal, and what is wrong with the others. A text that spells octets, with two
digits for each, is read as those octets, and they are printed as the same text up to case. In any
other text the first bad pair is reported: it stands at the least even offset at which no two digits
follow, so a digit left over at the end is reported only if nothing was wrong before it.
-/

namespace Micheline.Hex

/-- The characters that are read as digits. -/
def digits : List Char :=
  ['0', '1', '2', '3', '4', '5', '6', '7', '8', '9', 'a', 'b', 'c', 'd', 'e', 'f',
   'A', 'B', 'C', 'D', 'E', 'F']

def IsDigit (octet : UInt8) : Prop :=
  Bytes.charOf octet ∈ digits

instance : DecidablePred IsDigit := fun _ => inferInstanceAs (Decidable (_ ∈ _))

/-- The character of an octet, in lower case. -/
def lowered (octet : UInt8) : Char :=
  (Bytes.charOf octet).toLower

theorem digit?_eq_none_iff (b : UInt8) : digit? b = none ↔ ¬ IsDigit b := by
  have htable : ∀ i : Fin 256, digit? (UInt8.ofNat i) = none ↔ ¬ IsDigit (UInt8.ofNat i) := by
    decide +kernel
  simpa using htable ⟨b.toNat, b.toNat_lt⟩

theorem lt_of_isDigit {b : UInt8} (h : IsDigit b) : b < 0x80 := by
  have hascii : ∀ c ∈ digits, c.toNat < 0x80 := by simp [digits]
  have hvalid : b.toNat.isValidChar := .inl (Nat.lt_trans b.toNat_lt (by decide))
  have hchar : Bytes.charOf b = Char.ofNatAux b.toNat hvalid := dif_pos hvalid
  have hlt : (Char.ofNatAux b.toNat hvalid).toNat < 0x80 := hchar ▸ hascii _ h
  exact UInt8.lt_iff_toNat_lt.mpr hlt

theorem isDigit_of_digit? {b d : UInt8} (h : digit? b = some d) : IsDigit b := by
  by_contra hnot
  rw [(digit?_eq_none_iff b).mpr hnot] at h
  cases h

theorem exists_digit? {b : UInt8} (h : IsDigit b) : ∃ d, digit? b = some d := by
  rw [← Option.isSome_iff_exists, Option.isSome_iff_ne_none, Ne, digit?_eq_none_iff]
  exact not_not_intro h

/-- A digit is printed in lower case, whatever its case was. -/
theorem digitChar_of_digit? {b d : UInt8} (h : digit? b = some d) :
    d.toNat < 16 ∧ Nat.digitChar d.toNat = lowered b := by
  have htable : ∀ i : Fin 256, (digit? (UInt8.ofNat i)).all
      (fun d => d.toNat < 16 ∧ Nat.digitChar d.toNat = lowered (UInt8.ofNat i)) = true := by
    decide +kernel
  have hb := htable ⟨b.toNat, b.toNat_lt⟩
  simpa only [UInt8.ofNat_toNat, h, Option.all_some, decide_eq_true_eq] using hb

theorem octet_of_digits {high low h l : UInt8} (hhigh : digit? high = some h)
    (hlow : digit? low = some l) : octet (16 * h + l) = [lowered high, lowered low] := by
  obtain ⟨hh, hhchar⟩ := digitChar_of_digit? hhigh
  obtain ⟨hl, hlchar⟩ := digitChar_of_digit? hlow
  have hvalue : (16 * h + l).toNat = 16 * h.toNat + l.toNat := by
    simp only [UInt8.toNat_add, UInt8.toNat_mul, UInt8.reduceToNat]
    omega
  have hdiv : (16 * h.toNat + l.toNat) / 16 = h.toNat := by omega
  have hmod : (16 * h.toNat + l.toNat) % 16 = l.toNat := by omega
  rw [octet, hvalue, hdiv, hmod, hhchar, hlchar]

theorem decodeAt_digits {high low h l : UInt8} (hhigh : digit? high = some h)
    (hlow : digit? low = some l) (offset : Nat) (rest : Bytes) :
    decodeAt offset (high :: low :: rest) =
      (decodeAt (offset + 2) rest).map ((16 * h + l) :: ·) := by
  simp only [decodeAt, hhigh, hlow]

theorem decodeAt_bad {high low : UInt8} (h : ¬ (IsDigit high ∧ IsDigit low)) (offset : Nat)
    (rest : Bytes) :
    decodeAt offset (high :: low :: rest) =
      .error ⟨Text.Utf8.decodeLossy [high, low], offset⟩ := by
  rw [decodeAt]
  split
  next hhigh hlow => exact absurd ⟨isDigit_of_digit? hhigh, isDigit_of_digit? hlow⟩ h
  next => rfl

theorem not_digits_of_stuck {high low : UInt8}
    (h : ∀ h l, digit? high = some h → digit? low = some l → False) :
    ¬ (IsDigit high ∧ IsDigit low) := by
  rintro ⟨hhigh, hlow⟩
  obtain ⟨h', hh⟩ := exists_digit? hhigh
  obtain ⟨l', hl⟩ := exists_digit? hlow
  exact h h' l' hh hl

/-- What is read is printed as the digits it was read from, up to case. -/
theorem printed_of_decodeAt {offset : Nat} {r bytes : Bytes} (h : decodeAt offset r = .ok bytes) :
    (∀ b ∈ r, IsDigit b) ∧ bytes.flatMap octet = r.map lowered := by
  induction offset, r using decodeAt.induct generalizing bytes with
  | case1 offset =>
      obtain rfl := Except.ok.inj h
      exact ⟨by simp, rfl⟩
  | case2 offset last => cases h
  | case3 offset high low rest h' l' hlow hhigh ih =>
      rw [decodeAt_digits hhigh hlow] at h
      cases hrest : decodeAt (offset + 2) rest with
      | error malformed => simp [hrest, Except.map] at h
      | ok tail =>
          obtain ⟨hdigits, hprinted⟩ := ih hrest
          rw [hrest] at h
          obtain rfl := Except.ok.inj h
          have hhere := octet_of_digits hhigh hlow
          refine ⟨?_, by simp [hhere, hprinted]⟩
          simpa using ⟨isDigit_of_digit? hhigh, isDigit_of_digit? hlow, hdigits⟩
  | case4 offset high low rest hbad =>
      rw [decodeAt_bad (not_digits_of_stuck hbad)] at h
      cases h

theorem exists_of_digits {offset : Nat} {r : Bytes} (heven : Even r.length)
    (hdigits : ∀ b ∈ r, IsDigit b) : ∃ bytes, decodeAt offset r = .ok bytes := by
  induction offset, r using decodeAt.induct with
  | case1 offset => exact ⟨[], rfl⟩
  | case2 offset last => exact absurd heven (by simp)
  | case3 offset high low rest h l hlow hhigh ih =>
      have heven' : Even rest.length := by simpa [Nat.even_add_one, parity_simps] using heven
      obtain ⟨tail, htail⟩ := ih heven' (by simp_all)
      rw [decodeAt_digits hhigh hlow, htail]
      exact ⟨_, rfl⟩
  | case4 offset high low rest hbad =>
      exact absurd ⟨hdigits high (by simp), hdigits low (by simp)⟩ (not_digits_of_stuck hbad)

theorem encode_of_decode {text : String} {bytes : Bytes} (h : decode text = .ok bytes) :
    encode bytes = text.toLower := by
  obtain ⟨hdigits, hprinted⟩ := printed_of_decodeAt h
  have hlowered : lowered = Char.toLower ∘ Bytes.charOf := rfl
  have hchars := Bytes.toList_eq_map_charOf fun b hb => lt_of_isDigit (hdigits b hb)
  have hlower : text.toLower = text.map Char.toLower := rfl
  rw [← String.toList_inj, encode, String.toList_ofList, hprinted, hlower, String.toList_map,
    hchars, List.map_map, hlowered]

theorem exists_written {n : Nat} (h : n < 16) :
    ∃ d, String.utf8EncodeChar (Nat.digitChar n) = [d] ∧ digit? d = some (UInt8.ofNat n) := by
  have htable : ∀ n : Fin 16, ∃ d ∈ String.utf8EncodeChar (Nat.digitChar n),
      String.utf8EncodeChar (Nat.digitChar n) = [d] ∧ digit? d = some (UInt8.ofNat n) := by
    decide
  obtain ⟨d, -, hd⟩ := htable ⟨n, h⟩
  exact ⟨d, hd⟩

theorem decodeAt_written (offset : Nat) (bytes : Bytes) :
    decodeAt offset ((bytes.flatMap octet).flatMap String.utf8EncodeChar) = .ok bytes := by
  induction bytes generalizing offset with
  | nil => rfl
  | cons b bytes ih =>
      have hlt := b.toNat_lt
      obtain ⟨high, hhigh, hdigit⟩ := exists_written (show b.toNat / 16 < 16 by omega)
      obtain ⟨low, hlow, hdigit'⟩ := exists_written (show b.toNat % 16 < 16 by omega)
      have hb : 16 * UInt8.ofNat (b.toNat / 16) + UInt8.ofNat (b.toNat % 16) = b := by
        rw [← UInt8.toNat_inj]
        simp only [UInt8.toNat_add, UInt8.toNat_mul, UInt8.toNat_ofNat', UInt8.reduceToNat]
        omega
      simp only [List.flatMap_cons, octet, List.cons_append, List.nil_append, hhigh, hlow]
      rw [decodeAt_digits hdigit hdigit', ih, hb]
      rfl

theorem decode_encode (bytes : Bytes) : decode (encode bytes) = .ok bytes := by
  rw [decode, encode, Bytes.ofText_ofList]
  exact decodeAt_written 0 bytes

def BeginsWithPair : Bytes → Prop
  | high :: low :: _ => IsDigit high ∧ IsDigit low
  | _ => False

/-- The even offsets, short of the end, at which octets do not go on with two digits. -/
def badOffsets (r : Bytes) : Set Nat :=
  {o | Even o ∧ o < r.length ∧ ¬ BeginsWithPair (r.drop o)}

def FirstBad (r : Bytes) (offset : Nat) : Prop :=
  IsLeast (badOffsets r) offset

theorem firstBad_iff_eq_zero {r : Bytes} (hne : r ≠ []) (h : ¬ BeginsWithPair r) {o : Nat} :
    FirstBad r o ↔ o = 0 := by
  have hzero : FirstBad r 0 :=
    ⟨⟨Even.zero, List.length_pos_iff.mpr hne, h⟩, fun _ _ => Nat.zero_le _⟩
  constructor
  · intro ho
    exact IsLeast.unique ho hzero
  · rintro rfl
    exact hzero

section

variable {high low : UInt8} {rest : Bytes}

theorem add_two_mem_badOffsets {o : Nat} :
    o + 2 ∈ badOffsets (high :: low :: rest) ↔ o ∈ badOffsets rest := by
  have htwo : Even 2 := by decide
  simp [badOffsets, Nat.even_add, htwo]

theorem exists_of_mem_badOffsets (h : BeginsWithPair (high :: low :: rest)) {o : Nat}
    (ho : o ∈ badOffsets (high :: low :: rest)) : ∃ o', o = o' + 2 ∧ o' ∈ badOffsets rest := by
  obtain _ | _ | o := o
  · exact absurd h ho.2.2
  · exact absurd ho.1 (by decide)
  · exact ⟨o, rfl, add_two_mem_badOffsets.mp ho⟩

theorem firstBad_cons_cons (h : BeginsWithPair (high :: low :: rest)) {o : Nat} :
    FirstBad (high :: low :: rest) o ↔ ∃ o', o = o' + 2 ∧ FirstBad rest o' := by
  constructor
  · rintro ⟨hmem, hleast⟩
    obtain ⟨o', rfl, ho'⟩ := exists_of_mem_badOffsets h hmem
    refine ⟨o', rfl, ho', fun p hp => ?_⟩
    exact Nat.le_of_add_le_add_right (hleast (add_two_mem_badOffsets.mpr hp))
  · rintro ⟨o', rfl, hmem, hleast⟩
    refine ⟨add_two_mem_badOffsets.mpr hmem, fun p hp => ?_⟩
    obtain ⟨p', rfl, hp'⟩ := exists_of_mem_badOffsets h hp
    exact Nat.add_le_add_right (hleast hp') 2

end

theorem decodeAt_eq_error_iff {base : Nat} {r : Bytes} {malformed : Malformed} :
    decodeAt base r = .error malformed ↔
      ∃ o, FirstBad r o ∧
        malformed = ⟨Text.Utf8.decodeLossy ((r.drop o).take 2), base + o⟩ := by
  induction base, r using decodeAt.induct with
  | case1 base =>
      constructor
      · intro h
        cases h
      · rintro ⟨o, ho, -⟩
        exact absurd ho.1.2.1 (Nat.not_lt_zero o)
  | case2 base last =>
      simp only [decodeAt, firstBad_iff_eq_zero (List.cons_ne_nil last []) id, exists_eq_left]
      rw [Except.error.injEq, eq_comm]
      rfl
  | case3 base high low rest h l hlow hhigh ih =>
      have hpair : BeginsWithPair (high :: low :: rest) :=
        ⟨isDigit_of_digit? hhigh, isDigit_of_digit? hlow⟩
      have hmap : decodeAt base (high :: low :: rest) = .error malformed ↔
          decodeAt (base + 2) rest = .error malformed := by
        rw [decodeAt_digits hhigh hlow]
        cases decodeAt (base + 2) rest <;> simp [Except.map]
      rw [hmap, ih]
      constructor
      · rintro ⟨o, ho, rfl⟩
        exact ⟨o + 2, (firstBad_cons_cons hpair).mpr ⟨o, rfl, ho⟩, by simp; omega⟩
      · rintro ⟨_, ho, rfl⟩
        obtain ⟨o', rfl, ho'⟩ := (firstBad_cons_cons hpair).mp ho
        exact ⟨o', ho', by simp; omega⟩
  | case4 base high low rest hbad =>
      have hnot := not_digits_of_stuck hbad
      rw [decodeAt_bad hnot]
      simp only [firstBad_iff_eq_zero (List.cons_ne_nil high (low :: rest)) hnot, exists_eq_left]
      rw [Except.error.injEq, eq_comm]
      rfl

/-- In front of the first bad pair there are only digits. -/
theorem isDigit_of_firstBad {r : Bytes} {o : Nat} (h : FirstBad r o) :
    ∀ b ∈ r.take o, IsDigit b := by
  induction o using Nat.strongRecOn generalizing r with
  | ind o ih =>
      by_cases hpair : BeginsWithPair r
      · match r, hpair with
        | high :: low :: rest, hpair =>
            obtain ⟨o, rfl, hrest⟩ := (firstBad_cons_cons hpair).mp h
            have hdigits := ih o (by omega) hrest
            simpa using ⟨hpair.1, hpair.2, hdigits⟩
      · have hne : r ≠ [] := by
          rintro rfl
          exact absurd h.1.2.1 (Nat.not_lt_zero o)
        obtain rfl := (firstBad_iff_eq_zero hne hpair).mp h
        simp

theorem decode_eq_error_iff {text : String} {malformed : Malformed} :
    decode text = .error malformed ↔
      FirstBad (Bytes.ofText text) malformed.offset ∧
        malformed.pair =
          Text.Utf8.decodeLossy (((Bytes.ofText text).drop malformed.offset).take 2) := by
  rw [decode, decodeAt_eq_error_iff]
  cases malformed with
  | mk pair offset => simp [and_comm]

theorem length_printed (bytes : Bytes) :
    (bytes.flatMap octet).length = bytes.length + bytes.length := by
  induction bytes with
  | nil => rfl
  | cons b bytes ih =>
      rw [List.flatMap_cons, List.length_append, ih, octet]
      simp only [List.length_cons, List.length_nil]
      omega

theorem decode_eq_ok_iff_digits (text : String) :
    (∃ bytes, decode text = .ok bytes) ↔
      Even (Bytes.ofText text).length ∧ ∀ b ∈ Bytes.ofText text, IsDigit b := by
  constructor
  · rintro ⟨bytes, h⟩
    obtain ⟨hdigits, hprinted⟩ := printed_of_decodeAt h
    have hlength := congrArg List.length hprinted
    rw [length_printed, List.length_map] at hlength
    exact ⟨⟨bytes.length, hlength.symm⟩, hdigits⟩
  · rintro ⟨heven, hdigits⟩
    exact exists_of_digits heven hdigits

/-- Each octet is spelled with two digits, the higher one first; their letters may be of either
case. -/
def Spells (text : String) (content : Bytes) : Prop :=
  text.toLower.toList =
    content.flatMap fun b => [Nat.digitChar (b.toNat / 16), Nat.digitChar (b.toNat % 16)]

instance (text : String) (content : Bytes) : Decidable (Spells text content) :=
  inferInstanceAs (Decidable (_ = _))

theorem spells_iff {text : String} {content : Bytes} :
    Spells text content ↔ encode content = text.toLower := by
  rw [← String.toList_inj, encode, String.toList_ofList]
  exact eq_comm

theorem toList_toLower (text : String) : text.toLower.toList = text.toList.map Char.toLower :=
  String.toList_map

theorem digitChar_mem_digits {n : Nat} (h : n < 16) : Nat.digitChar n ∈ digits := by
  have htable : ∀ n : Fin 16, Nat.digitChar n ∈ digits := by decide
  exact htable ⟨n, h⟩

theorem mem_digits_of_toLower {c : Char} (h : c.toLower ∈ digits) : c ∈ digits := by
  by_cases hascii : c.toNat < 0x80
  · have htable : ∀ i : Fin 128, (Char.ofNat i).toLower ∈ digits → Char.ofNat i ∈ digits := by
      decide +kernel
    have hc := htable ⟨c.toNat, hascii⟩
    rw [Char.ofNat_toNat] at hc
    exact hc h
  · have hcase : ¬ (c.val ≥ 'A'.val ∧ c.val ≤ 'Z'.val) := by
      intro hupper
      exact hascii (Nat.lt_of_le_of_lt (UInt32.le_iff_toNat_le.mp hupper.2) (by decide))
    have hsame : c.toLower = c := dif_neg hcase
    rwa [hsame] at h

theorem mem_digits_of_spells {text : String} {content : Bytes} (h : Spells text content) {c : Char}
    (hc : c ∈ text.toList) : c ∈ digits := by
  apply mem_digits_of_toLower
  have hmem : c.toLower ∈ text.toLower.toList := by
    rw [toList_toLower]
    exact List.mem_map_of_mem hc
  rw [h, List.mem_flatMap] at hmem
  obtain ⟨b, -, hb⟩ := hmem
  have hlt := b.toNat_lt
  simp only [List.mem_cons, List.not_mem_nil, or_false] at hb
  obtain hb | hb := hb
  · exact hb ▸ digitChar_mem_digits (by omega)
  · exact hb ▸ digitChar_mem_digits (by omega)

theorem ofText_of_digits {text : String} (h : ∀ c ∈ text.toList, c ∈ digits) :
    Bytes.ofText text = text.toList.map fun c => UInt8.ofNat c.toNat := by
  have htable : digits.map String.utf8EncodeChar = digits.map fun c => [UInt8.ofNat c.toNat] := by
    decide
  have hoctets := Bytes.ofText_ofList text.toList
  rw [String.ofList_toList] at hoctets
  rw [hoctets, List.map_eq_flatMap, List.flatMap_def, List.flatMap_def]
  exact congrArg List.flatten (List.map_congr_left fun c hc =>
    List.map_inj_left.mp htable c (h c hc))

theorem exists_of_spells {text : String} {content : Bytes} (h : Spells text content) :
    ∃ bytes, decode text = .ok bytes := by
  have hdigits : ∀ c ∈ text.toList, c ∈ digits := fun c hc => mem_digits_of_spells h hc
  have hlength : text.toList.length = content.length + content.length := by
    rw [← length_printed, ← List.length_map Char.toLower, ← toList_toLower, h]
    rfl
  rw [decode_eq_ok_iff_digits, ofText_of_digits hdigits]
  refine ⟨⟨content.length, by rw [List.length_map, hlength]⟩, ?_⟩
  intro b hb
  obtain ⟨c, hc, rfl⟩ := List.mem_map.mp hb
  have htable : digits.map (fun c => Bytes.charOf (UInt8.ofNat c.toNat)) = digits := by decide
  rw [IsDigit, ← htable]
  exact List.mem_map_of_mem (hdigits c hc)

/-- What is read is what the text spells. -/
theorem decode_eq_ok_iff {text : String} {content : Bytes} :
    decode text = .ok content ↔ Spells text content := by
  rw [spells_iff]
  constructor
  · exact encode_of_decode
  · intro h
    obtain ⟨bytes, hread⟩ := exists_of_spells (spells_iff.mpr h)
    have hsame : decode (encode bytes) = decode (encode content) := by
      rw [encode_of_decode hread, h]
    rw [decode_encode, decode_encode] at hsame
    rw [hread, hsame]

theorem Spells.unique {text : String} {content content' : Bytes} (h : Spells text content)
    (h' : Spells text content') : content = content' := by
  rw [← decode_eq_ok_iff] at h h'
  exact Except.ok.inj (h.symm.trans h')

end Micheline.Hex
