import Mathlib.Logic.ExistsUnique
import Micheline.Proofs.Pack.Number

/-!
Integers read back from their octets. The octets of integers are those that end themselves, are no
longer than they have to be and are not a negative zero; each string of such octets is written for
exactly one integer, the one that is read from it.
-/

namespace Micheline.Pack.Number

/-- The number in the low seven bits of each octet, low groups first. -/
def groupsValue : Bytes → Nat
  | [] => 0
  | octet :: rest => (octet &&& 0x7f).toNat + 128 * groupsValue rest

/-- The integer that octets stand for: six bits of the first one, then seven of each other one,
with the sign that the first one has. -/
def read : Bytes → Int
  | [] => 0
  | first :: rest =>
      let magnitude : Int := ((first &&& 0x3f).toNat + 64 * groupsValue rest : Nat)
      if first &&& 0x40 = 0 then magnitude else -magnitude

/-- Each octet but the last says that another one follows, and the last is not zero unless it is
the only one. -/
inductive Ended : Bytes → Prop
  | last {octet : UInt8} : octet &&& 0x80 = 0 → Ended [octet]
  | more {octet : UInt8} {rest : Bytes} :
      octet &&& 0x80 ≠ 0 → rest.getLast? ≠ some 0 → Ended rest → Ended (octet :: rest)

theorem and_0x80_eq_zero_iff (octet : UInt8) : octet &&& 0x80 = 0 ↔ octet.toNat < 128 := by
  have htable : ∀ i : Fin 256, UInt8.ofNat i &&& 0x80 = 0 ↔ i.val < 128 := by
    decide +kernel
  simpa using htable ⟨octet.toNat, octet.toNat_lt⟩

theorem and_0x40_eq_zero_iff (octet : UInt8) :
    octet &&& 0x40 = 0 ↔ octet.toNat / 64 % 2 = 0 := by
  have htable : ∀ i : Fin 256, UInt8.ofNat i &&& 0x40 = 0 ↔ i.val / 64 % 2 = 0 := by
    decide +kernel
  simpa using htable ⟨octet.toNat, octet.toNat_lt⟩

theorem toNat_and_0x7f (octet : UInt8) : (octet &&& 0x7f).toNat = octet.toNat % 128 :=
  Nat.and_two_pow_sub_one_eq_mod octet.toNat 7

theorem toNat_and_0x3f (octet : UInt8) : (octet &&& 0x3f).toNat = octet.toNat % 64 :=
  Nat.and_two_pow_sub_one_eq_mod octet.toNat 6

theorem groupsValue_cons (octet : UInt8) (rest : Bytes) :
    groupsValue (octet :: rest) = octet.toNat % 128 + 128 * groupsValue rest := by
  rw [groupsValue, toNat_and_0x7f]

theorem groupsValue_cons_div (octet : UInt8) (rest : Bytes) :
    groupsValue (octet :: rest) / 128 = groupsValue rest := by
  rw [groupsValue_cons]
  omega

/-- Reading in terms of the value of all groups, in which the sign stands at bit six. -/
theorem read_eq {octets : Bytes} (h : octets ≠ []) :
    read octets =
      let magnitude : Int := (groupsValue octets % 64 + 64 * (groupsValue octets / 128) : Nat)
      if groupsValue octets / 64 % 2 = 0 then magnitude else -magnitude := by
  cases octets with
  | nil => contradiction
  | cons first rest =>
      have hlow : groupsValue (first :: rest) % 64 = first.toNat % 64 := by
        rw [groupsValue_cons]
        omega
      have hsign : groupsValue (first :: rest) / 64 % 2 = first.toNat / 64 % 2 := by
        rw [groupsValue_cons]
        omega
      simp only [read, toNat_and_0x3f, and_0x40_eq_zero_iff, groupsValue_cons_div, hlow,
        hsign]

theorem groups_ne_nil (group above : Nat) : groups group above ≠ [] := by
  rw [groups]
  split <;> simp

theorem groupsValue_groups {group : Nat} (hgroup : group < 128) (above : Nat) :
    groupsValue (groups group above) = group + 128 * above := by
  induction group, above using groups.induct with
  | case1 group =>
      rw [groups_last, groupsValue_cons, groupsValue, UInt8.toNat_ofNat']
      omega
  | case2 group above habove ih =>
      rw [groups_more habove, groupsValue_cons, UInt8.toNat_ofNat', continued,
        ih (Nat.mod_lt _ (by omega))]
      omega

theorem getLast?_groups {group above : Nat} (hgroup : group < 128) (h : group + above ≠ 0) :
    (groups group above).getLast? ≠ some 0 := by
  induction group, above using groups.induct with
  | case1 group =>
      intro hzero
      have hoctet : UInt8.ofNat group = 0 := by simpa [groups_last] using hzero
      rw [← UInt8.toNat_inj, UInt8.toNat_ofNat', UInt8.toNat_zero] at hoctet
      omega
  | case2 group above habove ih =>
      have hrest := ih (Nat.mod_lt _ (by omega)) (by omega)
      obtain ⟨next, rest, hcons⟩ := List.exists_cons_of_ne_nil (groups_ne_nil _ _)
      rw [hcons] at hrest
      rw [groups_more habove, hcons, List.getLast?_cons_cons]
      exact hrest

theorem ended_groups {group : Nat} (hgroup : group < 128) (above : Nat) :
    Ended (groups group above) := by
  induction group, above using groups.induct with
  | case1 group =>
      rw [groups_last]
      apply Ended.last
      rw [and_0x80_eq_zero_iff, UInt8.toNat_ofNat']
      omega
  | case2 group above habove ih =>
      have hmod : above % 128 < 128 := Nat.mod_lt above (by omega)
      rw [groups_more habove]
      apply Ended.more
      · rw [Ne, and_0x80_eq_zero_iff, UInt8.toNat_ofNat', continued]
        omega
      · exact getLast?_groups hmod (by omega)
      · exact ih hmod

theorem Ended.ne_nil {octets : Bytes} (h : Ended octets) : octets ≠ [] := by
  cases h <;> simp

theorem Ended.groupsValue_pos {octets : Bytes} (h : Ended octets)
    (hlast : octets.getLast? ≠ some 0) : 0 < groupsValue octets := by
  induction h with
  | @last octet hoctet =>
      rw [and_0x80_eq_zero_iff] at hoctet
      rw [groupsValue_cons]
      have : octet.toNat ≠ 0 := by simpa [← UInt8.toNat_inj] using hlast
      omega
  | more _ hrest _ ih =>
      have := ih hrest
      rw [groupsValue_cons]
      omega

/-- Octets that end themselves are the groups of their value. -/
theorem Ended.groups_groupsValue {octets : Bytes} (h : Ended octets) :
    groups (groupsValue octets % 128) (groupsValue octets / 128) = octets := by
  induction h with
  | @last octet hoctet =>
      rw [and_0x80_eq_zero_iff] at hoctet
      have hvalue : groupsValue [octet] = octet.toNat := by
        rw [groupsValue_cons, groupsValue]
        omega
      rw [hvalue, Nat.mod_eq_of_lt hoctet, Nat.div_eq_of_lt hoctet, groups_last,
        UInt8.ofNat_toNat]
  | @more octet rest hoctet hlast hrest ih =>
      rw [Ne, and_0x80_eq_zero_iff] at hoctet
      have hpos := hrest.groupsValue_pos hlast
      have hlow : groupsValue (octet :: rest) % 128 + continued = octet.toNat := by
        have := octet.toNat_lt
        rw [groupsValue_cons, continued]
        omega
      rw [groupsValue_cons_div, groups_more (Nat.ne_of_gt hpos), hlow, UInt8.ofNat_toNat, ih]

theorem sign_add_lt (n : Int) : (if n < 0 then negative else 0) + n.natAbs % 64 < 128 := by
  rw [negative]
  split <;> omega

theorem read_encode (n : Int) : read (encode n) = n := by
  have hvalue := groupsValue_groups (sign_add_lt n) (n.natAbs / 64)
  rw [encode, read_eq (groups_ne_nil _ _), hvalue, negative]
  dsimp only
  by_cases hn : n < 0
  · rw [if_pos hn, if_neg (by omega)]
    omega
  · rw [if_neg hn, if_pos (by omega)]
    omega

/-- Octets that end themselves are those of the integer read from them, but for a negative zero. -/
theorem Ended.encode_read {octets : Bytes} (h : Ended octets) (hzero : octets ≠ [0x40]) :
    encode (read octets) = octets := by
  have hgroups := h.groups_groupsValue
  -- the sign without any magnitude is the one value that the integer does not give back
  have hvalue : groupsValue octets ≠ 64 := by
    intro hvalue
    rw [hvalue, groups_last] at hgroups
    exact hzero hgroups.symm
  have hread := read_eq h.ne_nil
  dsimp only at hread
  have hhigh : (read octets).natAbs / 64 = groupsValue octets / 128 := by
    rw [hread]
    split <;> omega
  have hlow : (if read octets < 0 then negative else 0) + (read octets).natAbs % 64 =
      groupsValue octets % 128 := by
    rw [hread, negative]
    split <;> split <;> omega
  rw [encode, hhigh, hlow, hgroups]

theorem encode_eq_cons (n : Int) :
    ∃ first rest, encode n = first :: rest ∧ (first &&& 0x40 ≠ 0 ↔ n < 0) := by
  obtain ⟨first, rest, hcons⟩ := List.exists_cons_of_ne_nil (groups_ne_nil _ _)
  refine ⟨first, rest, hcons, ?_⟩
  have hvalue := groupsValue_groups (sign_add_lt n) (n.natAbs / 64)
  rw [hcons, groupsValue_cons, negative] at hvalue
  rw [Ne, and_0x40_eq_zero_iff]
  by_cases hn : n < 0
  · rw [if_pos hn] at hvalue
    omega
  · rw [if_neg hn] at hvalue
    omega

theorem encode_ne_negative_zero (n : Int) : encode n ≠ [0x40] := by
  intro h
  obtain ⟨first, rest, hcons, hsign⟩ := encode_eq_cons n
  have hfirst : first = 0x40 := (List.cons.inj (hcons.symm.trans h)).1
  have hread : n = 0 := by
    rw [← read_encode n, h]
    rfl
  subst hfirst hread
  exact absurd (hsign.mp (by decide)) (by decide)

/-- Integers correspond one to one to the octets that end themselves and are not a negative zero. -/
theorem integers_correspond_to_octets :
    (∀ n, read (encode n) = n ∧ Ended (encode n) ∧
      ∃ first rest, encode n = first :: rest ∧ (first &&& 0x40 ≠ 0 ↔ n < 0)) ∧
    ∀ octets, (∃! n, encode n = octets) ↔ Ended octets ∧ octets ≠ [0x40] := by
  constructor
  · intro n
    exact ⟨read_encode n, ended_groups (sign_add_lt n) _, encode_eq_cons n⟩
  · intro octets
    constructor
    · rintro ⟨n, rfl, -⟩
      exact ⟨ended_groups (sign_add_lt n) _, encode_ne_negative_zero n⟩
    · rintro ⟨hended, hzero⟩
      refine ⟨read octets, hended.encode_read hzero, ?_⟩
      intro n hn
      rw [← hn, read_encode]

/-- A longer form of the same integer is read, but never written. -/
example : read [0xe4, 0x01] = -100 ∧ read [0xe4, 0x81, 0x00] = -100 := by
  decide

end Micheline.Pack.Number
