import Micheline.Pack.Number

/-!
Integers end themselves: the octets of one integer are never the beginning of those of another,
so an integer can be told from whatever is written behind it.
-/

namespace Micheline.Pack.Number

theorem groups_last (group : Nat) : groups group 0 = [UInt8.ofNat group] := by
  rw [groups, if_pos rfl]

theorem groups_more {above : Nat} (h : above ≠ 0) (group : Nat) :
    groups group above =
      UInt8.ofNat (group + continued) :: groups (above % 128) (above / 128) := by
  rw [groups, if_neg h]

/-- A group of seven bits tells by its octet whether it is the last one. -/
theorem groups_append_inj {g g' a a' : Nat} {r s : Bytes} (hg : g < 128) (hg' : g' < 128)
    (h : groups g a ++ r = groups g' a' ++ s) : g = g' ∧ a = a' ∧ r = s := by
  induction a using Nat.strongRecOn generalizing g g' a' with
  | ind a ih =>
      by_cases ha : a = 0 <;> by_cases ha' : a' = 0
      · subst ha ha'
        rw [groups_last, groups_last] at h
        obtain ⟨hoctet, hrest⟩ := List.cons.inj h
        rw [← UInt8.toNat_inj, UInt8.toNat_ofNat', UInt8.toNat_ofNat'] at hoctet
        exact ⟨by omega, rfl, hrest⟩
      · subst ha
        rw [groups_last, groups_more ha'] at h
        have hoctet := (List.cons.inj h).1
        rw [← UInt8.toNat_inj, UInt8.toNat_ofNat', UInt8.toNat_ofNat', continued] at hoctet
        omega
      · subst ha'
        rw [groups_more ha, groups_last] at h
        have hoctet := (List.cons.inj h).1
        rw [← UInt8.toNat_inj, UInt8.toNat_ofNat', UInt8.toNat_ofNat', continued] at hoctet
        omega
      · rw [groups_more ha, groups_more ha'] at h
        obtain ⟨hoctet, hrest⟩ := List.cons.inj h
        rw [← UInt8.toNat_inj, UInt8.toNat_ofNat', UInt8.toNat_ofNat', continued] at hoctet
        obtain ⟨hmod, hdiv, htail⟩ := ih (a / 128) (Nat.div_lt_self (by omega) (by omega))
          (Nat.mod_lt a (by omega)) (Nat.mod_lt a' (by omega)) hrest
        exact ⟨by omega, by omega, htail⟩

theorem encode_append_inj {n m : Int} {r s : Bytes} (h : encode n ++ r = encode m ++ s) :
    n = m ∧ r = s := by
  have hsign (k : Int) : (if k < 0 then negative else 0) + k.natAbs % 64 < 128 := by
    simp only [negative]
    split <;> omega
  obtain ⟨hlow, hhigh, hrest⟩ := groups_append_inj (hsign n) (hsign m) h
  refine ⟨?_, hrest⟩
  simp only [negative] at hlow
  split at hlow <;> split at hlow <;> omega

end Micheline.Pack.Number
