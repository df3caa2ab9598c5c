import Micheline.Proofs.Address

/-!
Addresses in order. Octet strings are compared from the left, so a part of fixed length that is
compared first has to stand in front. The binary form of addresses is made so, and once the default
entrypoint is spelled in one way its order is that of the addresses.
-/

namespace Micheline

namespace Bytes

theorem compare_cons (b c : UInt8) (x y : Bytes) :
    compare (b :: x) (c :: y) = (compare b c).then (compare x y) :=
  List.compareLex_cons_cons

/-- Comparing octet strings is comparing them lexicographically. -/
theorem compare_eq_lt_iff {x y : Bytes} : compare x y = .lt ↔ x < y := by
  induction x generalizing y with
  | nil => cases y <;> simp [compare, List.compareLex]
  | cons b x ih =>
      cases y with
      | nil => simp [compare, List.compareLex]
      | cons c y =>
          rw [compare_cons, Ordering.then_eq_lt, ih, List.cons_lt_cons_iff, Std.compare_eq_lt,
            Std.LawfulEqOrd.compare_eq_iff_eq]

theorem compare_append_of_length {x y : Bytes} (h : x.length = y.length) (r s : Bytes) :
    compare (x ++ r) (y ++ s) = (compare x y).then (compare r s) := by
  induction x generalizing y with
  | nil =>
      rw [List.eq_nil_of_length_eq_zero h.symm]
      rfl
  | cons b x ih =>
      obtain ⟨c, y, rfl⟩ := List.exists_cons_of_length_eq_add_one h.symm
      rw [List.cons_append, List.cons_append, compare_cons, compare_cons,
        ih (Nat.succ.inj h), Ordering.then_assoc]

theorem compare_append_left (x r s : Bytes) : compare (x ++ r) (x ++ s) = compare r s := by
  rw [compare_append_of_length rfl, Std.ReflOrd.compare_self]
  rfl

end Bytes

theorem AccountKind.compare_front_append (k k' : AccountKind) (r s : Bytes) :
    compare (k.front ++ r) (k'.front ++ s) = (compare k.rank k'.rank).then (compare r s) := by
  cases k <;> cases k' <;> rfl

theorem AccountKind.eq_of_compare_rank {k k' : AccountKind}
    (h : compare k.rank k'.rank = .eq) : k = k' := by
  have hrank : k.rank = k'.rank := Nat.compare_eq_eq.mp h
  cases k <;> cases k' <;> simp_all [rank]

/-- Accounts compare as their binary forms do, whatever stands behind these. -/
theorem Account.compare_toBytes_append (a b : Account) (r s : Bytes) :
    compare (a.toBytes ++ r) (b.toBytes ++ s) = (compare a b).then (compare r s) := by
  have hhash : a.hash.length = b.hash.length := a.length_hash.trans b.length_hash.symm
  have haccounts : compare a b = (compare a.kind.rank b.kind.rank).then (compare a.hash b.hash) :=
    rfl
  rw [toBytes_eq, toBytes_eq, List.append_assoc, List.append_assoc, List.append_assoc,
    List.append_assoc, AccountKind.compare_front_append, Bytes.compare_append_of_length hhash,
    haccounts, Ordering.then_assoc]
  cases hrank : compare a.kind.rank b.kind.rank with
  | lt | gt => rfl
  | eq => rw [AccountKind.eq_of_compare_rank hrank, Bytes.compare_append_left]

namespace Address

/-- The address with its entrypoint in the normal form. -/
def normal (address : Address) : Address :=
  { address with entrypoint := address.entrypoint.normal }

theorem toBytes_eq (address : Address) :
    address.toBytes = address.normal.account.toBytes ++ address.normal.entrypoint.toBytes := by
  rw [toBytes, normal, Entrypoint.toBytes_normal]

theorem compare_eq (a b : Address) :
    compare a b = (compare a.account b.account).then
      (compare a.entrypoint.toBytes b.entrypoint.toBytes) :=
  rfl

/-- Addresses in normal form are ordered as their binary forms are lexicographically, and so one
binary form belongs to addresses of one normal form only. -/
theorem order_of_binary_forms (a b : Address) :
    compare a.normal b.normal = compare a.toBytes b.toBytes ∧
      (compare a.normal b.normal = .lt ↔ a.toBytes < b.toBytes) ∧
      (a.toBytes = b.toBytes ↔ a.normal = b.normal) := by
  have hcompare : compare a.normal b.normal = compare a.toBytes b.toBytes := by
    rw [toBytes_eq a, toBytes_eq b, Account.compare_toBytes_append, compare_eq]
  refine ⟨hcompare, ?_, ?_⟩
  · rw [hcompare, Bytes.compare_eq_lt_iff]
  · constructor
    · intro h
      rw [toBytes_eq a, toBytes_eq b] at h
      obtain ⟨haccount, hentrypoint⟩ := Account.toBytes_append_inj h
      exact congrArg₂ Address.mk haccount (Entrypoint.toBytes_inj hentrypoint)
    · intro h
      rw [toBytes_eq a, toBytes_eq b, h]

end Address
end Micheline
