import Micheline.Account
import Micheline.Proofs.Identifier

/-!
Accounts in text and in binary. A text denotes an account exactly if it is the rendering of it, and
the binary form, which has one length for all accounts, can be told from whatever stands behind it.
-/

namespace Micheline

theorem AccountKind.ofIdentifierKind?_eq_some_iff {kind : Identifier.Kind} {k : AccountKind} :
    ofIdentifierKind? kind = some k ↔ k.identifierKind = kind := by
  constructor
  · intro h
    simpa using List.find?_some h
  · rintro rfl
    cases k <;> rfl

theorem AccountKind.mem_all (k : AccountKind) : k ∈ all := by
  cases k <;> decide

/-- What stands in front of the hash of an account, and tells its kind. -/
def AccountKind.front : AccountKind → Bytes
  | .tz1 => [0, 0]
  | .tz2 => [0, 1]
  | .tz3 => [0, 2]
  | .kt1 => [1]

/-- What stands behind the hash. -/
def AccountKind.back : AccountKind → Bytes
  | .tz1 | .tz2 | .tz3 => []
  | .kt1 => [0]

theorem AccountKind.front_append_inj {k k' : AccountKind} {r s : Bytes}
    (h : k.front ++ r = k'.front ++ s) : k = k' ∧ r = s := by
  cases k <;> cases k' <;> simp_all [front]

namespace Account

theorem ofIdentifier_eq_ok_iff {text : String} {identifier : Identifier} {account : Account} :
    ofIdentifier text identifier = .ok account ↔
      identifier = ⟨account.kind.identifierKind, account.hash⟩ := by
  rw [ofIdentifier]
  constructor
  · intro h
    split at h
    next =>
      split at h
      next kind hkind =>
        obtain rfl := Except.ok.inj h
        rw [AccountKind.ofIdentifierKind?_eq_some_iff.mp hkind]
      · cases h
    · cases h
  · rintro rfl
    have hkind : AccountKind.ofIdentifierKind? account.kind.identifierKind = some account.kind :=
      AccountKind.ofIdentifierKind?_eq_some_iff.mpr rfl
    simp [account.length_hash, hkind]

/-- A text denotes an account exactly if it is the text of that account. -/
theorem parse_eq_ok_iff {text : String} {account : Account} :
    parse text = .ok account ↔
      Identifier.encode account.kind.identifierKind account.hash = .ok text := by
  have hmem : account.kind.identifierKind ∈ AccountKind.all.map AccountKind.identifierKind :=
    List.mem_map_of_mem account.kind.mem_all
  rw [parse]
  constructor
  · intro h
    split at h
    next identifier hresolve =>
      rw [ofIdentifier_eq_ok_iff.mp h] at hresolve
      exact (Identifier.resolve_eq_ok_iff.mp hresolve).2
    · cases h
  · intro h
    rw [Identifier.resolve_eq_ok_iff (i := ⟨_, _⟩) |>.mpr ⟨hmem, h⟩]
    exact ofIdentifier_eq_ok_iff.mpr rfl

theorem toBytes_eq (account : Account) :
    account.toBytes = account.kind.front ++ (account.hash ++ account.kind.back) := by
  cases account with
  | mk kind hash _ => cases kind <;> simp [toBytes, AccountKind.front, AccountKind.back]

theorem toBytes_append_inj {a b : Account} {r s : Bytes} (h : a.toBytes ++ r = b.toBytes ++ s) :
    a = b ∧ r = s := by
  cases a with
  | mk kind hash hlen =>
      cases b with
      | mk kind' hash' hlen' =>
          simp only [toBytes_eq, List.append_assoc] at h
          obtain ⟨rfl, hrest⟩ := AccountKind.front_append_inj h
          obtain ⟨rfl, hback⟩ := List.append_inj hrest (hlen.trans hlen'.symm)
          exact ⟨rfl, List.append_cancel_left hback⟩

end Account
end Micheline
