import Micheline.Decimal

/-!
Which texts are decimal integers. The grammar is one optional sign and at least one ASCII digit;
reading accepts exactly the texts of that grammar.
-/

namespace Micheline.Decimal

def IsDigits (cs : List Char) : Prop :=
  cs ≠ [] ∧ ∀ c ∈ cs, c.isDigit

def IsNumeral (text : String) : Prop :=
  ∃ sign ∈ [[], ['+'], ['-']], ∃ digits, IsDigits digits ∧ text.toList = sign ++ digits

theorem isSome_natural?_iff (cs : List Char) : (natural? cs).isSome ↔ IsDigits cs := by
  simp only [natural?, IsDigits]
  split <;> simp_all

theorem integer?_minus (cs : List Char) :
    integer? ('-' :: cs) = (natural? cs).map fun n : Nat => -(n : Int) := by
  cases h : natural? cs <;> simp [integer?, h]

theorem integer?_plus (cs : List Char) :
    integer? ('+' :: cs) = (natural? cs).map fun n : Nat => (n : Int) := by
  cases h : natural? cs <;> simp [integer?, h]

theorem integer?_unsigned {cs : List Char} (hminus : cs.head? ≠ some '-')
    (hplus : cs.head? ≠ some '+') :
    integer? cs = (natural? cs).map fun n : Nat => (n : Int) := by
  cases cs with
  | nil => rfl
  | cons c rest =>
      have hc : c ≠ '-' := by simpa using hminus
      have hc' : c ≠ '+' := by simpa using hplus
      cases h : natural? (c :: rest) <;> simp [integer?, h, hc, hc']

theorem IsDigits.head?_ne {cs : List Char} (h : IsDigits cs) {c : Char} (hc : c.isDigit = false) :
    cs.head? ≠ some c := by
  intro hhead
  have hdigit := h.2 c (List.mem_of_head? hhead)
  rw [hc] at hdigit
  exact absurd hdigit (by decide)

theorem isSome_integer?_iff (cs : List Char) :
    (integer? cs).isSome ↔
      ∃ sign ∈ [[], ['+'], ['-']], ∃ digits, IsDigits digits ∧ cs = sign ++ digits := by
  constructor
  · intro h
    by_cases hminus : cs.head? = some '-'
    · obtain ⟨digits, rfl⟩ := List.head?_eq_some_iff.mp hminus
      rw [integer?_minus, Option.isSome_map, isSome_natural?_iff] at h
      exact ⟨['-'], by simp, digits, h, rfl⟩
    · by_cases hplus : cs.head? = some '+'
      · obtain ⟨digits, rfl⟩ := List.head?_eq_some_iff.mp hplus
        rw [integer?_plus, Option.isSome_map, isSome_natural?_iff] at h
        exact ⟨['+'], by simp, digits, h, rfl⟩
      · rw [integer?_unsigned hminus hplus, Option.isSome_map, isSome_natural?_iff] at h
        exact ⟨[], by simp, cs, h, rfl⟩
  · rintro ⟨sign, hsign, digits, hdigits, rfl⟩
    simp only [List.mem_cons, List.not_mem_nil, or_false] at hsign
    obtain rfl | rfl | rfl := hsign
    · have hminus : digits.head? ≠ some '-' := hdigits.head?_ne (by decide)
      have hplus : digits.head? ≠ some '+' := hdigits.head?_ne (by decide)
      rw [List.nil_append, integer?_unsigned hminus hplus, Option.isSome_map,
        isSome_natural?_iff]
      exact hdigits
    · rw [List.singleton_append, integer?_plus, Option.isSome_map, isSome_natural?_iff]
      exact hdigits
    · rw [List.singleton_append, integer?_minus, Option.isSome_map, isSome_natural?_iff]
      exact hdigits

theorem isSome_parse?_iff (text : String) : (parse? text).isSome ↔ IsNumeral text :=
  isSome_integer?_iff text.toList

instance (text : String) : Decidable (IsNumeral text) :=
  decidable_of_iff _ (isSome_parse?_iff text)

theorem parse?_eq_none_iff (text : String) : parse? text = none ↔ ¬ IsNumeral text := by
  rw [← isSome_parse?_iff, Option.not_isSome_iff_eq_none]

end Micheline.Decimal
