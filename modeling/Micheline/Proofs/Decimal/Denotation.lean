import Micheline.Proofs.Decimal
import Micheline.Proofs.Radix

/-!
The integers that decimal texts denote. Digits denote a number in base ten, and a minus in front of
them turns its sign; zeros in front, a plus, and the sign of a zero make no difference. Reading
finds the integer of every numeral, and printing writes one of its numerals.
-/

namespace Micheline.Decimal

/-- The number that digits denote, the last of which counts ones. -/
def digitsValue (digits : List Char) : Nat :=
  Nat.ofDigits 10 (digits.reverse.map fun c => c.toNat - '0'.toNat)

/-- The integer that characters denote. -/
inductive Numeral : List Char → Int → Prop
  | unsigned {digits : List Char} : IsDigits digits → Numeral digits (digitsValue digits)
  | plus {digits : List Char} : IsDigits digits → Numeral ('+' :: digits) (digitsValue digits)
  | minus {digits : List Char} : IsDigits digits → Numeral ('-' :: digits) (-digitsValue digits)

def Denotes (text : String) (n : Int) : Prop :=
  Numeral text.toList n

theorem natural?_eq_some_iff {cs : List Char} {n : Nat} :
    natural? cs = some n ↔ IsDigits cs ∧ digitsValue cs = n := by
  have hvalue : Radix.value 10 (cs.map fun c => c.toNat - '0'.toNat) = digitsValue cs := by
    rw [Radix.value_eq_ofDigits, ← List.map_reverse, digitsValue]
  rw [natural?, hvalue]
  split
  next h => simp_all [IsDigits]
  next h => simp_all [IsDigits]

theorem integer?_of_numeral {cs : List Char} {n : Int} (h : Numeral cs n) :
    integer? cs = some n := by
  cases h with
  | unsigned hdigits =>
      have hminus : cs.head? ≠ some '-' := hdigits.head?_ne (by decide)
      have hplus : cs.head? ≠ some '+' := hdigits.head?_ne (by decide)
      rw [integer?_unsigned hminus hplus, natural?_eq_some_iff.mpr ⟨hdigits, rfl⟩, Option.map_some]
  | plus hdigits => rw [integer?_plus, natural?_eq_some_iff.mpr ⟨hdigits, rfl⟩, Option.map_some]
  | minus hdigits => rw [integer?_minus, natural?_eq_some_iff.mpr ⟨hdigits, rfl⟩, Option.map_some]

theorem exists_numeral_of_isNumeral {text : String} (h : IsNumeral text) :
    ∃ n, Denotes text n := by
  obtain ⟨sign, hsign, digits, hdigits, htext⟩ := h
  simp only [List.mem_cons, List.not_mem_nil, or_false] at hsign
  change ∃ n, Numeral text.toList n
  rw [htext]
  obtain rfl | rfl | rfl := hsign
  · exact ⟨_, .unsigned hdigits⟩
  · exact ⟨_, .plus hdigits⟩
  · exact ⟨_, .minus hdigits⟩

/-- What is read is what the text denotes. -/
theorem parse?_eq_some_iff {text : String} {n : Int} : parse? text = some n ↔ Denotes text n := by
  refine ⟨fun h => ?_, integer?_of_numeral⟩
  obtain ⟨m, hm⟩ := exists_numeral_of_isNumeral ((isSome_parse?_iff text).mp (by rw [h]; rfl))
  obtain rfl := Option.some.inj (h.symm.trans (integer?_of_numeral hm))
  exact hm

theorem isNumeral_iff {text : String} : IsNumeral text ↔ ∃ n, Denotes text n := by
  rw [← isSome_parse?_iff, Option.isSome_iff_exists]
  exact exists_congr fun n => parse?_eq_some_iff

theorem Denotes.unique {text : String} {n m : Int} (h : Denotes text n) (h' : Denotes text m) :
    n = m := by
  rw [← parse?_eq_some_iff] at h h'
  exact Option.some.inj (h.symm.trans h')

theorem digitChar_spec {d : Nat} (h : d < 10) :
    (Nat.digitChar d).isDigit ∧ (Nat.digitChar d).toNat - '0'.toNat = d := by
  have hall : ∀ d : Fin 10,
      (Nat.digitChar d).isDigit ∧ (Nat.digitChar d).toNat - '0'.toNat = d.val := by
    decide
  exact hall ⟨d, h⟩

theorem isDigits_ofNat (n : Nat) : IsDigits (ofNat n) := by
  by_cases hn : n = 0
  · subst hn
    refine ⟨by decide, ?_⟩
    intro c hc
    obtain rfl := List.mem_singleton.mp hc
    rfl
  · have hne : Radix.digits 10 n ≠ [] := by
      rw [Radix.digits_of_pos (by decide) (Nat.pos_of_ne_zero hn)]
      exact List.concat_ne_nil _ _
    rw [ofNat, if_neg hn]
    refine ⟨by simpa using hne, fun c hc => ?_⟩
    obtain ⟨d, hd, rfl⟩ := List.mem_map.mp hc
    exact (digitChar_spec (Radix.lt_of_mem_digits (by decide) hd)).1

theorem digitsValue_ofNat (n : Nat) : digitsValue (ofNat n) = n := by
  by_cases hn : n = 0
  · subst hn
    rfl
  · have hback : ∀ d ∈ Radix.digits 10 n,
        ((fun c : Char => c.toNat - '0'.toNat) ∘ Nat.digitChar) d = id d := fun d hd =>
      (digitChar_spec (Radix.lt_of_mem_digits (by decide) hd)).2
    rw [ofNat, if_neg hn, digitsValue, List.map_reverse, List.map_map, List.map_congr_left hback,
      List.map_id, ← Radix.value_eq_ofDigits, Radix.value_digits (by decide)]

/-- An integer is printed by a text that denotes it. -/
theorem denotes_print (n : Int) : Denotes (print n) n := by
  have hdigits := isDigits_ofNat n.natAbs
  have hvalue := digitsValue_ofNat n.natAbs
  rw [Denotes, print, String.toList_ofList]
  by_cases hn : n < 0
  · have hnumeral := Numeral.minus hdigits
    rw [hvalue] at hnumeral
    rw [if_pos hn]
    have hneg : -(n.natAbs : Int) = n := by omega
    rwa [hneg] at hnumeral
  · have hnumeral := Numeral.unsigned hdigits
    have hpos : (n.natAbs : Int) = n := by omega
    rw [hvalue, hpos] at hnumeral
    rwa [if_neg hn]

theorem print_inj {n m : Int} (h : print n = print m) : n = m := by
  have hn := denotes_print n
  rw [h] at hn
  exact hn.unique (denotes_print m)

end Micheline.Decimal
