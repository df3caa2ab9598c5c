import Mathlib.Data.List.TakeWhile
import Mathlib.Data.Nat.Digits.Lemmas
import Micheline.Radix

/-!
Changing the base of a digit string loses nothing. A numeral without leading zeros is determined
by its value, and the zeros in front are carried over as they are, so the change back restores the
digit string it started from.
-/

namespace Micheline.Radix

theorem digitsOnto_eq {b : Nat} (hb : 2 ≤ b) (n : Nat) (tail : List Nat) :
    digitsOnto b n tail = (Nat.digits b n).reverse ++ tail := by
  induction n using Nat.strongRecOn generalizing tail with
  | ind n ih =>
      rw [digitsOnto]
      by_cases hn : 0 < n
      · rw [dif_pos ⟨hb, hn⟩, ih (n / b) (Nat.div_lt_self hn hb),
          Nat.digits_def' hb hn, List.reverse_cons, List.append_assoc, List.singleton_append]
      · rw [dif_neg fun h => hn h.2, Nat.eq_zero_of_not_pos hn, Nat.digits_zero]
        rfl

theorem digits_eq {b : Nat} (hb : 2 ≤ b) (n : Nat) : digits b n = (Nat.digits b n).reverse := by
  rw [digits, digitsOnto_eq hb, List.append_nil]

theorem value_append (b : Nat) (ds es : List Nat) :
    value b (ds ++ es) = value b ds * b ^ es.length + value b es := by
  induction es using List.reverseRecOn with
  | nil => simp [value]
  | append_singleton es e ih =>
      have hsnoc (xs : List Nat) : value b (xs ++ [e]) = value b xs * b + e := by
        simp [value]
      rw [← List.append_assoc, hsnoc, hsnoc, ih, List.length_append, List.length_singleton,
        Nat.pow_succ]
      ring

theorem value_eq_ofDigits (b : Nat) (ds : List Nat) : value b ds = Nat.ofDigits b ds.reverse := by
  induction ds with
  | nil => rfl
  | cons d ds ih =>
      have hd : value b [d] = d := by simp [value]
      rw [← List.singleton_append, value_append, hd, ih, List.reverse_append, Nat.ofDigits_append]
      simp
      ring

theorem value_digits {b : Nat} (hb : 2 ≤ b) (n : Nat) : value b (digits b n) = n := by
  rw [value_eq_ofDigits, digits_eq hb, List.reverse_reverse, Nat.ofDigits_digits]

theorem digits_value {b : Nat} (hb : 2 ≤ b) {ds : List Nat} (hds : ∀ d ∈ ds, d < b)
    (hhead : ds.head? ≠ some 0) : digits b (value b ds) = ds := by
  have hlast : ∀ h : ds.reverse ≠ [], ds.reverse.getLast h ≠ 0 := by
    intro h hzero
    rw [List.getLast_reverse] at hzero
    exact hhead (by rw [← hzero, List.head?_eq_some_head])
  rw [value_eq_ofDigits, digits_eq hb,
    Nat.digits_ofDigits b hb ds.reverse (fun d hd => hds d (List.mem_reverse.mp hd)) hlast,
    List.reverse_reverse]

theorem lt_of_mem_digits {b : Nat} (hb : 2 ≤ b) {n d : Nat} (h : d ∈ digits b n) : d < b := by
  rw [digits_eq hb, List.mem_reverse] at h
  exact Nat.digits_lt_base hb h

theorem head?_digits {b : Nat} (hb : 2 ≤ b) (n : Nat) : (digits b n).head? ≠ some 0 := by
  rw [digits_eq hb, List.head?_reverse]
  by_cases hn : n = 0
  · simp [hn]
  · rw [List.getLast?_eq_some_getLast (Nat.digits_ne_nil_iff_ne_zero.mpr hn)]
    exact fun h => Nat.getLast_digit_ne_zero b hn (Option.some.inj h)

theorem digits_of_pos {b n : Nat} (hb : 2 ≤ b) (hn : 0 < n) :
    digits b n = digits b (n / b) ++ [n % b] := by
  rw [digits_eq hb, digits_eq hb, Nat.digits_def' hb hn, List.reverse_cons]

/-- From `p` up to `p + 1` times a power of the base, all numbers are written with the digits of
`p` in front, and with as many behind them as the power has zeros. -/
theorem digits_eq_append {b p k n : Nat} (hb : 2 ≤ b) (hp : 0 < p) (hlow : p * b ^ k ≤ n)
    (hhigh : n < (p + 1) * b ^ k) :
    ∃ rest, digits b n = digits b p ++ rest ∧ rest.length = k := by
  induction k generalizing n with
  | zero =>
      rw [Nat.pow_zero, Nat.mul_one] at hlow hhigh
      have hn : n = p := Nat.le_antisymm (Nat.le_of_lt_succ hhigh) hlow
      exact ⟨[], by rw [hn, List.append_nil], rfl⟩
  | succ k ih =>
      have hbpos : 0 < b := Nat.lt_of_lt_of_le (by decide) hb
      have hn : 0 < n := Nat.lt_of_lt_of_le (Nat.mul_pos hp (Nat.pow_pos hbpos)) hlow
      have hdivlow : p * b ^ k ≤ n / b := by
        rw [Nat.le_div_iff_mul_le hbpos, Nat.mul_assoc, ← Nat.pow_succ]
        exact hlow
      have hdivhigh : n / b < (p + 1) * b ^ k := by
        rw [Nat.div_lt_iff_lt_mul hbpos, Nat.mul_assoc, ← Nat.pow_succ]
        exact hhigh
      obtain ⟨rest, hrest, hlen⟩ := ih hdivlow hdivhigh
      refine ⟨rest ++ [n % b], ?_, ?_⟩
      · rw [digits_of_pos hb hn, hrest, List.append_assoc]
      · rw [List.length_append, hlen, List.length_singleton]

theorem value_lt_pow {b : Nat} (hb : 2 ≤ b) {ds : List Nat} (hds : ∀ d ∈ ds, d < b) :
    value b ds < b ^ ds.length := by
  rw [value_eq_ofDigits, ← List.length_reverse]
  exact Nat.ofDigits_lt_base_pow_length hb fun d hd => hds d (List.mem_reverse.mp hd)

theorem value_pos {b : Nat} (hb : 0 < b) {ds : List Nat} (hhead : ds.headD 0 ≠ 0) :
    0 < value b ds := by
  cases ds with
  | nil => exact absurd rfl hhead
  | cons d ds =>
      have hd : value b [d] = d := by simp [value]
      rw [← List.singleton_append, value_append, hd]
      exact Nat.add_pos_left (Nat.mul_pos (Nat.pos_of_ne_zero hhead) (Nat.pow_pos hb)) _

theorem value_dropZeros (b : Nat) (ds : List Nat) :
    value b (ds.dropWhile (· == 0)) = value b ds := by
  induction ds with
  | nil => rfl
  | cons d ds ih =>
      by_cases hd : d = 0
      · subst hd
        rw [List.dropWhile_cons_of_pos rfl, ih]
        simp [value]
      · rw [List.dropWhile_cons_of_neg (by simpa using hd)]

theorem head?_dropZeros (ds : List Nat) : (ds.dropWhile (· == 0)).head? ≠ some 0 := by
  intro h
  have hnot := List.head?_dropWhile_not (· == 0) ds
  rw [h] at hnot
  exact absurd hnot (by decide)

theorem eq_zero_of_mem_takeZeros {ds : List Nat} {d : Nat} (h : d ∈ ds.takeWhile (· == 0)) :
    d = 0 := by
  have hzero := List.mem_takeWhile_imp h
  exact eq_of_beq hzero

theorem takeZeros_append {zeros ds : List Nat} (hzeros : ∀ d ∈ zeros, d = 0)
    (hhead : ds.head? ≠ some 0) : (zeros ++ ds).takeWhile (· == 0) = zeros := by
  rw [List.takeWhile_append_of_pos fun d hd => beq_iff_eq.mpr (hzeros d hd)]
  cases ds with
  | nil => simp
  | cons d ds =>
      have hd : d ≠ 0 := by simpa using hhead
      rw [List.takeWhile_cons_of_neg (by simpa using hd), List.append_nil]

theorem value_zeros_append (b : Nat) {zeros : List Nat} (hzeros : ∀ d ∈ zeros, d = 0)
    (ds : List Nat) : value b (zeros ++ ds) = value b ds := by
  rw [← value_dropZeros b (zeros ++ ds),
    List.dropWhile_append_of_pos fun d hd => beq_iff_eq.mpr (hzeros d hd), value_dropZeros]

theorem lt_of_mem_convert {source target : Nat} (ht : 2 ≤ target) {ds : List Nat} {d : Nat}
    (h : d ∈ convert source target ds) : d < target := by
  obtain h | h := List.mem_append.mp h
  · rw [eq_zero_of_mem_takeZeros h]
    exact Nat.lt_of_lt_of_le (by decide) ht
  · exact lt_of_mem_digits ht h

/-- Back in the first base, the digit string is the one that was given. -/
theorem convert_convert {source target : Nat} (hs : 2 ≤ source) (ht : 2 ≤ target) {ds : List Nat}
    (hds : ∀ d ∈ ds, d < source) : convert target source (convert source target ds) = ds := by
  have hzeros : ∀ d ∈ ds.takeWhile (· == 0), d = 0 := fun d hd => eq_zero_of_mem_takeZeros hd
  have hrest : ∀ d ∈ ds.dropWhile (· == 0), d < source := fun d hd =>
    hds d ((List.dropWhile_sublist _).subset hd)
  calc convert target source (convert source target ds)
      = ds.takeWhile (· == 0) ++ digits source (value source ds) := by
        rw [convert, convert, takeZeros_append hzeros (head?_digits ht _),
          value_zeros_append target hzeros, value_digits ht]
    _ = ds.takeWhile (· == 0) ++ ds.dropWhile (· == 0) := by
        rw [← value_dropZeros, digits_value hs hrest (head?_dropZeros ds)]
    _ = ds := List.takeWhile_append_dropWhile

end Micheline.Radix
