import Micheline.Json.Text

/-!
Strings are read as they were written. Every character, in whichever way it is escaped, is read
back from the front of a text, and a closing quote can never be taken for a part of the string.
-/

namespace Micheline.Json.Text

theorem hexDigit?_digitChar {n : Nat} (h : n < 16) : hexDigit? (Nat.digitChar n) = some n := by
  have hall : ∀ i : Fin 16, hexDigit? (Nat.digitChar i) = some i.val := by decide
  exact hall ⟨n, h⟩

theorem readUnit?_hexDigits {n : Nat} (h : n < 0x10000) (rest : List Char) :
    readUnit? (hexDigits 4 n ++ rest) = some (n, rest) := by
  have hdigit (m : Nat) : hexDigit? (Nat.digitChar (m % 16)) = some (m % 16) :=
    hexDigit?_digitChar (Nat.mod_lt m (by decide))
  have hvalue :
      Radix.value 16 [n / 16 / 16 / 16 % 16, n / 16 / 16 % 16, n / 16 % 16, n % 16] = n := by
    simp only [Radix.value, List.foldl_cons, List.foldl_nil]
    omega
  simp [hexDigits, readUnit?, hdigit, hvalue]

theorem readNumeric?_hexDigits {c : Char} (h : c.toNat < 0x20) (rest : List Char) :
    readNumeric? (hexDigits 4 c.toNat ++ rest) = some (c, rest) := by
  have hleading : isLeading c.toNat = false := by
    simp [isLeading]
    omega
  have htrailing : isTrailing c.toNat = false := by
    simp [isTrailing]
    omega
  rw [readNumeric?, readUnit?_hexDigits (by omega)]
  simp [hleading, htrailing, Char.ofNat_toNat]

theorem readChar?_escapeChar (c : Char) (rest : List Char) :
    readChar? (escapeChar c ++ rest) = some (c, rest) := by
  fun_cases escapeChar c with
  | case1 | case2 | case3 | case4 | case5 | case6 | case7 => rfl
  | case8 _ _ _ _ _ _ _ _ hcontrol => exact readNumeric?_hexDigits hcontrol rest
  | case9 _ hquote _ _ _ _ _ _ hcontrol =>
      have hplain : ¬ (c = '"' ∨ c.toNat < 0x20) := not_or.mpr ⟨hquote, hcontrol⟩
      simp only [List.singleton_append, readChar?, if_neg hplain]

/-- A character that can be read is taken in front of what is left. -/
theorem readBody?_of_readChar? {read s rest : List Char} {c : Char}
    (h : readChar? s = some (c, rest)) : readBody? read s = readBody? (c :: read) rest := by
  rw [readBody?]
  split
  next h' =>
    rw [h] at h'
    cases h'
    rfl
  next h' =>
    rw [h] at h'
    cases h'

theorem readBody?_of_none {s : List Char} (h : readChar? s = none) (read : List Char) :
    readBody? read s = readEnd? read s := by
  rw [readBody?]
  split
  next h' =>
    rw [h] at h'
    cases h'
  next => rfl

theorem readBody?_quote (read rest : List Char) :
    readBody? read ('"' :: rest) = some (read.reverse, rest) :=
  readBody?_of_none rfl read

theorem readBody?_escape (read cs rest : List Char) :
    readBody? read (escape cs ++ '"' :: rest) = some (read.reverse ++ cs, rest) := by
  induction cs generalizing read with
  | nil => rw [escape, List.flatMap_nil, List.nil_append, readBody?_quote, List.append_nil]
  | cons c cs ih =>
      have hcons : escape (c :: cs) = escapeChar c ++ escape cs := List.flatMap_cons
      rw [hcons, List.append_assoc, readBody?_of_readChar? (readChar?_escapeChar c _), ih,
        List.reverse_cons, List.append_assoc, List.singleton_append]

end Micheline.Json.Text
