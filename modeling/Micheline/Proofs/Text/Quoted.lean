import Micheline.Proofs.Json.Text
import Micheline.Proofs.Radix
import Micheline.Text.Quoted

/-!
Quoted texts can be told apart, and told from what follows them. Each character is written as a
piece that no other piece begins with, and no piece begins with a quote.
-/

namespace Micheline.Text

/-- Whether the pieces that characters are written as can be told apart, whatever follows them. -/
def PrefixFree (piece : Char → List Char) : Prop :=
  ∀ c d r s, piece c ++ r = piece d ++ s → c = d ∧ r = s

/-- Pieces in a row are told apart if what follows the last of them does not begin with a piece. -/
theorem PrefixFree.flatMap_append_inj {piece : Char → List Char} (h : PrefixFree piece)
    {r s : List Char} (hr : ∀ c rest, piece c ++ rest ≠ r) (hs : ∀ c rest, piece c ++ rest ≠ s)
    {cs ds : List Char} (heq : cs.flatMap piece ++ r = ds.flatMap piece ++ s) :
    cs = ds ∧ r = s := by
  induction cs generalizing ds with
  | nil =>
      cases ds with
      | nil => exact ⟨rfl, heq⟩
      | cons d ds =>
          rw [List.flatMap_cons, List.append_assoc] at heq
          exact absurd heq.symm (hr d _)
  | cons c cs ih =>
      cases ds with
      | nil =>
          rw [List.flatMap_cons, List.append_assoc] at heq
          exact absurd heq (hs c _)
      | cons d ds =>
          simp only [List.flatMap_cons, List.append_assoc] at heq
          obtain ⟨rfl, hrest⟩ := h _ _ _ _ heq
          obtain ⟨rfl, hrs⟩ := ih hrest
          exact ⟨rfl, hrs⟩

/-- The number that hexadecimal digits denote. -/
def ofHexNumber (digits : List Char) : Nat :=
  Radix.value 16 (digits.filterMap Json.Text.hexDigit?)

theorem ofHexNumber_hexNumber (n : Nat) : ofHexNumber (hexNumber n) = n := by
  by_cases hn : n = 0
  · subst hn
    rfl
  · have hback : ∀ d ∈ Radix.digits 16 n, Json.Text.hexDigit? (Nat.digitChar d) = some d :=
      fun d hd => Json.Text.hexDigit?_digitChar (Radix.lt_of_mem_digits (by decide) hd)
    have hdigits : (Radix.digits 16 n).filterMap (Json.Text.hexDigit? ∘ Nat.digitChar) =
        Radix.digits 16 n := (List.filterMap_congr hback).trans List.filterMap_some
    rw [hexNumber, if_neg hn, ofHexNumber, List.filterMap_map, hdigits,
      Radix.value_digits (by decide)]

theorem ne_brace_of_mem_hexNumber {n : Nat} {c : Char} (h : c ∈ hexNumber n) : c ≠ '\x7d' := by
  have htable : ∀ d : Fin 16, Nat.digitChar d ≠ '\x7d' := by decide
  by_cases hn : n = 0
  · subst hn
    obtain rfl := List.mem_singleton.mp h
    decide
  · rw [hexNumber, if_neg hn] at h
    obtain ⟨d, hd, rfl⟩ := List.mem_map.mp h
    exact htable ⟨d, Radix.lt_of_mem_digits (by decide) hd⟩

/-- Reads back what stands behind a backslash. -/
def readEscaped? : List Char → Option (Char × List Char)
  | '"' :: rest => some ('"', rest)
  | '\\' :: rest => some ('\\', rest)
  | 't' :: rest => some ('\t', rest)
  | 'r' :: rest => some ('\r', rest)
  | 'n' :: rest => some ('\n', rest)
  | '0' :: rest => some ('\x00', rest)
  | 'u' :: '\x7b' :: rest =>
      some (Char.ofNat (ofHexNumber (rest.takeWhile (· != '\x7d'))),
        (rest.dropWhile (· != '\x7d')).tail)
  | _ => none

/-- Reads back the piece of one character. -/
def readPiece? : List Char → Option (Char × List Char)
  | '\\' :: rest => readEscaped? rest
  | c :: rest => some (c, rest)
  | [] => none

theorem readPiece?_hexNumber (c : Char) (rest : List Char) :
    readPiece? (['\\', 'u', '\x7b'] ++ hexNumber c.toNat ++ ['\x7d'] ++ rest) = some (c, rest) := by
  have hdigits : ∀ d ∈ hexNumber c.toNat, (d != '\x7d') = true := fun d hd =>
    bne_iff_ne.mpr (ne_brace_of_mem_hexNumber hd)
  have htake : (hexNumber c.toNat ++ '\x7d' :: rest).takeWhile (· != '\x7d') =
      hexNumber c.toNat := by
    rw [List.takeWhile_append_of_pos hdigits]
    simp
  have hdrop : (hexNumber c.toNat ++ '\x7d' :: rest).dropWhile (· != '\x7d') = '\x7d' :: rest := by
    rw [List.dropWhile_append_of_pos hdigits]
    simp
  simp only [List.cons_append, List.nil_append, List.append_assoc, readPiece?, readEscaped?, htake,
    hdrop, ofHexNumber_hexNumber, Char.ofNat_toNat, List.tail_cons]

theorem readPiece?_quoteChar (c : Char) (rest : List Char) :
    readPiece? (quoteChar c ++ rest) = some (c, rest) := by
  fun_cases quoteChar c with
  | case1 | case2 | case3 | case4 | case5 | case6 => rfl
  | case7 => simp [readPiece?]
  | case8 => exact readPiece?_hexNumber c rest

theorem prefixFree_quoteChar : PrefixFree quoteChar := by
  intro c d r s h
  have hread := readPiece?_quoteChar c r
  rw [h, readPiece?_quoteChar] at hread
  exact (Prod.mk.inj (Option.some.inj hread)).imp Eq.symm Eq.symm

theorem quoteChar_append_ne_quote (c : Char) (r s : List Char) : quoteChar c ++ r ≠ '"' :: s := by
  fun_cases quoteChar c <;> simp_all

/-- Quoted texts, whatever follows them. -/
theorem quoted_append_inj {s t : String} {r r' : List Char}
    (h : (quoted s).toList ++ r = (quoted t).toList ++ r') : s = t ∧ r = r' := by
  simp only [quoted, String.toList_ofList, List.cons_append, List.append_assoc,
    List.nil_append] at h
  obtain ⟨hchars, hrest⟩ := prefixFree_quoteChar.flatMap_append_inj
    (fun c _ => quoteChar_append_ne_quote c _ _) (fun c _ => quoteChar_append_ne_quote c _ _)
    (List.cons.inj h).2
  exact ⟨String.toList_inj.mp hchars, (List.cons.inj hrest).2⟩

end Micheline.Text
