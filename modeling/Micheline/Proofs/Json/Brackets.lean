import Micheline.Json.Token
import Micheline.Proofs.Json.Text

/-!
How deep the brackets of a JSON text lie within each other, counted on the characters alone. A
bracket in a string counts for nothing, so the count has to know where strings begin and end. What
a token is read from moves the count by one at most, and only if the token is itself a bracket.
-/

namespace Micheline.Json

/-- Where a character stands, with the number of brackets open there: outside of strings, in a
string, or behind a backslash in a string. -/
inductive Place
  | outside (opened : Nat)
  | inside (opened : Nat)
  | escaped (opened : Nat)

/-- The characters that make a difference outside of strings. -/
def isMark : Char → Bool
  | '"' | '[' | ']' | '\x7b' | '\x7d' => true
  | _ => false

namespace Place

def opened : Place → Nat
  | outside n | inside n | escaped n => n

def behind : Place → Char → Place
  | outside n, '"' => inside n
  | outside n, '[' | outside n, '\x7b' => outside (n + 1)
  | outside n, ']' | outside n, '\x7d' => outside (n - 1)
  | inside n, '"' => outside n
  | inside n, '\\' => escaped n
  | escaped n, _ => inside n
  | place, _ => place

/-- The most brackets open at once from a place to the end of a text. -/
def deepest (place : Place) : List Char → Nat
  | [] => place.opened
  | c :: rest => max place.opened ((place.behind c).deepest rest)

theorem opened_le_deepest (place : Place) (s : List Char) : place.opened ≤ place.deepest s := by
  cases s with
  | nil => exact Nat.le_refl _
  | cons c rest => exact Nat.le_max_left ..

theorem deepest_step {place next : Place} {c : Char} (h : place.behind c = next)
    (hopened : place.opened ≤ next.opened) (rest : List Char) :
    place.deepest (c :: rest) = next.deepest rest := by
  rw [deepest, h]
  exact Nat.max_eq_right (Nat.le_trans hopened (opened_le_deepest ..))

theorem behind_outside {c : Char} (h : isMark c = false) (n : Nat) :
    (outside n).behind c = outside n := by
  unfold isMark at h
  split at h
  · cases h
  · cases h
  · cases h
  · cases h
  · cases h
  · unfold behind
    split <;> simp_all

theorem deepest_pass {c : Char} (h : isMark c = false) (n : Nat) (rest : List Char) :
    (outside n).deepest (c :: rest) = (outside n).deepest rest :=
  deepest_step (behind_outside h n) (Nat.le_refl n) rest

theorem deepest_quote (n : Nat) (rest : List Char) :
    (outside n).deepest ('"' :: rest) = (inside n).deepest rest :=
  have hinto : (outside n).behind '"' = inside n := rfl
  deepest_step hinto (Nat.le_refl n) rest

theorem deepest_unquote (n : Nat) (rest : List Char) :
    (inside n).deepest ('"' :: rest) = (outside n).deepest rest :=
  have hout : (inside n).behind '"' = outside n := rfl
  deepest_step hout (Nat.le_refl n) rest

theorem deepest_escape (n : Nat) (c : Char) (rest : List Char) :
    (inside n).deepest ('\\' :: c :: rest) = (inside n).deepest rest := by
  have hbackslash : (inside n).behind '\\' = escaped n := rfl
  have hbehind : (escaped n).behind c = inside n := rfl
  rw [deepest_step hbackslash (Nat.le_refl n), deepest_step hbehind (Nat.le_refl n)]

theorem deepest_plain {c : Char} (hquote : c ≠ '"') (hbackslash : c ≠ '\\') (n : Nat)
    (rest : List Char) : (inside n).deepest (c :: rest) = (inside n).deepest rest := by
  have hplain : (inside n).behind c = inside n := by
    unfold behind
    split <;> simp_all
  exact deepest_step hplain (Nat.le_refl n) rest

theorem deepest_dropWhile {p : Char → Bool} (h : ∀ c, p c → isMark c = false) (n : Nat)
    (s : List Char) : (outside n).deepest (s.dropWhile p) = (outside n).deepest s := by
  induction s with
  | nil => rfl
  | cons c s ih =>
      cases hc : p c with
      | true => rw [List.dropWhile_cons_of_pos hc, ih, deepest_pass (h c hc)]
      | false => rw [List.dropWhile_cons_of_neg (by simp [hc])]

end Place

/-- The most brackets of a text that are open at once. -/
def bracketDepth (text : String) : Nat :=
  (Place.outside 0).deepest text.toList

theorem isMark_of_isBlank (c : Char) (h : isBlank c) : isMark c = false := by
  unfold isMark
  split <;> first | rfl | cases h

theorem isMark_of_isDigit (c : Char) (h : c.isDigit) : isMark c = false := by
  unfold isMark
  split <;> first | rfl | cases h

theorem deepest_blank {rest : List Char} (h : rest.all isBlank) (n : Nat) :
    (Place.outside n).deepest rest = n := by
  induction rest with
  | nil => rfl
  | cons c rest ih =>
      rw [List.all_cons, Bool.and_eq_true] at h
      rw [Place.deepest_pass (isMark_of_isBlank c h.1), ih h.2]

namespace Numeral

open Place

variable {s rest : List Char} {n : Nat}

theorem deepest_spanDigits {digits : List Char} (h : spanDigits s = (digits, rest)) :
    (outside n).deepest s = (outside n).deepest rest := by
  obtain ⟨-, rfl⟩ := Prod.mk.inj h
  exact (deepest_dropWhile isMark_of_isDigit n s).symm

theorem deepest_readWhole {digits : List Char} (h : readWhole? s = some (digits, rest)) :
    (outside n).deepest s = (outside n).deepest rest := by
  unfold readWhole? at h
  split at h
  · cases h
  · cases h
  · exact deepest_spanDigits (Option.some.inj h)

theorem deepest_readFraction {digits : List Char} (h : readFraction? s = some (digits, rest)) :
    (outside n).deepest s = (outside n).deepest rest := by
  unfold readFraction? at h
  split at h
  · rw [deepest_pass rfl]
    split at h
    · cases h
    · exact deepest_spanDigits (Option.some.inj h)
  · cases h
    rfl

theorem deepest_readExponentDigits {value : Nat}
    (h : readExponentDigits? s = some (value, rest)) :
    (outside n).deepest s = (outside n).deepest rest := by
  unfold readExponentDigits? at h
  split at h
  · cases h
  next hs =>
    obtain ⟨-, rfl⟩ := Prod.mk.inj (Option.some.inj h)
    exact deepest_spanDigits hs

theorem deepest_readSigned {value : Int} (h : readSigned? s = some (value, rest)) :
    (outside n).deepest s = (outside n).deepest rest := by
  unfold readSigned? at h
  split at h <;> obtain ⟨_, hd, he⟩ := Option.map_eq_some_iff.mp h <;> cases he
  · rw [deepest_pass rfl]
    exact deepest_readExponentDigits hd
  · rw [deepest_pass rfl]
    exact deepest_readExponentDigits hd
  · exact deepest_readExponentDigits hd

theorem deepest_readExponent {value : Int} (h : readExponent? s = some (value, rest)) :
    (outside n).deepest s = (outside n).deepest rest := by
  unfold readExponent? at h
  split at h
  · rw [deepest_pass rfl]
    exact deepest_readSigned h
  · rw [deepest_pass rfl]
    exact deepest_readSigned h
  · cases h
    rfl

theorem deepest_read {numeral : Numeral} (h : read? s = some (numeral, rest)) :
    (outside n).deepest s = (outside n).deepest rest := by
  simp only [read?, bind, Option.bind_eq_some_iff, pure] at h
  obtain ⟨⟨_, behindWhole⟩, hwhole, ⟨_, behindFraction⟩, hfraction, ⟨_, behindExponent⟩,
    hexponent, h⟩ := h
  cases h
  calc (outside n).deepest s
      = (outside n).deepest behindWhole := deepest_readWhole hwhole
    _ = (outside n).deepest behindFraction := deepest_readFraction hfraction
    _ = (outside n).deepest behindExponent := deepest_readExponent hexponent

end Numeral

theorem deepest_skipNumber {s rest : List Char} (h : skipNumber? s = some rest) (n : Nat) :
    (Place.outside n).deepest s = (Place.outside n).deepest rest := by
  have hminus : (Place.outside n).deepest (skipMinus s) = (Place.outside n).deepest s := by
    unfold skipMinus
    split
    · rw [Place.deepest_pass rfl]
    · rfl
  unfold skipNumber? at h
  split at h
  next hread =>
    split at h
    · cases h
    · cases h
      rw [← hminus, Numeral.deepest_read hread]
  · cases h

namespace Text

open Place

variable {s rest : List Char} {n : Nat}

theorem deepest_hexDigit {c : Char} {value : Nat} (h : hexDigit? c = some value) :
    (inside n).deepest (c :: rest) = (inside n).deepest rest := by
  have hquote : c ≠ '"' := by
    rintro rfl
    cases h
  have hbackslash : c ≠ '\\' := by
    rintro rfl
    cases h
  exact deepest_plain hquote hbackslash n rest

theorem deepest_readUnit {unit : Nat} (h : readUnit? s = some (unit, rest)) :
    (inside n).deepest s = (inside n).deepest rest := by
  unfold readUnit? at h
  split at h
  next a b c d _ =>
    obtain ⟨digits, hdigits, h⟩ := Option.map_eq_some_iff.mp h
    cases h
    simp only [List.mapM_cons, List.mapM_nil, bind, Option.bind_eq_some_iff] at hdigits
    obtain ⟨_, ha, _, ⟨_, hb, _, ⟨_, hc, _, ⟨_, hd, -⟩, -⟩, -⟩, -⟩ := hdigits
    rw [deepest_hexDigit ha, deepest_hexDigit hb, deepest_hexDigit hc, deepest_hexDigit hd]
  · cases h

theorem deepest_readTrailing {leading : Nat} {c : Char}
    (h : readTrailing? leading s = some (c, rest)) :
    (inside n).deepest s = (inside n).deepest rest := by
  unfold readTrailing? at h
  split at h
  · split at h
    next hunit =>
      split at h
      · obtain ⟨-, rfl⟩ := Prod.mk.inj (Option.some.inj h)
        rw [deepest_escape, deepest_readUnit hunit]
      · cases h
    · cases h
  · cases h

theorem deepest_readNumeric {c : Char} (h : readNumeric? s = some (c, rest)) :
    (inside n).deepest s = (inside n).deepest rest := by
  unfold readNumeric? at h
  split at h
  next hunit =>
    rw [deepest_readUnit hunit]
    split at h
    · exact deepest_readTrailing h
    · split at h
      · cases h
      · cases h
        rfl
  · cases h

theorem deepest_readEscape {c : Char} (h : readEscape? s = some (c, rest)) :
    (inside n).deepest ('\\' :: s) = (inside n).deepest rest := by
  unfold readEscape? at h
  split at h
  · rw [deepest_escape, deepest_readNumeric h]
  · obtain ⟨_, -, h⟩ := Option.map_eq_some_iff.mp h
    cases h
    exact deepest_escape n _ _
  · cases h

theorem deepest_readChar {c : Char} (h : readChar? s = some (c, rest)) :
    (inside n).deepest s = (inside n).deepest rest := by
  unfold readChar? at h
  split at h
  · exact deepest_readEscape h
  next hbackslash =>
    split at h
    · cases h
    next hplain =>
      cases h
      have hquote := (not_or.mp hplain).1
      exact deepest_plain hquote hbackslash n _
  · cases h

/-- Whatever stands in a string, the count goes on behind its closing quote as it was. -/
theorem deepest_readBody {read text : List Char} (h : readBody? read s = some (text, rest)) :
    (inside n).deepest s = (outside n).deepest rest := by
  induction read, s using readBody?.induct with
  | case1 read s c behind hc _ ih =>
      rw [readBody?_of_readChar? hc] at h
      rw [deepest_readChar hc, ih h]
  | case2 read s hnone =>
      unfold readBody? at h
      split at h
      next hc =>
        rw [hnone] at hc
        cases hc
      next =>
        unfold readEnd? at h
        split at h
        · cases h
          exact deepest_unquote n rest
        · cases h

end Text

namespace Token

open Place

/-- How many containers are open behind a token, if so many are open in front of it. -/
def openedBehind (t : Token) (n : Nat) : Nat :=
  match t with
  | .openArray | .openObject => n + 1
  | .closeArray | .closeObject => n - 1
  | _ => n

theorem deepest_read {s rest : List Char} {t : Token} (h : read? s = some (t, rest)) (n : Nat) :
    (outside n).deepest s = max n ((outside (t.openedBehind n)).deepest rest) := by
  have hbase (rest : List Char) : (outside n).deepest rest = max n ((outside n).deepest rest) :=
    (Nat.max_eq_right (opened_le_deepest (outside n) rest)).symm
  unfold read? at h
  split at h
  case h_1 | h_2 | h_3 | h_4 | h_5 | h_6 =>
    cases h
    rfl
  -- The letters of a literal, a string as a whole and a number leave the count as it is.
  case h_7 | h_8 | h_9 =>
    cases h
    refine Eq.trans ?_ (hbase rest)
    simp (disch := decide) only [deepest_pass]
  case h_10 =>
    obtain ⟨_, hbody, he⟩ := Option.map_eq_some_iff.mp h
    cases he
    refine Eq.trans ?_ (hbase _)
    rw [deepest_quote, Text.deepest_readBody hbody]
  case h_11 =>
    obtain ⟨_, hnumber, he⟩ := Option.map_eq_some_iff.mp h
    cases he
    exact (deepest_skipNumber hnumber n).trans (hbase rest)

theorem deepest_next {s rest : List Char} {t : Token} (h : next? s = some (t, rest)) (n : Nat) :
    (outside n).deepest s = max n ((outside (t.openedBehind n)).deepest rest) := by
  rw [← deepest_dropWhile isMark_of_isBlank, deepest_read h]

end Token
end Micheline.Json
