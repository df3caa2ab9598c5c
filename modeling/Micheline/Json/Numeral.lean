import Micheline.Radix

/-!
JSON numbers. The grammar is an optional minus, whole digits without a superfluous leading zero,
an optional fraction and an optional exponent; the longest such text is taken. A number that the
reading into double precision would turn into an infinity is refused. That reading keeps a
significand below 2^64 and a power of ten, and rounds each of them before it multiplies.
-/

namespace Micheline.Json

structure Numeral where
  whole : List Char
  fraction : List Char
  exponent : Int

namespace Numeral

def spanDigits (s : List Char) : List Char × List Char :=
  (s.takeWhile Char.isDigit, s.dropWhile Char.isDigit)

def valueOf (digits : List Char) : Nat :=
  Radix.value 10 (digits.map fun c => c.toNat - '0'.toNat)

/-- Reads whole digits: a zero alone, or digits that begin with another one. -/
def readWhole? (s : List Char) : Option (List Char × List Char) :=
  match spanDigits s with
  | ([], _) => none
  | ('0' :: _ :: _, _) => none
  | split => some split

/-- Reads a point and at least one digit, if there is a point. -/
def readFraction? : List Char → Option (List Char × List Char)
  | '.' :: s =>
    match spanDigits s with
    | ([], _) => none
    | split => some split
  | s => some ([], s)

def readExponentDigits? (s : List Char) : Option (Nat × List Char) :=
  match spanDigits s with
  | ([], _) => none
  | (digits, rest) => some (valueOf digits, rest)

def readSigned? : List Char → Option (Int × List Char)
  | '-' :: s => (readExponentDigits? s).map fun (n, rest) => (-(n : Int), rest)
  | '+' :: s => (readExponentDigits? s).map fun (n, rest) => ((n : Int), rest)
  | s => (readExponentDigits? s).map fun (n, rest) => ((n : Int), rest)

/-- Reads the letter `e` in either case and what follows it, if there is such a letter. -/
def readExponent? : List Char → Option (Int × List Char)
  | 'e' :: s => readSigned? s
  | 'E' :: s => readSigned? s
  | s => some (0, s)

private theorem length_spanDigits {s digits rest : List Char}
    (h : spanDigits s = (digits, rest)) : digits.length + rest.length = s.length := by
  obtain ⟨rfl, rfl⟩ := Prod.mk.inj h
  rw [← List.length_append, List.takeWhile_append_dropWhile]

private theorem length_readWhole {s digits rest : List Char}
    (h : readWhole? s = some (digits, rest)) : rest.length < s.length := by
  unfold readWhole? at h
  split at h
  · cases h
  · cases h
  · next hne _ =>
    have hs : spanDigits s = (digits, rest) := Option.some.inj h
    have := length_spanDigits hs
    cases digits with
    | nil => exact absurd hs (hne rest)
    | cons _ _ =>
      simp only [List.length_cons] at this
      omega

private theorem length_readFraction {s digits rest : List Char}
    (h : readFraction? s = some (digits, rest)) : rest.length ≤ s.length := by
  unfold readFraction? at h
  split at h
  · split at h
    · cases h
    · have := length_spanDigits (Option.some.inj h)
      simp only [List.length_cons]
      omega
  · cases h
    exact Nat.le_refl _

private theorem length_readExponentDigits {s rest : List Char} {n : Nat}
    (h : readExponentDigits? s = some (n, rest)) : rest.length ≤ s.length := by
  unfold readExponentDigits? at h
  split at h
  · cases h
  · next hs =>
    have := length_spanDigits hs
    obtain ⟨_, rfl⟩ := Prod.mk.inj (Option.some.inj h)
    omega

private theorem length_readSigned {s rest : List Char} {n : Int}
    (h : readSigned? s = some (n, rest)) : rest.length ≤ s.length := by
  unfold readSigned? at h
  split at h <;> obtain ⟨⟨_, _⟩, hd, he⟩ := Option.map_eq_some_iff.1 h <;>
    obtain ⟨_, rfl⟩ := Prod.mk.inj he
  · exact Nat.le_succ_of_le (length_readExponentDigits hd)
  · exact Nat.le_succ_of_le (length_readExponentDigits hd)
  · exact length_readExponentDigits hd

private theorem length_readExponent {s rest : List Char} {n : Int}
    (h : readExponent? s = some (n, rest)) : rest.length ≤ s.length := by
  unfold readExponent? at h
  split at h
  · exact Nat.le_succ_of_le (length_readSigned h)
  · exact Nat.le_succ_of_le (length_readSigned h)
  · cases h
    exact Nat.le_refl _

def read? (s : List Char) : Option (Numeral × List Char) := do
  let (whole, s) ← readWhole? s
  let (fraction, s) ← readFraction? s
  let (exponent, s) ← readExponent? s
  return (⟨whole, fraction, exponent⟩, s)

theorem length_read {s rest : List Char} {n : Numeral}
    (h : read? s = some (n, rest)) : rest.length < s.length := by
  simp only [read?, bind, Option.bind_eq_some_iff, pure] at h
  obtain ⟨⟨_, s₁⟩, hw, ⟨_, s₂⟩, hf, ⟨_, s₃⟩, he, h⟩ := h
  obtain ⟨_, rfl⟩ := Prod.mk.inj (Option.some.inj h)
  exact Nat.lt_of_le_of_lt (length_readExponent he)
    (Nat.lt_of_le_of_lt (length_readFraction hf) (length_readWhole hw))

/-- A significand grows by leading digits as long as it stays below this bound. -/
def significandBound : Nat := Nat.pow 2 64

/-- Takes digits into a significand until one no longer fits; also the digits left over. -/
def absorb (significand : Nat) : List Char → Nat × List Char
  | [] => (significand, [])
  | c :: rest =>
    let next := 10 * significand + (c.toNat - '0'.toNat)
    if next < significandBound then absorb next rest else (significand, c :: rest)

/-- The significand and the power of ten that stand for the number. Whole digits that do not fit
raise the power, fraction digits that fit lower it, and other fraction digits are dropped. -/
def scaled (n : Numeral) : Nat × Int :=
  let (whole, wholeLeft) := absorb 0 n.whole
  let (significand, fractionLeft) := absorb whole n.fraction
  let used := n.fraction.length - fractionLeft.length
  (significand, (wholeLeft.length : Int) - used + n.exponent)

/-- The nearest number with at most 53 significant bits; a tie goes to the even neighbour. -/
def roundToDouble (n : Nat) : Nat :=
  let unit := Nat.pow 2 (n.log2 + 1 - 53)
  let quotient := n / unit
  let twice := 2 * (n % unit)
  if twice > unit ∨ (twice = unit ∧ quotient % 2 = 1) then (quotient + 1) * unit
  else quotient * unit

def maxPower : Int := 308

def overflows (n : Numeral) : Bool :=
  let (significand, power) := n.scaled
  if significand = 0 ∨ power < 0 then false
  else if power > maxPower then true
  else
    let scale := roundToDouble (Nat.pow 10 power.toNat)
    roundToDouble (roundToDouble significand * scale) ≥ Nat.pow 2 1024

end Numeral

def skipMinus : List Char → List Char
  | '-' :: s => s
  | s => s

def skipNumber? (s : List Char) : Option (List Char) :=
  match Numeral.read? (skipMinus s) with
  | some (numeral, rest) => if numeral.overflows then none else some rest
  | none => none

theorem length_skipNumber {s rest : List Char}
    (h : skipNumber? s = some rest) : rest.length < s.length := by
  unfold skipNumber? at h
  split at h
  · next hr =>
    have := Numeral.length_read hr
    have : (skipMinus s).length ≤ s.length := by
      unfold skipMinus
      split <;> simp
    split at h
    · cases h
    · cases h
      omega
  · cases h

end Micheline.Json
