import Micheline.Radix

/-!
The inside of JSON strings. Writing escapes the quote, the backslash and the controls below
U+0020, the latter by a letter where there is one. Reading takes every escape of the grammar; a
pair of surrogates is one character, and a surrogate without its partner is refused.
-/

namespace Micheline.Json.Text

/-- The low `width` hexadecimal digits of a number, in lower case. -/
def hexDigits : Nat → Nat → List Char
  | 0, _ => []
  | width + 1, n => hexDigits width (n / 16) ++ [Nat.digitChar (n % 16)]

def escapeChar (c : Char) : List Char :=
  match c with
  | '"' => ['\\', '"']
  | '\\' => ['\\', '\\']
  | '\x08' => ['\\', 'b']
  | '\x0c' => ['\\', 'f']
  | '\n' => ['\\', 'n']
  | '\r' => ['\\', 'r']
  | '\t' => ['\\', 't']
  | c => if c.toNat < 0x20 then ['\\', 'u'] ++ hexDigits 4 c.toNat else [c]

def escape (text : List Char) : List Char :=
  text.flatMap escapeChar

def hexDigit? (c : Char) : Option Nat :=
  if c.isDigit then some (c.toNat - '0'.toNat)
  else if 'a' ≤ c ∧ c ≤ 'f' then some (c.toNat - 'a'.toNat + 10)
  else if 'A' ≤ c ∧ c ≤ 'F' then some (c.toNat - 'A'.toNat + 10)
  else none

def readUnit? : List Char → Option (Nat × List Char)
  | a :: b :: c :: d :: rest =>
    ([a, b, c, d].mapM hexDigit?).map fun digits => (Radix.value 16 digits, rest)
  | _ => none

/-- Whether a code unit is the first of a pair. -/
def isLeading (unit : Nat) : Bool := 0xd800 ≤ unit && unit < 0xdc00

/-- Whether a code unit is the second of a pair. -/
def isTrailing (unit : Nat) : Bool := 0xdc00 ≤ unit && unit < 0xe000

def ofPair (leading trailing : Nat) : Char :=
  Char.ofNat (0x10000 + 0x400 * (leading - 0xd800) + (trailing - 0xdc00))

def readTrailing? (leading : Nat) : List Char → Option (Char × List Char)
  | '\\' :: 'u' :: rest =>
    match readUnit? rest with
    | some (unit, rest) => if isTrailing unit then some (ofPair leading unit, rest) else none
    | none => none
  | _ => none

def readNumeric? (s : List Char) : Option (Char × List Char) :=
  match readUnit? s with
  | some (unit, rest) =>
    if isLeading unit then readTrailing? unit rest
    else if isTrailing unit then none
    else some (Char.ofNat unit, rest)
  | none => none

def ofLetter? : Char → Option Char
  | '"' => some '"'
  | '\\' => some '\\'
  | '/' => some '/'
  | 'b' => some '\x08'
  | 'f' => some '\x0c'
  | 'n' => some '\n'
  | 'r' => some '\r'
  | 't' => some '\t'
  | _ => none

def readEscape? : List Char → Option (Char × List Char)
  | 'u' :: rest => readNumeric? rest
  | letter :: rest => (ofLetter? letter).map fun c => (c, rest)
  | [] => none

/-- Reads one character of a string. There is none at a quote, nor at a control. -/
def readChar? : List Char → Option (Char × List Char)
  | '\\' :: rest => readEscape? rest
  | c :: rest => if c = '"' ∨ c.toNat < 0x20 then none else some (c, rest)
  | [] => none

private theorem length_readUnit {s rest : List Char} {unit : Nat}
    (h : readUnit? s = some (unit, rest)) : rest.length < s.length := by
  unfold readUnit? at h
  split at h
  · obtain ⟨digits, _, h⟩ := Option.map_eq_some_iff.1 h
    cases h
    simp only [List.length_cons]
    omega
  · cases h

private theorem length_readTrailing {s rest : List Char} {leading : Nat} {c : Char}
    (h : readTrailing? leading s = some (c, rest)) : rest.length < s.length := by
  unfold readTrailing? at h
  split at h
  · split at h
    · next hu =>
      have := length_readUnit hu
      split at h
      · obtain ⟨_, rfl⟩ := Prod.mk.inj (Option.some.inj h)
        simp only [List.length_cons]
        omega
      · cases h
    · cases h
  · cases h

private theorem length_readNumeric {s rest : List Char} {c : Char}
    (h : readNumeric? s = some (c, rest)) : rest.length < s.length := by
  unfold readNumeric? at h
  split at h
  · next hu =>
    have hlt := length_readUnit hu
    split at h
    · exact Nat.lt_trans (length_readTrailing h) hlt
    · split at h
      · cases h
      · obtain ⟨_, rfl⟩ := Prod.mk.inj (Option.some.inj h)
        exact hlt
  · cases h

private theorem length_readEscape {s rest : List Char} {c : Char}
    (h : readEscape? s = some (c, rest)) : rest.length < s.length := by
  unfold readEscape? at h
  split at h
  · have := length_readNumeric h
    simp only [List.length_cons]
    omega
  · obtain ⟨_, _, h⟩ := Option.map_eq_some_iff.1 h
    cases h
    simp
  · cases h

theorem length_readChar {s rest : List Char} {c : Char}
    (h : readChar? s = some (c, rest)) : rest.length < s.length := by
  unfold readChar? at h
  split at h
  · have := length_readEscape h
    simp only [List.length_cons]
    omega
  · split at h
    · cases h
    · cases h
      simp
  · cases h

/-- The string ends at a quote. -/
def readEnd? (read : List Char) : List Char → Option (List Char × List Char)
  | '"' :: rest => some (read.reverse, rest)
  | _ => none

private theorem length_readEnd {read s text rest : List Char}
    (h : readEnd? read s = some (text, rest)) : rest.length < s.length := by
  unfold readEnd? at h
  split at h
  · cases h
    simp
  · cases h

/-- Reads a string up to its closing quote, behind characters already read, newest first. -/
def readBody? (read : List Char) (s : List Char) : Option (List Char × List Char) :=
  match h : readChar? s with
  | some (c, rest) =>
    have := length_readChar h
    readBody? (c :: read) rest
  | none => readEnd? read s
termination_by s.length

theorem length_readBody {read s text rest : List Char}
    (h : readBody? read s = some (text, rest)) : rest.length < s.length := by
  induction read, s using readBody?.induct with
  | case1 read s c behind hc hlt ih =>
    unfold readBody? at h
    split at h
    · next c' behind' hc' =>
      rw [hc] at hc'
      cases hc'
      exact Nat.lt_trans (ih h) hlt
    · next hn => simp [hc] at hn
  | case2 read s hn =>
    unfold readBody? at h
    split at h
    · next hc => simp [hn] at hc
    · exact length_readEnd h

end Micheline.Json.Text
