/-!
Positional numerals: digits are natural numbers, most significant first, and zero is written
with no digit at all. Changing the base of a digit string keeps its leading zeros one for one,
so the length of the zero run survives although the number does not depend on it.
-/

namespace Micheline.Radix

/-- The digits of `n` in base `b` written in front of `tail`. A base below two writes none. -/
def digitsOnto (b n : Nat) (tail : List Nat) : List Nat :=
  if h : 2 ≤ b ∧ 0 < n then
    have : n / b < n := Nat.div_lt_self h.2 h.1
    digitsOnto b (n / b) (n % b :: tail)
  else
    tail
termination_by n

def digits (b n : Nat) : List Nat :=
  digitsOnto b n []

def value (b : Nat) (ds : List Nat) : Nat :=
  ds.foldl (fun n d => n * b + d) 0

/-- The same number in another base, behind as many zeros as the digit string begins with. -/
def convert (source target : Nat) (ds : List Nat) : List Nat :=
  ds.takeWhile (· == 0) ++ digits target (value source ds)

end Micheline.Radix
