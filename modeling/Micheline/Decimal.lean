import Micheline.Radix

/-!
Decimal integers. Reading takes at most one sign and at least one ASCII digit, with any number
of leading zeros; printing writes the shortest such text, without a plus sign.
-/

namespace Micheline.Decimal

/-- The number written by ASCII digits alone; there must be at least one. -/
def natural? (digits : List Char) : Option Nat :=
  if !digits.isEmpty && digits.all Char.isDigit then
    some (Radix.value 10 (digits.map fun c => c.toNat - '0'.toNat))
  else
    none

def integer? : List Char → Option Int
  | '-' :: digits => (natural? digits).map fun n => -(n : Int)
  | '+' :: digits => (natural? digits).map fun n => (n : Int)
  | digits => (natural? digits).map fun n => (n : Int)

def parse? (text : String) : Option Int :=
  integer? text.toList

/-- The decimal digits of a number; zero has one. -/
def ofNat (n : Nat) : List Char :=
  if n = 0 then ['0'] else (Radix.digits 10 n).map Nat.digitChar

def print (n : Int) : String :=
  String.ofList (if n < 0 then '-' :: ofNat n.natAbs else ofNat n.natAbs)

end Micheline.Decimal
