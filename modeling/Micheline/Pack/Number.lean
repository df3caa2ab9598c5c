import Micheline.Bytes

/-!
Integers in a varying number of octets. The first octet holds the sign and the low six bits of
the magnitude, each later one the next seven bits; the top bit of an octet says that another one
follows.
-/

namespace Micheline.Pack.Number

/-- The bit that says another octet follows. -/
def continued : Nat := 0x80

/-- The bit of the first octet that says the number is negative. -/
def negative : Nat := 0x40

/-- The octet of a group and those of the bits above it, low groups first. -/
def groups (group above : Nat) : Bytes :=
  if above = 0 then [UInt8.ofNat group]
  else UInt8.ofNat (group + continued) :: groups (above % 128) (above / 128)
termination_by above

def encode (n : Int) : Bytes :=
  groups ((if n < 0 then negative else 0) + n.natAbs % 64) (n.natAbs / 64)

end Micheline.Pack.Number
