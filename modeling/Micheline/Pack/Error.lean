import Micheline.Decimal
import Micheline.Hex
import Micheline.Primitive
import Micheline.Text.Quoted

/-!
What can be wrong with an expression that is to be packed: nesting, the name of a primitive, an
integer literal, an octet literal.
-/

namespace Micheline

def Hex.Malformed.message (m : Malformed) : String :=
  "can't parse hex byte " ++ Text.quoted m.pair ++ " at offset " ++ Decimal.print m.offset

namespace Pack

inductive Error
  | depthExceeded (limit : Nat)
  | unknownPrimitive (unknown : Primitive.Unknown)
  | invalidInt (text : String)
  | malformedHex (malformed : Hex.Malformed)
deriving DecidableEq, Repr

def Error.message : Error → String
  | .depthExceeded limit =>
    "expression is nested deeper than " ++ Decimal.print limit ++ " levels"
  | .unknownPrimitive unknown => unknown.message
  | .invalidInt text => "invalid int literal: " ++ text
  | .malformedHex malformed => malformed.message

end Pack
end Micheline
