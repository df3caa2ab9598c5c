/-!
JSON values. Members of an object keep their order and may repeat a key; a number is kept as the
text it was written with.
-/

namespace Micheline.Json

inductive Value
  | null
  | bool (value : Bool)
  | number (literal : String)
  | string (text : String)
  | array (items : List Value)
  | object (members : List (String × Value))

namespace Value

mutual
/-- How many containers lie within each other at the deepest place. A scalar has none. -/
def nesting : Value → Nat
  | .array items => nestingItems items + 1
  | .object members => nestingMembers members + 1
  | _ => 0

def nestingItems : List Value → Nat
  | [] => 0
  | value :: rest => max value.nesting (nestingItems rest)

def nestingMembers : List (String × Value) → Nat
  | [] => 0
  | (_, value) :: rest => max value.nesting (nestingMembers rest)
end

end Value
end Micheline.Json
