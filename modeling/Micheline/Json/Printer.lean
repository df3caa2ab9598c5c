import Micheline.Json.Text
import Micheline.Json.Value

/-!
Compact JSON text: no blanks, members in their order. Every function writes in front of a text
that is already there, so a value of any nesting is written in one pass.
-/

namespace Micheline.Json

def Text.onto (text : String) (tail : List Char) : List Char :=
  '"' :: Text.escape text.toList ++ '"' :: tail

namespace Value

mutual
def onto : Value → List Char → List Char
  | .null, tail => 'n' :: 'u' :: 'l' :: 'l' :: tail
  | .bool true, tail => 't' :: 'r' :: 'u' :: 'e' :: tail
  | .bool false, tail => 'f' :: 'a' :: 'l' :: 's' :: 'e' :: tail
  | .number literal, tail => literal.toList ++ tail
  | .string text, tail => Text.onto text tail
  | .array items, tail => '[' :: itemsOnto items (']' :: tail)
  | .object members, tail => '\x7b' :: membersOnto members ('\x7d' :: tail)

def itemsOnto : List Value → List Char → List Char
  | [], tail => tail
  | value :: rest, tail => value.onto (moreItemsOnto rest tail)

def moreItemsOnto : List Value → List Char → List Char
  | [], tail => tail
  | value :: rest, tail => ',' :: value.onto (moreItemsOnto rest tail)

def membersOnto : List (String × Value) → List Char → List Char
  | [], tail => tail
  | (key, value) :: rest, tail => Text.onto key (':' :: value.onto (moreMembersOnto rest tail))

def moreMembersOnto : List (String × Value) → List Char → List Char
  | [], tail => tail
  | (key, value) :: rest, tail =>
    ',' :: Text.onto key (':' :: value.onto (moreMembersOnto rest tail))
end

def print (value : Value) : String :=
  String.ofList (value.onto [])

end Value
end Micheline.Json
