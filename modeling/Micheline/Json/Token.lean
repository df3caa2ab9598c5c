import Micheline.Json.Numeral
import Micheline.Json.Text

/-!
The tokens of JSON. A token is read from the head of a text, behind blanks, and uses up some of
it; what stands behind a token is not looked at.
-/

namespace Micheline.Json

inductive Token
  | openArray
  | closeArray
  | openObject
  | closeObject
  | comma
  | colon
  | null
  | bool (value : Bool)
  | number (literal : String)
  | string (text : String)

def isBlank (c : Char) : Bool :=
  c == ' ' || c == '\t' || c == '\n' || c == '\r'

/-- The part of a text in front of a rest of it. -/
def consumed (s rest : List Char) : String :=
  String.ofList (s.take (s.length - rest.length))

namespace Token

def read? : List Char → Option (Token × List Char)
  | '[' :: rest => some (.openArray, rest)
  | ']' :: rest => some (.closeArray, rest)
  | '\x7b' :: rest => some (.openObject, rest)
  | '\x7d' :: rest => some (.closeObject, rest)
  | ',' :: rest => some (.comma, rest)
  | ':' :: rest => some (.colon, rest)
  | 'n' :: 'u' :: 'l' :: 'l' :: rest => some (.null, rest)
  | 't' :: 'r' :: 'u' :: 'e' :: rest => some (.bool true, rest)
  | 'f' :: 'a' :: 'l' :: 's' :: 'e' :: rest => some (.bool false, rest)
  | '"' :: s => (Text.readBody? [] s).map fun (text, rest) => (.string (String.ofList text), rest)
  | s => (skipNumber? s).map fun rest => (.number (consumed s rest), rest)

def next? (s : List Char) : Option (Token × List Char) :=
  read? (s.dropWhile isBlank)

private theorem length_read {s rest : List Char} {t : Token}
    (h : read? s = some (t, rest)) : rest.length < s.length := by
  unfold read? at h
  split at h
  case h_10 =>
    obtain ⟨⟨_, _⟩, hb, he⟩ := Option.map_eq_some_iff.1 h
    have := Text.length_readBody hb
    cases he
    simp only [List.length_cons]
    omega
  case h_11 =>
    obtain ⟨_, hn, he⟩ := Option.map_eq_some_iff.1 h
    cases he
    exact length_skipNumber hn
  all_goals
    cases h
    simp only [List.length_cons]
    omega

theorem length_next {s rest : List Char} {t : Token}
    (h : next? s = some (t, rest)) : rest.length < s.length :=
  Nat.lt_of_lt_of_le (length_read h) (List.dropWhile_sublist _).length_le

end Token
end Micheline.Json
