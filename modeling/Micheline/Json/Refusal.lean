import Micheline.Json.Token

/-!
Why no token can be read. A text may end before its token does, or go on with something that does
not belong there. An escape by number asks for four octets before it looks whether they are
digits, so there a text may count as ended although it could not have gone on.
-/

namespace Micheline.Json

inductive Refusal
  | syntaxError
  | endedEarly
deriving DecidableEq, Repr

namespace Text

def unitRefusal (s : List Char) : Refusal :=
  if (String.ofList s).utf8ByteSize < 4 then .endedEarly else .syntaxError

def trailingRefusal : List Char → Refusal
  | [] => .endedEarly
  | ['\\'] => .endedEarly
  | '\\' :: 'u' :: s => if (readUnit? s).isSome then .syntaxError else unitRefusal s
  | _ => .syntaxError

def numericRefusal (s : List Char) : Refusal :=
  match readUnit? s with
  | some (unit, rest) => if isLeading unit then trailingRefusal rest else .syntaxError
  | none => unitRefusal s

def charRefusal : List Char → Refusal
  | [] => .endedEarly
  | ['\\'] => .endedEarly
  | '\\' :: 'u' :: s => numericRefusal s
  | _ => .syntaxError

/-- Why the rest of a string is not read: its first character that is not decides. -/
def refusal (s : List Char) : Refusal :=
  match h : readChar? s with
  | some (_, rest) =>
    have := length_readChar h
    refusal rest
  | none => charRefusal s
termination_by s.length

end Text

/-- A number has ended early if one more digit would complete it. -/
def Numeral.refusal (s : List Char) : Refusal :=
  match read? s, read? (s ++ ['0']) with
  | none, some (_, []) => .endedEarly
  | _, _ => .syntaxError

namespace Token

def wordRefusal (word s : List Char) : Refusal :=
  if s.isPrefixOf word then .endedEarly else .syntaxError

def refusal : List Char → Refusal
  | [] => .endedEarly
  | 'n' :: s => wordRefusal ['u', 'l', 'l'] s
  | 't' :: s => wordRefusal ['r', 'u', 'e'] s
  | 'f' :: s => wordRefusal ['a', 'l', 's', 'e'] s
  | '"' :: s => Text.refusal s
  | s => Numeral.refusal (skipMinus s)

end Token
end Micheline.Json
