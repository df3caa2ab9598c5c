import Micheline.Expr
import Micheline.Json.Printer
import Micheline.Json.Reader

/-!
The JSON form of expressions. A sequence is an array; the other expressions are objects that are
told apart by one key, and empty arguments or annotations are left out. Reading looks for the
forms in a fixed order and takes the first whose own keys all fit: none of them repeated, each
with a value of the right type. Other keys are ignored, wherever they stand.
-/

namespace Micheline
namespace Expr

open Json (Value)

mutual
def toJson : Expr → Value
  | .int text => .object [("int", .string text)]
  | .string text => .object [("string", .string text)]
  | .bytes text => .object [("bytes", .string text)]
  | .app name args annots =>
    .object (("prim", .string name)
      :: ((if args.isEmpty then [] else [("args", .array (itemsToJson args))])
        ++ (if annots.isEmpty then [] else [("annots", .array (annots.map .string))])))
  | .seq items => .array (itemsToJson items)

def itemsToJson : List Expr → List Value
  | [] => []
  | e :: rest => toJson e :: itemsToJson rest
end

def jsonText (e : Expr) : String :=
  e.toJson.print

def underKey (key : String) (members : List (String × Value)) : List Value :=
  members.filterMap fun (k, value) => if k = key then some value else none

/-- The text under a key that stands exactly once. -/
def textUnder? (key : String) (members : List (String × Value)) : Option String :=
  match underKey key members with
  | [.string text] => some text
  | _ => none

def texts? : List Value → Option (List String)
  | [] => some []
  | .string text :: rest => (texts? rest).map (text :: ·)
  | _ :: _ => none

/-- The annotations of members; there are none without their key. -/
def annotsOf? (members : List (String × Value)) : Option (List String) :=
  match underKey "annots" members with
  | [] => some []
  | [.array items] => texts? items
  | _ => none

mutual
def ofJson? : Value → Option Expr
  | .array items => (ofItems? items).map .seq
  | .object members =>
    ((textUnder? "int" members).map .int)
      <|> ((textUnder? "string" members).map .string)
      <|> ((textUnder? "bytes" members).map .bytes)
      <|> (do
        let name ← textUnder? "prim" members
        let args ← match argsUnder members with
          | [] => some []
          | [args] => args
          | _ => none
        return .app name args (← annotsOf? members))
  | _ => none

def ofItems? : List Value → Option (List Expr)
  | [] => some []
  | value :: rest =>
    match ofJson? value with
    | some e => (ofItems? rest).map (e :: ·)
    | none => none

/-- What the members denote as arguments, one entry for each time the key stands. -/
def argsUnder : List (String × Value) → List (Option (List Expr))
  | [] => []
  | (key, value) :: rest =>
    if key = "args" then
      (match value with
        | .array items => ofItems? items
        | _ => none) :: argsUnder rest
    else
      argsUnder rest
end

/-- Why a text denotes no expression: it is not JSON, or its value is not an expression. -/
inductive ReadError
  | json (refusal : Json.Refusal)
  | data
deriving DecidableEq, Repr

/-- The expression a JSON text denotes. The first value is read and interpreted before the text
behind it is required to be blank. -/
def ofJsonText (text : String) : Except ReadError Expr :=
  match Value.read text.toList with
  | .error refusal => .error (.json refusal)
  | .ok (value, rest) =>
    match ofJson? value with
    | none => .error .data
    | some e => if rest.all Json.isBlank then .ok e else .error (.json .syntaxError)

end Expr
end Micheline
