import Micheline.Base58.Check
import Micheline.Decimal
import Micheline.Identifier.Kind

/-!
Typed identifiers: a payload of a known kind, written in checked base-58 text. Writing refuses a
payload of the wrong size. Reading is given candidate kinds and takes the first that fits.
-/

namespace Micheline

structure Identifier where
  kind : Identifier.Kind
  payload : Bytes
deriving DecidableEq, Repr

namespace Identifier

/-- Why a text is no identifier, or a payload cannot be written as one. -/
inductive Error
  | base58 (text : String) (cause : Base58.Check.Error)
  | unrecognised (text : String)
  | wrongSize (kind : Kind) (expected actual : Nat)
deriving DecidableEq, Repr

def Error.message : Error → String
  | .base58 text cause => "invalid identifier " ++ text ++ ": " ++ cause.message
  | .unrecognised text => "invalid identifier: " ++ text
  | .wrongSize kind expected actual =>
    "invalid payload size for " ++ kind.name ++ ": expected " ++ Decimal.print expected ++
      ", actual " ++ Decimal.print actual

def encode (kind : Kind) (payload : Bytes) : Except Error String :=
  if payload.length = kind.size then
    .ok (Base58.Check.encode (kind.lead ++ payload))
  else
    .error (.wrongSize kind kind.size payload.length)

/-- The first candidate that decoded octets fit, with their payload. -/
def classify? (candidates : List Kind) (decoded : Bytes) : Option Identifier :=
  candidates.findSome? fun kind => (kind.payload? decoded).map (⟨kind, ·⟩)

def resolve (candidates : List Kind) (text : String) : Except Error Identifier :=
  match Base58.Check.decode text with
  | .error cause => .error (.base58 text cause)
  | .ok decoded =>
    match classify? candidates decoded with
    | some identifier => .ok identifier
    | none => .error (.unrecognised text)

def decode (kind : Kind) (text : String) : Except Error Bytes :=
  (resolve [kind] text).map payload

end Identifier
end Micheline
