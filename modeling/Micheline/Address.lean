import Micheline.Account

/-!
Addresses: an account and an entrypoint. In text the entrypoint stands behind a percent sign and
ends before the next one; what follows that is ignored. In binary its name runs to the end, and
the default entrypoint, which has two spellings, is left out.
-/

namespace Micheline

structure Entrypoint where
  name : String
deriving DecidableEq, Repr

namespace Entrypoint

/-- The entrypoint meant where none is named. -/
def default : Entrypoint := ⟨"default"⟩

/-- Whether the name denotes the default entrypoint. The empty name does, too. -/
def isDefault (entrypoint : Entrypoint) : Bool :=
  entrypoint.name == "" || entrypoint == default

def toBytes (entrypoint : Entrypoint) : Bytes :=
  Bytes.ofText entrypoint.name

instance : Ord Entrypoint where
  compare a b := compare a.toBytes b.toBytes

end Entrypoint

structure Address where
  account : Account
  entrypoint : Entrypoint
deriving DecidableEq

namespace Address

def separator : Char := '%'

def beforeSeparator (text : List Char) : List Char :=
  text.takeWhile (· != separator)

/-- The text behind the first separator; empty if there is none. -/
def afterSeparator (text : List Char) : List Char :=
  (text.dropWhile (· != separator)).drop 1

def accountPart (text : String) : String :=
  String.ofList (beforeSeparator text.toList)

def entrypointPart (text : String) : String :=
  String.ofList (beforeSeparator (afterSeparator text.toList))

/-- The address a text denotes. A refusal names the whole text. -/
def parse (text : String) : Except Account.Error Address :=
  match Account.parse (accountPart text) with
  | .ok account => .ok ⟨account, ⟨entrypointPart text⟩⟩
  | .error (.invalid _ cause) => .error (.invalid text cause)
  | .error error => .error error

def toBytes (address : Address) : Bytes :=
  address.account.toBytes
    ++ if address.entrypoint.isDefault then [] else address.entrypoint.toBytes

def encode (text : String) : Except Account.Error Bytes :=
  (parse text).map toBytes

instance : Ord Address where
  compare a b := (compare a.account b.account).then (compare a.entrypoint b.entrypoint)

def comparisons (addresses : List Address) : List Ordering :=
  List.zipWith compare addresses addresses.tail

/-- The places of addresses in ascending order; equal addresses keep their order. -/
def ranking (addresses : List Address) : List Nat :=
  (addresses.zipIdx.mergeSort fun a b => (compare a.1 b.1).isLE).map Prod.snd

end Address
end Micheline
