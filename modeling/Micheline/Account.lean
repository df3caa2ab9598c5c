import Micheline.Identifier

/-!
Accounts: a kind and a hash of twenty octets. The text of an account is an identifier of one of
four kinds; its binary form has a fixed length and tells the three key kinds from contracts by
the first octet. Accounts are ordered by kind and then by hash.
-/

namespace Micheline

/-- Who holds an account: a key on one of three curves, or a contract. -/
inductive AccountKind
  | tz1
  | tz2
  | tz3
  | kt1
deriving DecidableEq, Repr

namespace AccountKind

def all : List AccountKind := [.tz1, .tz2, .tz3, .kt1]

def identifierKind : AccountKind → Identifier.Kind
  | .tz1 => .contractTz1Hash
  | .tz2 => .contractTz2Hash
  | .tz3 => .contractTz3Hash
  | .kt1 => .contractKt1Hash

def ofIdentifierKind? (kind : Identifier.Kind) : Option AccountKind :=
  all.find? fun k => k.identifierKind = kind

def rank : AccountKind → Nat
  | .tz1 => 0
  | .tz2 => 1
  | .tz3 => 2
  | .kt1 => 3

end AccountKind

def Account.hashSize : Nat := 20

structure Account where
  kind : AccountKind
  hash : Bytes
  length_hash : hash.length = Account.hashSize
deriving DecidableEq

namespace Account

/-- Why a text denotes no account or address. Only the first can arise from a text. -/
inductive Error
  | invalid (address : String) (cause : Identifier.Error)
  | unexpectedKind (kind : Identifier.Kind)
deriving DecidableEq, Repr

def Error.message : Error → String
  | .invalid address cause => "invalid address " ++ address ++ ": " ++ cause.message
  | .unexpectedKind kind => "unexpected address type: " ++ kind.name

/-- The account an identifier denotes. A refusal names the text that was read. -/
def ofIdentifier (text : String) (identifier : Identifier) : Except Error Account :=
  if h : identifier.payload.length = hashSize then
    match AccountKind.ofIdentifierKind? identifier.kind with
    | some kind => .ok ⟨kind, identifier.payload, h⟩
    | none => .error (.unexpectedKind identifier.kind)
  else
    .error (.invalid text (.wrongSize identifier.kind hashSize identifier.payload.length))

def parse (text : String) : Except Error Account :=
  match Identifier.resolve (AccountKind.all.map AccountKind.identifierKind) text with
  | .ok identifier => ofIdentifier text identifier
  | .error cause => .error (.invalid text cause)

/-- The binary form: a key account has its curve in front of the hash, a contract has a zero
octet behind it. -/
def toBytes (account : Account) : Bytes :=
  match account.kind with
  | .tz1 => 0 :: 0 :: account.hash
  | .tz2 => 0 :: 1 :: account.hash
  | .tz3 => 0 :: 2 :: account.hash
  | .kt1 => 1 :: account.hash ++ [0]

instance : Ord Account where
  compare a b := (compare a.kind.rank b.kind.rank).then (compare a.hash b.hash)

end Account
end Micheline
