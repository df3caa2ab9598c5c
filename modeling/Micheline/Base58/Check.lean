import Micheline.Base58
import Micheline.Sha256

/-!
Base-58 text that carries a checksum: the first four octets of the double SHA-256 digest, written
behind the payload.
-/

namespace Micheline.Base58.Check

inductive Error
  | invalidBase58
  | invalidChecksum
  | missingChecksum
deriving DecidableEq, Repr

def Error.message : Error → String
  | .invalidBase58 => "invalid base58"
  | .invalidChecksum => "invalid checksum"
  | .missingChecksum => "missing checksum"

def checksumSize : Nat := 4

def checksum (payload : Bytes) : Bytes :=
  (Sha256.digest (Sha256.digest payload)).take checksumSize

def encode (payload : Bytes) : String :=
  Base58.encode (payload ++ checksum payload)

/-- The payload of a text. Characters are checked first, then the length, then the checksum. -/
def decode (text : String) : Except Error Bytes :=
  match Base58.decode? text with
  | none => .error .invalidBase58
  | some bytes =>
    if bytes.length < checksumSize then
      .error .missingChecksum
    else
      let payload := bytes.take (bytes.length - checksumSize)
      if checksum payload = bytes.drop (bytes.length - checksumSize) then
        .ok payload
      else
        .error .invalidChecksum

@[simp]
theorem length_checksum (payload : Bytes) : (checksum payload).length = checksumSize := by
  simp [checksum, Sha256.length_digest, checksumSize]

end Micheline.Base58.Check
