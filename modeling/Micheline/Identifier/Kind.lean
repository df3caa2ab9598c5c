import Micheline.Bytes

/-!
The kinds of identifiers. Each kind has a name, the octets that lead its payload in the decoded
text, and a payload size. Decoded octets belong to a kind if they begin with its lead octets and
have exactly the length that those and a payload make together.
-/

namespace Micheline.Identifier

inductive Kind
  | chainId
  | blockHash
  | operationHash
  | operationListHash
  | operationListListHash
  | protocolHash
  | contextHash
  | contractTz1Hash
  | contractTz2Hash
  | contractTz3Hash
  | contractKt1Hash
  | cryptoboxPublicKeyHash
  | seedEd25519
  | publicKeyEd25519
  | secretKeySecp256k1
  | secretKeyP256
  | encryptedSeedEd25519
  | encryptedSecretKeySecp256k1
  | encryptedSecretKeyP256
  | publicKeySecp256k1
  | publicKeyP256
  | secp256k1Scalar
  | secp256k1Element
  | secretKeyEd25519
  | ed25519Signature
  | secp256k1Signature
  | p256Signature
  | unknownSignature
deriving DecidableEq, Repr

/-- The written form of a kind: its name, its lead octets and the size of its payload. -/
structure Form where
  name : String
  lead : Bytes
  size : Nat

namespace Kind

def form : Kind → Form
  | .chainId => ⟨"ChainId", [87, 82, 0], 4⟩
  | .blockHash => ⟨"BlockHash", [1, 52], 32⟩
  | .operationHash => ⟨"OperationHash", [5, 116], 32⟩
  | .operationListHash => ⟨"OperationListHash", [133, 233], 32⟩
  | .operationListListHash => ⟨"OperationListListHash", [29, 159, 109], 32⟩
  | .protocolHash => ⟨"ProtocolHash", [2, 170], 32⟩
  | .contextHash => ⟨"ContextHash", [79, 199], 32⟩
  | .contractTz1Hash => ⟨"ContractTz1Hash", [6, 161, 159], 20⟩
  | .contractTz2Hash => ⟨"ContractTz2Hash", [6, 161, 161], 20⟩
  | .contractTz3Hash => ⟨"ContractTz3Hash", [6, 161, 164], 20⟩
  | .contractKt1Hash => ⟨"ContractKt1Hash", [2, 90, 121], 20⟩
  | .cryptoboxPublicKeyHash => ⟨"CryptoboxPublicKeyHash", [153, 103], 16⟩
  | .seedEd25519 => ⟨"SeedEd25519", [13, 15, 58, 7], 32⟩
  | .publicKeyEd25519 => ⟨"PublicKeyEd25519", [13, 15, 37, 217], 32⟩
  | .secretKeySecp256k1 => ⟨"SecretKeySecp256k1", [17, 162, 224, 201], 32⟩
  | .secretKeyP256 => ⟨"SecretKeyP256", [16, 81, 238, 189], 32⟩
  | .encryptedSeedEd25519 => ⟨"EncryptedSeedEd25519", [7, 90, 60, 179, 41], 56⟩
  | .encryptedSecretKeySecp256k1 => ⟨"EncryptedSecretKeySecp256k1", [9, 237, 241, 174, 150], 56⟩
  | .encryptedSecretKeyP256 => ⟨"EncryptedSecretKeyP256", [9, 48, 57, 115, 171], 56⟩
  | .publicKeySecp256k1 => ⟨"PublicKeySecp256k1", [3, 254, 226, 86], 33⟩
  | .publicKeyP256 => ⟨"PublicKeyP256", [3, 178, 139, 127], 33⟩
  | .secp256k1Scalar => ⟨"Secp256k1Scalar", [38, 248, 136], 33⟩
  | .secp256k1Element => ⟨"Secp256k1Element", [5, 92, 0], 33⟩
  | .secretKeyEd25519 => ⟨"SecretKeyEd25519", [43, 246, 78, 7], 64⟩
  | .ed25519Signature => ⟨"Ed25519Signature", [9, 245, 205, 134, 18], 64⟩
  | .secp256k1Signature => ⟨"Secp256k1Signature", [13, 115, 101, 19, 63], 64⟩
  | .p256Signature => ⟨"P256Signature", [54, 240, 44, 52], 64⟩
  | .unknownSignature => ⟨"UnknownSignature", [4, 130, 43], 64⟩

def all : List Kind :=
  [.chainId, .blockHash, .operationHash, .operationListHash, .operationListListHash,
   .protocolHash, .contextHash, .contractTz1Hash, .contractTz2Hash, .contractTz3Hash,
   .contractKt1Hash, .cryptoboxPublicKeyHash, .seedEd25519, .publicKeyEd25519,
   .secretKeySecp256k1, .secretKeyP256, .encryptedSeedEd25519, .encryptedSecretKeySecp256k1,
   .encryptedSecretKeyP256, .publicKeySecp256k1, .publicKeyP256, .secp256k1Scalar,
   .secp256k1Element, .secretKeyEd25519, .ed25519Signature, .secp256k1Signature, .p256Signature,
   .unknownSignature]

def name (kind : Kind) : String := kind.form.name

def lead (kind : Kind) : Bytes := kind.form.lead

def size (kind : Kind) : Nat := kind.form.size

def position (kind : Kind) : Nat := all.idxOf kind

/-- The kind of a name. Names are matched letter by letter. -/
def ofName? (name : String) : Option Kind :=
  all.find? fun kind => kind.name == name

/-- The payload of decoded octets that belong to the kind, by length and by lead octets. -/
def payload? (kind : Kind) (decoded : Bytes) : Option Bytes :=
  if decoded.length = kind.lead.length + kind.size then
    kind.lead.isPrefixOf? decoded
  else
    none

theorem mem_all (kind : Kind) : kind ∈ all := by
  cases kind <;> decide

end Kind
end Micheline.Identifier
