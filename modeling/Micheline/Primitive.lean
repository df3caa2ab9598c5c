/-!
The vocabulary of primitives. A primitive is a place in a fixed list of names, and that place is
its code; names are never removed, so a code keeps its meaning.
-/

namespace Micheline

/-- The names of all primitives, in the order of their codes. -/
def vocabulary : List String :=
  ["parameter", "storage", "code", "False", "Elt", "Left", "None", "Pair", "Right", "Some",
   "True", "Unit", "PACK", "UNPACK", "BLAKE2B", "SHA256", "SHA512", "ABS", "ADD", "AMOUNT",
   "AND", "BALANCE", "CAR", "CDR", "CHECK_SIGNATURE", "COMPARE", "CONCAT", "CONS",
   "CREATE_ACCOUNT", "CREATE_CONTRACT", "IMPLICIT_ACCOUNT", "DIP", "DROP", "DUP", "EDIV",
   "EMPTY_MAP", "EMPTY_SET", "EQ", "EXEC", "FAILWITH", "GE", "GET", "GT", "HASH_KEY", "IF",
   "IF_CONS", "IF_LEFT", "IF_NONE", "INT", "LAMBDA", "LE", "LEFT", "LOOP", "LSL", "LSR", "LT",
   "MAP", "MEM", "MUL", "NEG", "NEQ", "NIL", "NONE", "NOT", "NOW", "OR", "PAIR", "PUSH", "RIGHT",
   "SIZE", "SOME", "SOURCE", "SENDER", "SELF", "STEPS_TO_QUOTA", "SUB", "SWAP",
   "TRANSFER_TOKENS", "SET_DELEGATE", "UNIT", "UPDATE", "XOR", "ITER", "LOOP_LEFT", "ADDRESS",
   "CONTRACT", "ISNAT", "CAST", "RENAME", "bool", "contract", "int", "key", "key_hash", "lambda",
   "list", "map", "big_map", "nat", "option", "or", "pair", "set", "signature", "string",
   "bytes", "mutez", "timestamp", "unit", "operation", "address", "SLICE", "DIG", "DUG",
   "EMPTY_BIG_MAP", "APPLY", "chain_id", "CHAIN_ID", "LEVEL", "SELF_ADDRESS", "never", "NEVER",
   "UNPAIR", "VOTING_POWER", "TOTAL_VOTING_POWER", "KECCAK", "SHA3", "PAIRING_CHECK",
   "bls12_381_g1", "bls12_381_g2", "bls12_381_fr", "sapling_state",
   "sapling_transaction_deprecated", "SAPLING_EMPTY_STATE", "SAPLING_VERIFY_UPDATE", "ticket",
   "TICKET_DEPRECATED", "READ_TICKET", "SPLIT_TICKET", "JOIN_TICKETS", "GET_AND_UPDATE", "chest",
   "chest_key", "OPEN_CHEST", "VIEW", "view", "constant", "SUB_MUTEZ", "tx_rollup_l2_address",
   "MIN_BLOCK_TIME", "sapling_transaction", "EMIT", "Lambda_rec", "LAMBDA_REC", "TICKET",
   "BYTES", "NAT", "Ticket", "IS_IMPLICIT_ACCOUNT", "INDEX_ADDRESS", "GET_ADDRESS_INDEX"]

theorem length_vocabulary : vocabulary.length = 161 := by
  decide +kernel

/-- A place in the vocabulary. -/
structure Primitive where
  index : Fin vocabulary.length
deriving DecidableEq

namespace Primitive

def name (p : Primitive) : String :=
  vocabulary.get p.index

def code (p : Primitive) : UInt8 :=
  UInt8.ofNat p.index

def all : List Primitive :=
  (List.finRange vocabulary.length).map fun i => ⟨i⟩

/-- The primitive of a name. Names are matched letter by letter. -/
def ofName? (name : String) : Option Primitive :=
  all.find? fun p => p.name == name

def pair : Primitive := ⟨7, by simp [length_vocabulary]⟩

def unit : Primitive := ⟨11, by simp [length_vocabulary]⟩

def falseValue : Primitive := ⟨3, by simp [length_vocabulary]⟩

def trueValue : Primitive := ⟨10, by simp [length_vocabulary]⟩

structure Unknown where
  name : String
deriving DecidableEq, Repr

def Unknown.message (unknown : Unknown) : String :=
  "unknown primitive: " ++ unknown.name

def ofName (name : String) : Except Unknown Primitive :=
  match ofName? name with
  | some p => .ok p
  | none => .error ⟨name⟩

end Primitive
end Micheline
