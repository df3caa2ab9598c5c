import Micheline.Decimal

/-!
How a run of the program ends: an exit code, what it prints, and the account of a failure. A
failure has a message and the causes behind it; a single cause is indented, several are numbered.
-/

namespace Micheline.CommandLine

/-- A failure and what caused it, the nearest cause first. -/
structure Failure where
  message : String
  causes : List String
deriving DecidableEq, Repr

structure Report where
  code : Nat
  output : String
  errors : String
deriving DecidableEq, Repr

def indentLines (indent : String) (text : String) : String :=
  String.ofList (text.toList.flatMap fun c => if c = '\n' then c :: indent.toList else [c])

def numberColumn (n : Nat) : String :=
  let digits := Decimal.ofNat n
  String.ofList (List.replicate (5 - digits.length) ' ' ++ digits)

namespace Failure

/-- The causes, each on a line of its own, numbered from the given one. -/
def numbered (next : Nat) : List String → List String
  | [] => []
  | cause :: rest =>
    (numberColumn next ++ ": " ++ indentLines "       " cause) :: numbered (next + 1) rest

def causeLines : List String → List String
  | [] => []
  | [cause] => ["", "Caused by:", "    " ++ indentLines "    " cause]
  | causes => "" :: "Caused by:" :: numbered 0 causes

def text (failure : Failure) : String :=
  String.join ((("Error: " ++ failure.message) :: causeLines failure.causes).map (· ++ "\n"))

end Failure
end Micheline.CommandLine
