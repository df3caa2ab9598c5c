import Micheline.Address
import Micheline.CommandLine.Invocation
import Micheline.CommandLine.Report
import Micheline.Expr.Json

/-!
Running a command line. The program sees standard input and files as functions, and so it sees
the texts that the packages it is built on have for what they refuse; a run is a function of its
arguments and of those. It prints only when it succeeds.
-/

namespace Micheline.CommandLine

inductive InputError
  | notFound
  | denied
  | notDirectory
  | directory
  | nameTooLong
  | other (description : String)
deriving DecidableEq, Repr

def InputError.message : InputError → String
  | .notFound => "No such file or directory (os error 2)"
  | .denied => "Permission denied (os error 13)"
  | .notDirectory => "Not a directory (os error 20)"
  | .directory => "Is a directory (os error 21)"
  | .nameTooLong => "File name too long (os error 36)"
  | .other description => description

/-- What the packages say: the reader of JSON about a text that it refuses, and the reader of the
command line about arguments that it stops at. -/
structure Wording where
  refusal : String → Expr.ReadError → String
  stop : List String → Stop → String

structure Surroundings where
  standardInput : ByteArray
  file : String → Except InputError ByteArray
  wording : Wording

/-- The text of an input. A refusal says what was being read. -/
def textOf (what : String) (content : Except InputError ByteArray) : Except Failure String :=
  match content with
  | .error error => .error ⟨"reading " ++ what, [error.message]⟩
  | .ok bytes =>
    match String.fromUTF8? bytes with
    | some text => .ok text
    | none => .error ⟨"reading " ++ what, ["stream did not contain valid UTF-8"]⟩

def Source.read (surroundings : Surroundings) : Source → Except Failure String
  | .argument text => .ok text
  | .file path => textOf path (surroundings.file path)
  | .standardInput => textOf "stdin" (.ok surroundings.standardInput)

def identifierCauses : Identifier.Error → List String
  | .base58 _ cause => [cause.message]
  | _ => []

def identifierFailure (error : Identifier.Error) : Failure :=
  ⟨error.message, identifierCauses error⟩

def addressFailure (error : Account.Error) : Failure :=
  match error with
  | .invalid _ cause => ⟨error.message, cause.message :: identifierCauses cause⟩
  | .unexpectedKind _ => ⟨error.message, []⟩

def packed (maxDepth : Nat) (e : Expr) : Except Failure String :=
  match e.packWithin maxDepth with
  | .ok bytes => .ok (Hex.encode bytes)
  | .error error => .error ⟨"packing failed", [error.message]⟩

def demoExpr (target : Bytes) (id amount : String) : Expr :=
  .pair (.pair (.string id) (.ofBytes target)) (.int amount)

def Invocation.perform (surroundings : Surroundings) (invocation : Invocation) :
    Except Failure String :=
  match invocation.command with
  | .pack source => do
    let text ← source.read surroundings
    match Expr.ofJsonText text with
    | .ok e => packed invocation.maxDepth e
    | .error error =>
      .error ⟨"invalid Micheline JSON", [surroundings.wording.refusal text error]⟩
  | .address text => do
    let bytes ← (Address.encode text).mapError addressFailure
    return Hex.encode bytes
  | .resolve text candidates => do
    let identifier ← (Identifier.resolve candidates text).mapError identifierFailure
    return identifier.kind.name ++ " " ++ Hex.encode identifier.payload
  | .demo target id amount => do
    let bytes ← (Address.encode target).mapError addressFailure
    packed invocation.maxDepth (demoExpr bytes id amount)

/-- A refusal goes to the errors; help and the version are output that was asked for. -/
def Stop.report (text : String) : Stop → Report
  | .refused => ⟨2, "", text⟩
  | .help | .version => ⟨0, text, ""⟩

def run (surroundings : Surroundings) (arguments : List String) : Report :=
  match parse arguments with
  | .error stop => stop.report (surroundings.wording.stop arguments stop)
  | .ok invocation =>
    match invocation.perform surroundings with
    | .ok line => ⟨0, line ++ "\n", ""⟩
    | .error failure => ⟨1, "", failure.text⟩

end Micheline.CommandLine
