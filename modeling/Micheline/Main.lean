import Micheline.CommandLine

/-!
The program. Only the input that the command line asks for is read, and then the report of the
run is printed. In place of the texts of other packages it gives the bare kind of a refusal.
-/

namespace Micheline.CommandLine

/-- The number of an error; it may be given with its sign turned. -/
def errorNumber (code : UInt32) : Nat :=
  if code < 0x80000000 then code.toNat else (0 - code).toNat

def inputError (error : IO.Error) : InputError :=
  match error with
  | .noFileOrDirectory .. => .notFound
  | .permissionDenied .. => .denied
  | .inappropriateType _ code _ => if errorNumber code = 20 then .notDirectory else .directory
  | .invalidArgument _ code _ =>
    if errorNumber code = 36 then .nameTooLong else .other (toString error)
  | _ => .other (toString error)

def readPath (path : String) : IO (Except InputError ByteArray) := do
  try
    return .ok (← IO.FS.readBinFile path)
  catch error =>
    return .error (inputError error)

def readStandardInput : IO ByteArray := do
  (← IO.getStdin).readBinToEnd

def plainWording : Wording where
  refusal _ error := match error with
    | .json .syntaxError => "not JSON"
    | .json .endedEarly => "JSON that ends early"
    | .data => "JSON of another form"
  stop _ stop := match stop with
    | .refused => "error: invalid arguments\n"
    | .help | .version => ""

def surroundingsOf (arguments : List String) : IO Surroundings := do
  match parse arguments with
  | .ok ⟨_, .pack (.file path)⟩ =>
    let content ← readPath path
    return ⟨.empty, fun _ => content, plainWording⟩
  | .ok ⟨_, .pack .standardInput⟩ =>
    return ⟨← readStandardInput, fun _ => .error .notFound, plainWording⟩
  | _ =>
    return ⟨.empty, fun _ => .error .notFound, plainWording⟩

end Micheline.CommandLine

open Micheline.CommandLine in
def main (arguments : List String) : IO UInt32 := do
  let report := run (← surroundingsOf arguments) arguments
  (← IO.getStdout).putStr report.output
  (← IO.getStderr).putStr report.errors
  return report.code.toUInt32
