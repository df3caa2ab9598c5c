import Micheline.CommandLine.Words
import Micheline.Decimal
import Micheline.Identifier.Kind
import Micheline.Pack.Encoder

/-!
What a command line asks for. Words are taken in order, and the first that does not fit, or that
asks for help, settles the matter; only then is it asked whether the words belong together. The
depth limit may stand on either side of the command's name, and the inner one counts.
-/

namespace Micheline.CommandLine

inductive Source
  | argument (text : String)
  | file (path : String)
  | standardInput
deriving DecidableEq, Repr

inductive Command
  | pack (source : Source)
  | address (text : String)
  | resolve (text : String) (candidates : List Identifier.Kind)
  | demo (target id amount : String)
deriving DecidableEq, Repr

/-- What is to be done, under which limit on the depth. -/
structure Invocation where
  maxDepth : Nat
  command : Command
deriving DecidableEq, Repr

inductive Stop
  | refused
  | help
  | version
deriving DecidableEq, Repr

structure Settings where
  maxDepth : Option Nat
  file : Option String
  kinds : List Identifier.Kind
  id : Option String
  amount : Option String
  operands : List String

namespace Settings

def blank : Settings := ⟨none, none, [], none, none, []⟩

def once {α : Type} (current : Option α) (value : Option α) : Except Stop (Option α) :=
  match current, value with
  | none, some v => .ok (some v)
  | _, _ => .error .refused

/-- The largest depth limit, exclusive. -/
def depthBound : Nat := Nat.pow 2 64

/-- Characters without a plus sign in front of them. -/
def unsigned : List Char → List Char
  | '+' :: rest => rest
  | cs => cs

/-- The depth limit a text denotes: digits, perhaps behind a plus sign. -/
def depth? (text : String) : Option Nat :=
  (Decimal.natural? (unsigned text.toList)).filter (· < depthBound)

/-- The path a text denotes; it must not be empty. -/
def path? (text : String) : Option String :=
  if text.isEmpty then none else some text

def add (capacity : Nat) (s : Settings) : Word → Except Stop Settings
  | .flag .help => .error .help
  | .flag .version => .error .version
  | .flag _ => .ok s
  | .valued .maxDepth text => do return { s with maxDepth := ← once s.maxDepth (depth? text) }
  | .valued .file text => do return { s with file := ← once s.file (path? text) }
  | .valued .id text => do return { s with id := ← once s.id (some text) }
  | .valued .amount text => do return { s with amount := ← once s.amount (some text) }
  | .valued .kind text =>
    match Identifier.Kind.ofName? text with
    | some kind => .ok { s with kinds := s.kinds ++ [kind] }
    | none => .error .refused
  | .valued _ _ => .error .refused
  | .operand text =>
    if s.operands.length < capacity then .ok { s with operands := s.operands ++ [text] }
    else .error .refused

def addAll (capacity : Nat) (s : Settings) (words : List Word) : Except Stop Settings :=
  words.foldlM (add capacity) s

end Settings

inductive CommandName
  | pack
  | address
  | resolve
  | demo
deriving DecidableEq, Repr

/-- The options that every command and the outer level have. -/
def commonForms : List OptionForm :=
  [⟨.verbose, "verbose", some 'v', false⟩, ⟨.maxDepth, "max-depth", none, true⟩,
   ⟨.help, "help", some 'h', false⟩, ⟨.version, "version", some 'V', false⟩]

namespace CommandName

def all : List CommandName := [.pack, .address, .resolve, .demo]

def name : CommandName → String
  | .pack => "pack"
  | .address => "address"
  | .resolve => "resolve"
  | .demo => "demo"

def ofName? (text : String) : Option CommandName :=
  all.find? fun c => c.name == text

def forms : CommandName → List OptionForm
  | .pack => ⟨.file, "file", some 'f', true⟩ :: commonForms
  | .address => commonForms
  | .resolve => ⟨.kind, "kind", some 'k', true⟩ :: commonForms
  | .demo => ⟨.id, "id", none, true⟩ :: ⟨.amount, "amount", none, true⟩ :: commonForms

def capacity (_ : CommandName) : Nat := 1

def defaultTarget : String := "KT1Ni4pYV3UGWcDp7MgR5prgcD4NCK1MpXiR"

def defaultId : String := "testId"

def defaultAmount : String := "17170000"

def complete (c : CommandName) (s : Settings) : Except Stop Command :=
  match c, s.operands with
  | .pack, [] =>
    .ok (.pack (match s.file with | some path => .file path | none => .standardInput))
  | .pack, [text] => if s.file.isNone then .ok (.pack (.argument text)) else .error .refused
  | .address, [text] => .ok (.address text)
  | .resolve, [text] =>
    .ok (.resolve text (if s.kinds.isEmpty then Identifier.Kind.all else s.kinds))
  | .demo, [] => .ok (demoOf defaultTarget)
  | .demo, [target] => .ok (demoOf target)
  | _, _ => .error .refused
where
  demoOf (target : String) : Command :=
    .demo target (s.id.getD defaultId) (s.amount.getD defaultAmount)

end CommandName

def helpWord : String := "help"

def commandWords : List String :=
  helpWord :: CommandName.all.map CommandName.name

/-- Asks for help, on at most one thing: a command, or help itself. -/
def helpOn (names : List String) : Stop :=
  if names.length ≤ 1 && names.all commandWords.contains then .help else .refused

/-- What the arguments of a command ask for, behind the settings of the outer level. -/
def parseCommand (outer : Settings) (c : CommandName) (arguments : List String) :
    Except Stop Invocation := do
  let inner := scan c.forms [] arguments
  let settings ← Settings.blank.addAll c.capacity inner.words
  match inner.ending with
  | .complete =>
    let command ← c.complete settings
    return ⟨(settings.maxDepth <|> outer.maxDepth).getD Pack.defaultLimit, command⟩
  | _ => .error .refused

def parse (arguments : List String) : Except Stop Invocation := do
  let outer := scan commonForms commandWords arguments
  let settings ← Settings.blank.addAll 0 outer.words
  match outer.ending with
  | .command name rest =>
    match CommandName.ofName? name with
    | some c => parseCommand settings c rest
    | none => .error (helpOn rest)
  | _ => .error .refused

end Micheline.CommandLine
