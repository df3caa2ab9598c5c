/-!
Splitting arguments into words: flags, options with their values, and operands. Options may be
written `--name value`, `--name=value`, `-nvalue`, `-n=value` or `-n value`, and short ones may
share a hyphen. A value that stands alone must not look like an option. Behind `--` everything is
an operand.
-/

namespace Micheline.CommandLine

inductive OptionName
  | verbose
  | maxDepth
  | file
  | kind
  | id
  | amount
  | help
  | version
deriving DecidableEq, Repr

/-- How an option is written, and whether a value belongs to it. -/
structure OptionForm where
  name : OptionName
  long : String
  short : Option Char
  valued : Bool

inductive Word
  | flag (option : OptionName)
  | valued (option : OptionName) (value : String)
  | operand (text : String)
deriving DecidableEq, Repr

inductive Reading
  | complete
  | awaiting (option : OptionName)
  | refused

/-- Reads the letters behind a single hyphen. The first that takes a value takes all that is
left, less a leading equals sign; if nothing is left, its value must follow. -/
def readCluster (forms : List OptionForm) : List Char → List Word × Reading
  | [] => ([], .complete)
  | letter :: rest =>
    match forms.find? fun form => form.short == some letter with
    | none => ([], .refused)
    | some form =>
      if form.valued then
        match rest with
        | [] => ([], .awaiting form.name)
        | '=' :: value => ([.valued form.name (String.ofList value)], .complete)
        | value => ([.valued form.name (String.ofList value)], .complete)
      else
        let (words, reading) := readCluster forms rest
        (.flag form.name :: words, reading)

/-- Reads what stands behind two hyphens: a name, and behind an equals sign its value. -/
def readLong (forms : List OptionForm) (text : List Char) : List Word × Reading :=
  let name := String.ofList (text.takeWhile (· != '='))
  match forms.find? fun form => form.long == name with
  | none => ([], .refused)
  | some form =>
    match form.valued, text.dropWhile (· != '=') with
    | true, [] => ([], .awaiting form.name)
    | true, _ :: value => ([.valued form.name (String.ofList value)], .complete)
    | false, [] => ([.flag form.name], .complete)
    | false, _ :: _ => ([], .refused)

/-- Reads one argument. A hyphen alone is an operand. -/
def readArgument (forms : List OptionForm) (argument : String) : List Word × Reading :=
  match argument.toList with
  | '-' :: '-' :: text => readLong forms text
  | '-' :: letter :: rest => readCluster forms (letter :: rest)
  | _ => ([.operand argument], .complete)

/-- Whether an argument cannot be the value of the option in front of it. -/
def looksLikeOption (argument : String) : Bool :=
  match argument.toList with
  | '-' :: _ :: _ => true
  | _ => false

inductive Ending
  | complete
  | command (name : String) (rest : List String)
  | refused

structure Scan where
  words : List Word
  ending : Ending

def Scan.behind (scan : Scan) (earlier : List Word) : Scan :=
  { scan with words := earlier ++ scan.words }

/-- Splits arguments into words, up to the first that names a command. -/
def scan (forms : List OptionForm) (commands : List String) : List String → Scan
  | [] => ⟨[], .complete⟩
  | argument :: rest =>
    if argument == "--" then
      ⟨rest.map .operand, .complete⟩
    else if commands.contains argument then
      ⟨[], .command argument rest⟩
    else
      match readArgument forms argument with
      | (words, .complete) => (scan forms commands rest).behind words
      | (words, .refused) => ⟨words, .refused⟩
      | (words, .awaiting option) =>
        match rest with
        | [] => ⟨words, .refused⟩
        | value :: rest =>
          if looksLikeOption value then
            ⟨words, .refused⟩
          else
            (scan forms commands rest).behind (words ++ [.valued option value])

end Micheline.CommandLine
