import Micheline.Json.Refusal
import Micheline.Json.Value

/-!
Reading the first value of a text. The containers that are open stand on a stack, with what each
has collected; a token either changes the stack, completes the value or is refused. At most 127
containers may be open at once. What stands behind the value is not looked at.
-/

namespace Micheline.Json

/-- An open container that a value is being read for, with what came before, newest first. -/
inductive Frame
  | array (items : List Value)
  | object (members : List (String × Value)) (key : String)

/-- What may come next, and the containers that are open around it, innermost first. Behind an
item or a member, a comma or the end of its container is due. -/
inductive State
  | valueDue (outer : List Frame)
  | arrayOpened (outer : List Frame)
  | itemRead (items : List Value) (outer : List Frame)
  | objectOpened (outer : List Frame)
  | keyDue (members : List (String × Value)) (outer : List Frame)
  | colonDue (members : List (String × Value)) (key : String) (outer : List Frame)
  | memberRead (members : List (String × Value)) (outer : List Frame)

inductive Progress
  | more (state : State)
  | done (value : Value)

namespace State

def nestingLimit : Nat := 127

def supply (value : Value) : List Frame → Progress
  | [] => .done value
  | .array items :: outer => .more (.itemRead (value :: items) outer)
  | .object members key :: outer => .more (.memberRead ((key, value) :: members) outer)

def enter (outer : List Frame) (opened : State) : Option Progress :=
  if outer.length < nestingLimit then some (.more opened) else none

def beginValue (outer : List Frame) : Token → Option Progress
  | .null => some (supply .null outer)
  | .bool b => some (supply (.bool b) outer)
  | .number literal => some (supply (.number literal) outer)
  | .string text => some (supply (.string text) outer)
  | .openArray => enter outer (.arrayOpened outer)
  | .openObject => enter outer (.objectOpened outer)
  | _ => none

def step : State → Token → Option Progress
  | .valueDue outer, t => beginValue outer t
  | .arrayOpened outer, .closeArray => some (supply (.array []) outer)
  | .arrayOpened outer, t => beginValue (.array [] :: outer) t
  | .itemRead items outer, .comma => some (.more (.valueDue (.array items :: outer)))
  | .itemRead items outer, .closeArray => some (supply (.array items.reverse) outer)
  | .objectOpened outer, .closeObject => some (supply (.object []) outer)
  | .objectOpened outer, .string text => some (.more (.colonDue [] text outer))
  | .keyDue members outer, .string text => some (.more (.colonDue members text outer))
  | .colonDue members key outer, .colon => some (.more (.valueDue (.object members key :: outer)))
  | .memberRead members outer, .comma => some (.more (.keyDue members outer))
  | .memberRead members outer, .closeObject => some (supply (.object members.reverse) outer)
  | _, _ => none

/-- Whether a character is looked at more closely. Where a comma, a colon or the end of a
container is due, any other character is wrong, whatever token it begins. -/
def awaits (c : Char) : State → Bool
  | .valueDue _ | .arrayOpened _ => true
  | .objectOpened _ | .keyDue .. => c == '"'
  | .itemRead .. | .colonDue .. | .memberRead .. => false

/-- Why there is no token to take. -/
def refusal (state : State) (s : List Char) : Refusal :=
  match s.dropWhile isBlank with
  | [] => .endedEarly
  | c :: rest => if state.awaits c then Token.refusal (c :: rest) else .syntaxError

/-- Takes tokens until the value is complete; also the text behind it. -/
def run (state : State) (s : List Char) : Except Refusal (Value × List Char) :=
  match h : Token.next? s with
  | none => .error (state.refusal s)
  | some (t, rest) =>
    have := Token.length_next h
    match step state t with
    | some (.more next) => run next rest
    | some (.done value) => .ok (value, rest)
    | none => .error .syntaxError
termination_by s.length

end State

def Value.read (s : List Char) : Except Refusal (Value × List Char) :=
  State.run (.valueDue []) s

end Micheline.Json
