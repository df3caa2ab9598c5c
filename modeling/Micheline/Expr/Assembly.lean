import Micheline.Address
import Micheline.Expr.Json
import Micheline.Pack.Encoder

/-!
Putting expressions together on a stack, and questions about its top. A step takes its operands
from the top, the deepest one first; a step that is refused leaves the stack as it was. The name
of a primitive is looked up before any operand is taken.
-/

namespace Micheline.Expr.Assembly

/-- Expressions, the top first. -/
abbrev Stack := List Expr

inductive Step
  | push (e : Expr)
  | pushAddress (text : String)
  | pushJson (text : String)
  | prim (name : String) (arity : Nat)
  | app (name : String) (arity : Nat) (annots : List String)
  | seq (length : Nat)
  | annotate (annots : List String)
  | copy
  /-- Applies a primitive of the vocabulary to the top, again and again. -/
  | wrap (name : String) (times : Nat)
  /-- Makes the top a sequence of its own, again and again. -/
  | enclose (times : Nat)
  | compare
  | encode
  | pack
  | packWithin (limit : Nat)
  /-- Asks whether the JSON text of the top denotes the same expression. -/
  | reread

inductive Answer
  /-- An expression was put on the stack, which now has so many. -/
  | pushed (size : Nat) (top : Expr)
  /-- The top of a stack of so many expressions was wrapped. -/
  | wrapped (size : Nat) (top : Expr)
  | equal (holds : Bool)
  | packed (bytes : Bytes)

inductive Refusal
  | underflow
  | unknownPrimitive (unknown : Primitive.Unknown)
  | address (error : Account.Error)
  | json (error : ReadError)
  | pack (error : Pack.Error)

def take (stack : Stack) (count : Nat) : Except Refusal (List Expr × Stack) :=
  if count ≤ stack.length then .ok ((stack.take count).reverse, stack.drop count)
  else .error .underflow

def pop : Stack → Except Refusal (Expr × Stack)
  | [] => .error .underflow
  | top :: rest => .ok (top, rest)

def put (e : Expr) (stack : Stack) : Stack × Answer :=
  (e :: stack, .pushed (stack.length + 1) e)

def layers (layer : Expr → Expr) : Nat → Expr → Expr
  | 0, e => e
  | times + 1, e => layers layer times (layer e)

def wrapTop (layer : Expr → Expr) (times : Nat) (stack : Stack) :
    Except Refusal (Stack × Answer) := do
  let (top, rest) ← pop stack
  let wrapped := layers layer times top
  return (wrapped :: rest, .wrapped stack.length wrapped)

def lookUp (name : String) : Except Refusal Primitive :=
  (Primitive.ofName name).mapError .unknownPrimitive

def packTop (packing : Expr → Except Pack.Error Bytes) (stack : Stack) :
    Except Refusal (Stack × Answer) := do
  let (top, _) ← pop stack
  let bytes ← (packing top).mapError .pack
  return (stack, .packed bytes)

def step (stack : Stack) : Step → Except Refusal (Stack × Answer)
  | .push e => return put e stack
  | .pushAddress text => do
    let bytes ← (Address.encode text).mapError .address
    return put (.ofBytes bytes) stack
  | .pushJson text => do
    let e ← (Expr.ofJsonText text).mapError .json
    return put e stack
  | .prim name arity => do
    let p ← lookUp name
    let (args, rest) ← take stack arity
    return put (.prim p args) rest
  | .app name arity annots => do
    let (args, rest) ← take stack arity
    return put (.app name args annots) rest
  | .seq length => do
    let (items, rest) ← take stack length
    return put (.seq items) rest
  | .annotate annots => do
    let (top, rest) ← pop stack
    return put (top.annotate annots) rest
  | .copy => do
    let (top, _) ← pop stack
    return put top stack
  | .wrap name times => do
    let p ← lookUp name
    wrapTop (fun e => .prim p [e]) times stack
  | .enclose times => wrapTop (fun e => .seq [e]) times stack
  | .compare => do
    let (top, rest) ← pop stack
    let (next, _) ← pop rest
    return (stack, .equal (top == next))
  | .encode => packTop Expr.encode stack
  | .pack => packTop Expr.pack stack
  | .packWithin limit => packTop (Expr.packWithin limit) stack
  | .reread => do
    let (top, _) ← pop stack
    let again ← (Expr.ofJsonText top.jsonText).mapError .json
    return (stack, .equal (again == top))

/-- Carries out steps in turn, each on the stack that the one before has left. -/
def run (stack : Stack) : List Step → List (Except Refusal Answer)
  | [] => []
  | s :: rest =>
    match step stack s with
    | .ok (next, answer) => .ok answer :: run next rest
    | .error refusal => .error refusal :: run stack rest

end Micheline.Expr.Assembly
