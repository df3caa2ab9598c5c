import Micheline.Decimal
import Micheline.Hex
import Micheline.Primitive

/-!
Micheline expressions. A literal is kept as the text it was given, and the name of an applied
primitive is any text: neither is interpreted before the expression is packed, so two expressions
are equal only if all their texts are.
-/

namespace Micheline

/-- An expression: an integer in decimal, a string, octets in hexadecimal, the application of a
named primitive to arguments with annotations, or a sequence. -/
inductive Expr
  | int (text : String)
  | string (text : String)
  | bytes (text : String)
  | app (name : String) (args : List Expr) (annots : List String)
  | seq (items : List Expr)
deriving Inhabited

namespace Expr

def ofInt (n : Int) : Expr :=
  .int (Decimal.print n)

def ofBytes (bytes : Bytes) : Expr :=
  .bytes (Hex.encode bytes)

def prim (p : Primitive) (args : List Expr) : Expr :=
  .app p.name args []

def pair (first second : Expr) : Expr :=
  prim .pair [first, second]

def unit : Expr :=
  prim .unit []

def ofBool (b : Bool) : Expr :=
  prim (if b then .trueValue else .falseValue) []

/-- Adds annotations behind those of an application. Other expressions take none. -/
def annotate (e : Expr) (more : List String) : Expr :=
  match e with
  | .app name args annots => .app name args (annots ++ more)
  | other => other

mutual
def decEq : (e f : Expr) → Decidable (e = f)
  | .int s, .int t | .string s, .string t | .bytes s, .bytes t =>
    if h : s = t then isTrue (by rw [h]) else isFalse (by simpa using h)
  | .app name args annots, .app name' args' annots' =>
    match decEqItems args args' with
    | isTrue ha =>
      if h : name = name' ∧ annots = annots' then isTrue (by rw [ha, h.1, h.2])
      else isFalse (by simpa [ha] using h)
    | isFalse ha => isFalse (by simp [ha])
  | .seq items, .seq items' =>
    match decEqItems items items' with
    | isTrue h => isTrue (by rw [h])
    | isFalse h => isFalse (by simpa using h)
  | .int _, .string _ | .int _, .bytes _ | .int _, .app .. | .int _, .seq _
  | .string _, .int _ | .string _, .bytes _ | .string _, .app .. | .string _, .seq _
  | .bytes _, .int _ | .bytes _, .string _ | .bytes _, .app .. | .bytes _, .seq _
  | .app .., .int _ | .app .., .string _ | .app .., .bytes _ | .app .., .seq _
  | .seq _, .int _ | .seq _, .string _ | .seq _, .bytes _ | .seq _, .app .. =>
    isFalse (by simp)

def decEqItems : (es fs : List Expr) → Decidable (es = fs)
  | [], [] => isTrue rfl
  | e :: es, f :: fs =>
    match decEq e f, decEqItems es fs with
    | isTrue h, isTrue hs => isTrue (by rw [h, hs])
    | isFalse h, _ => isFalse (by simp [h])
    | _, isFalse hs => isFalse (by simp [hs])
  | [], _ :: _ | _ :: _, [] => isFalse (by simp)
end

instance : DecidableEq Expr := decEq

end Expr
end Micheline
