import Micheline.Expr

/-!
Induction over expressions, and their nodes in document order. The parts of an application and of
a sequence stand in a list, so the induction hypothesis speaks of every member of that list.
-/

namespace Micheline.Expr

@[elab_as_elim, induction_eliminator]
theorem inductionOn {motive : Expr → Prop}
    (int : ∀ text, motive (.int text))
    (string : ∀ text, motive (.string text))
    (bytes : ∀ text, motive (.bytes text))
    (app : ∀ name args annots, (∀ e ∈ args, motive e) → motive (.app name args annots))
    (seq : ∀ items, (∀ e ∈ items, motive e) → motive (.seq items)) :
    (e : Expr) → motive e
  | .int text => int text
  | .string text => string text
  | .bytes text => bytes text
  | .app name args annots =>
      app name args annots fun e _ => inductionOn int string bytes app seq e
  | .seq items => seq items fun e _ => inductionOn int string bytes app seq e

/-- The expressions right below a node, from left to right. -/
def parts : Expr → List Expr
  | .int _ | .string _ | .bytes _ => []
  | .app _ args _ => args
  | .seq items => items

@[elab_as_elim]
theorem inductionOnParts {motive : Expr → Prop}
    (step : ∀ e : Expr, (∀ p ∈ e.parts, motive p) → motive e) (e : Expr) : motive e := by
  induction e with
  | int _ | string _ | bytes _ => exact step _ (by simp [parts])
  | app _ _ _ ih | seq _ ih => exact step _ ih

mutual
/-- The nodes of an expression that stands at a depth, each with its own depth. A node comes
before its parts, and the parts come from left to right. -/
def nodes (depth : Nat) : Expr → List (Nat × Expr)
  | .int text => [(depth, .int text)]
  | .string text => [(depth, .string text)]
  | .bytes text => [(depth, .bytes text)]
  | .app name args annots => (depth, .app name args annots) :: nodesAll (depth + 1) args
  | .seq items => (depth, .seq items) :: nodesAll (depth + 1) items

def nodesAll (depth : Nat) : List Expr → List (Nat × Expr)
  | [] => []
  | e :: rest => nodes depth e ++ nodesAll depth rest
end

theorem nodes_eq (depth : Nat) (e : Expr) :
    e.nodes depth = (depth, e) :: nodesAll (depth + 1) e.parts := by
  cases e <;> rfl

end Micheline.Expr
