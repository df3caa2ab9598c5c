import Micheline.Pack.Encoder
import Micheline.Proofs.Primitive

/-!
What writing a node comes to once its nesting is allowed. Its parts are written behind what the
node itself puts in front of them, and if they succeed the result is completed without a further
chance of failure. Statements about whole expressions rest on these equations.
-/

namespace Micheline.Pack

theorem map_eq_ok_iff {α β : Type} {f : α → β} {x : Except Error α} {b : β} :
    x.map f = .ok b ↔ ∃ a, x = .ok a ∧ f a = b := by
  cases x <;> simp [Except.map]

theorem bind_eq_ok_iff {α β : Type} {f : α → Except Error β} {x : Except Error α} {b : β} :
    x.bind f = .ok b ↔ ∃ a, x = .ok a ∧ f a = .ok b := by
  cases x <;> simp [Except.bind]

theorem toOption_eq_some_iff {α : Type} {x : Except Error α} {a : α} :
    x.toOption = some a ↔ x = .ok a := by
  cases x <;> simp [Except.toOption]

variable {limit depth : Nat}

theorem depth_le_of_write {out out' : Buffer} {e : Expr}
    (h : write limit depth out e = .ok out') : depth ≤ limit := by
  by_cases hd : limit < depth
  · rw [write_of_exceeded hd] at h
    cases h
  · exact Nat.le_of_not_lt hd

theorem write_seq (h : depth ≤ limit) (out : Buffer) (items : List Expr) :
    write limit depth out (.seq items) =
      (writeAll limit depth (out.push seqTag).openBlock.1 items).map
        fun inner => inner.closeBlock (out.push seqTag).openBlock.2 := by
  rw [write, if_neg (Nat.not_lt.mpr h)]
  change (writeAll limit depth (out.push seqTag).openBlock.1 items).bind _ = _
  cases writeAll limit depth (out.push seqTag).openBlock.1 items <;> rfl

theorem write_app_unknown (h : depth ≤ limit) {name : String}
    (hname : Primitive.ofName? name = none) (out : Buffer) (args : List Expr)
    (annots : List String) :
    write limit depth out (.app name args annots) = .error (.unknownPrimitive ⟨name⟩) := by
  rw [write, if_neg (Nat.not_lt.mpr h)]
  dsimp only
  rw [Primitive.ofName_of_none hname]
  rfl

/-- The buffer with what stands in front of the arguments of an application. -/
def writeFront (out : Buffer) (p : Primitive) (args : List Expr) (annots : List String) :
    Buffer :=
  (out.push (applicationTag args.length !annots.isEmpty)).push p.code

theorem write_app_short (h : depth ≤ limit) {name : String} {p : Primitive}
    (hname : Primitive.ofName? name = some p) {args : List Expr} (hargs : args.length < 3)
    (out : Buffer) (annots : List String) :
    write limit depth out (.app name args annots) =
      (writeAll limit depth (writeFront out p args annots) args).map
        fun inner => if annots.isEmpty then inner else writeAnnots inner annots := by
  rw [write, if_neg (Nat.not_lt.mpr h)]
  dsimp only
  rw [Primitive.ofName_of_some hname]
  change (if args.length < 3 then _ else _) = _
  rw [if_pos hargs]
  change (writeAll limit depth (writeFront out p args annots) args).bind _ = _
  cases writeAll limit depth (writeFront out p args annots) args <;> rfl

theorem write_app_long (h : depth ≤ limit) {name : String} {p : Primitive}
    (hname : Primitive.ofName? name = some p) {args : List Expr} (hargs : ¬ args.length < 3)
    (out : Buffer) (annots : List String) :
    write limit depth out (.app name args annots) =
      (writeAll limit depth (writeFront out p args annots).openBlock.1 args).map
        fun inner => writeAnnots
          (inner.closeBlock (writeFront out p args annots).openBlock.2) annots := by
  rw [write, if_neg (Nat.not_lt.mpr h)]
  dsimp only
  rw [Primitive.ofName_of_some hname]
  change (if args.length < 3 then _ else _) = _
  rw [if_neg hargs]
  change (writeAll limit depth (writeFront out p args annots).openBlock.1 args).bind _ = _
  cases writeAll limit depth (writeFront out p args annots).openBlock.1 args <;> rfl

end Micheline.Pack
