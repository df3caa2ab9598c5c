import Micheline.Proofs.Decimal
import Micheline.Proofs.Expr.Traversal
import Micheline.Proofs.Pack.Write

/-!
Which fault a packing reports. Every node is either in order or has one fault, found without
looking at its parts; a packing succeeds if no node has one, and otherwise reports the fault of
the first faulty node in document order.
-/

namespace Micheline.Pack

/-- What is wrong with a node at its depth, if something is. Nesting comes before all else. -/
def fault? (limit : Nat) : Nat × Expr → Option Error
  | (depth, e) =>
      if limit < depth then
        some (.depthExceeded limit)
      else
        match e with
        | .int text => if Decimal.IsNumeral text then none else some (.invalidInt text)
        | .bytes text =>
            match Hex.decode text with
            | .ok _ => none
            | .error malformed => some (.malformedHex malformed)
        | .app name _ _ => if name ∈ vocabulary then none else some (.unknownPrimitive ⟨name⟩)
        | .string _ | .seq _ => none

def failure? {α : Type} : Except Error α → Option Error
  | .ok _ => none
  | .error error => some error

theorem failure?_map {α β : Type} (f : α → β) (x : Except Error α) :
    failure? (x.map f) = failure? x := by
  cases x <;> rfl

theorem failure?_eq_some_iff {α : Type} (x : Except Error α) (error : Error) :
    failure? x = some error ↔ x = .error error := by
  cases x <;> simp [failure?]

theorem failure?_eq_none_iff {α : Type} (x : Except Error α) :
    failure? x = none ↔ ∃ a, x = .ok a := by
  cases x <;> simp [failure?]

variable {limit depth : Nat}

/-- A node fails by its own fault, and if it has none then as its parts do wherever they are
written. -/
theorem failure?_write_node (e : Expr) (out : Buffer) :
    ∃ start, failure? (write limit depth out e) =
      (fault? limit (depth, e)).or (failure? (writeAll limit depth start e.parts)) := by
  by_cases h : limit < depth
  · refine ⟨out, ?_⟩
    rw [write_of_exceeded h]
    simp [fault?, h, failure?]
  · have hle : depth ≤ limit := Nat.le_of_not_lt h
    cases e with
    | int text =>
        refine ⟨out, ?_⟩
        rw [write_int hle, writeInt]
        cases hread : Decimal.parse? text with
        | none =>
            have hnot := (Decimal.parse?_eq_none_iff text).mp hread
            simp [fault?, h, hnot, failure?]
        | some n =>
            have hnum := (Decimal.isSome_parse?_iff text).mp (by rw [hread]; rfl)
            simp [fault?, h, hnum, failure?, Expr.parts, writeAll_nil]
    | string text =>
        refine ⟨out, ?_⟩
        rw [write_string hle]
        simp [fault?, h, failure?, Expr.parts, writeAll_nil]
    | bytes text =>
        refine ⟨out, ?_⟩
        rw [write_bytes hle, writeBytes]
        cases hread : Hex.decode text <;>
          simp [fault?, h, hread, failure?, Expr.parts, writeAll_nil]
    | app name args annots =>
        cases hname : Primitive.ofName? name with
        | none =>
            have hmem := (Primitive.ofName?_eq_none_iff name).mp hname
            refine ⟨out, ?_⟩
            rw [write_app_unknown hle hname]
            simp [fault?, h, hmem, failure?]
        | some p =>
            have hmem := Primitive.mem_vocabulary_of_ofName? hname
            by_cases hargs : args.length < 3
            · refine ⟨writeFront out p args annots, ?_⟩
              rw [write_app_short hle hname hargs, failure?_map]
              simp [fault?, h, hmem, Expr.parts]
            · refine ⟨(writeFront out p args annots).openBlock.1, ?_⟩
              rw [write_app_long hle hname hargs, failure?_map]
              simp [fault?, h, hmem, Expr.parts]
    | seq items =>
        refine ⟨(out.push seqTag).openBlock.1, ?_⟩
        rw [write_seq hle, failure?_map]
        simp [fault?, h, Expr.parts]

theorem failure?_writeAll {items : List Expr}
    (ih : ∀ e ∈ items, ∀ out,
      failure? (write limit (depth + 1) out e) = (e.nodes (depth + 1)).findSome? (fault? limit))
    (out : Buffer) :
    failure? (writeAll limit depth out items) =
      (Expr.nodesAll (depth + 1) items).findSome? (fault? limit) := by
  induction items generalizing out with
  | nil => rw [writeAll_nil]; rfl
  | cons e rest ihrest =>
      have hfirst := ih e (List.mem_cons_self ..) out
      rw [writeAll_cons, Expr.nodesAll, List.findSome?_append, ← hfirst]
      cases write limit (depth + 1) out e with
      | error error => rfl
      | ok next => exact ihrest (fun e he => ih e (List.mem_cons_of_mem _ he)) next

theorem failure?_write (e : Expr) (out : Buffer) :
    failure? (write limit depth out e) = (e.nodes depth).findSome? (fault? limit) := by
  induction e using Expr.inductionOnParts generalizing depth out with
  | step e ih =>
      obtain ⟨start, hnode⟩ := @failure?_write_node limit depth e out
      rw [hnode, failure?_writeAll (fun p hp => ih p hp), Expr.nodes_eq, List.findSome?_cons]
      cases fault? limit (depth, e) <;> rfl

/-- An outcome is a success if no node is faulty, and otherwise the fault of the first one. -/
def ReportsFirstFault (limit : Nat) (e : Expr) (outcome : Except Error Bytes) : Prop :=
  ((∃ bytes, outcome = .ok bytes) ↔ ∀ node ∈ e.nodes 1, fault? limit node = none) ∧
  ∀ error, outcome = .error error ↔
    ∃ before node after, e.nodes 1 = before ++ node :: after ∧
      fault? limit node = some error ∧ ∀ earlier ∈ before, fault? limit earlier = none

theorem reportsFirstFault_encodeBehind (start : Bytes) (limit : Nat) (e : Expr) :
    ReportsFirstFault limit e (encodeBehind start limit e) := by
  have hfail : failure? (encodeBehind start limit e) = (e.nodes 1).findSome? (fault? limit) := by
    rw [encodeBehind, failure?_map, failure?_write]
  refine ⟨?_, fun error => ?_⟩
  · rw [← failure?_eq_none_iff, hfail, List.findSome?_eq_none_iff]
  · rw [← failure?_eq_some_iff, hfail, List.findSome?_eq_some_iff]

theorem packing_reports_first_fault (e : Expr) :
    (∀ limit, ReportsFirstFault limit e (e.packWithin limit)) ∧
    ReportsFirstFault 1024 e e.pack ∧ ReportsFirstFault 1024 e e.encode :=
  ⟨fun limit => reportsFirstFault_encodeBehind [versionMark] limit e,
    reportsFirstFault_encodeBehind [versionMark] 1024 e,
    reportsFirstFault_encodeBehind [] 1024 e⟩

end Micheline.Pack
