import Micheline.CommandLine
import Micheline.Proofs.Hex
import Micheline.Proofs.Pack.Error

/-!
How a run ends that is to pack an expression. It ends in one of three ways: with what was packed,
with an error of the packing, or with what the reader of JSON says. A report shows which octets were
packed or which error it was, since hexadecimal digits and messages can be told apart and indenting
the lines of a cause loses none of it.
-/

namespace Micheline.CommandLine

/-- How a run ends that has failed for a single cause. -/
def failureReport (message cause : String) : Report :=
  ⟨1, "", "Error: " ++ message ++ "\n\nCaused by:\n    " ++ indentLines "    " cause ++ "\n"⟩

/-- How a run ends that has packed an expression, or has failed to. -/
def packingReport (outcome : Except Pack.Error Bytes) : Report :=
  match outcome with
  | .ok octets => ⟨0, Hex.encode octets ++ "\n", ""⟩
  | .error error => failureReport "packing failed" error.message

/-- How a run ends that is given the text of an expression. -/
def textReport (wording : Wording) (limit : Nat) (text : String) : Report :=
  match Expr.ofJsonText text with
  | .ok e => packingReport (e.packWithin limit)
  | .error error => failureReport "invalid Micheline JSON" (wording.refusal text error)

/-- How a run ends that has come to a line, or has failed. -/
def reportOf (result : Except Failure String) : Report :=
  match result with
  | .ok line => ⟨0, line ++ "\n", ""⟩
  | .error failure => ⟨1, "", failure.text⟩

theorem reportOf_failure (message cause : String) :
    reportOf (.error ⟨message, [cause]⟩) = failureReport message cause := by
  have htext : (Failure.mk message [cause]).text =
      "Error: " ++ message ++ "\n\nCaused by:\n    " ++ indentLines "    " cause ++ "\n" := by
    simp only [Failure.text, Failure.causeLines, List.map_cons, List.map_nil, String.join,
      List.foldl_cons, List.foldl_nil, String.append_assoc]
    rfl
  rw [reportOf, failureReport, htext]

theorem reportOf_packed (limit : Nat) (e : Expr) :
    reportOf (packed limit e) = packingReport (e.packWithin limit) := by
  rw [packed]
  cases e.packWithin limit with
  | ok octets => rfl
  | error error => exact reportOf_failure "packing failed" error.message

/-- A piece begins with its character, and what is put behind a line feed is always the same. -/
theorem prefixFree_indented (indent : List Char) :
    Text.PrefixFree fun c => if c = '\n' then c :: indent else [c] := by
  have hpiece (c : Char) (rest : List Char) : (if c = '\n' then c :: indent else [c]) ++ rest =
      c :: ((if c = '\n' then indent else []) ++ rest) := by
    split <;> rfl
  intro c d r s h
  rw [hpiece, hpiece] at h
  obtain ⟨rfl, hrest⟩ := List.cons.inj h
  exact ⟨rfl, List.append_cancel_left hrest⟩

theorem indentLines_inj {indent text text' : String}
    (h : indentLines indent text = indentLines indent text') : text = text' := by
  have hpiece (c : Char) (rest : List Char) :
      (if c = '\n' then c :: indent.toList else [c]) ++ rest ≠ [] := by
    split <;> simp
  have hchars := congrArg (· ++ []) (String.ofList_injective h)
  exact String.toList_inj.mp
    ((prefixFree_indented indent.toList).flatMap_append_inj hpiece hpiece hchars).1

theorem failureReport_inj {message cause cause' : String}
    (h : failureReport message cause = failureReport message cause') : cause = cause' := by
  have herrors := congrArg Report.errors h
  simp only [failureReport, String.append_left_inj, String.append_right_inj] at herrors
  exact indentLines_inj herrors

/-- A report tells what was packed, or which error it was. -/
theorem packingReport_injective : Function.Injective packingReport := by
  intro outcome other h
  cases outcome with
  | ok octets =>
      cases other with
      | ok octets' =>
          have hline := congrArg Report.output h
          simp only [packingReport, String.append_left_inj] at hline
          have hread := Hex.decode_encode octets
          rw [hline, Hex.decode_encode] at hread
          rw [Except.ok.inj hread]
      | error _ => exact absurd (congrArg Report.code h) (by simp [packingReport, failureReport])
  | error error =>
      cases other with
      | ok _ => exact absurd (congrArg Report.code h) (by simp [packingReport, failureReport])
      | error error' => rw [Pack.Error.message_inj (failureReport_inj h)]

end Micheline.CommandLine
