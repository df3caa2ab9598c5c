import Micheline.Pack.Error
import Micheline.Proofs.Decimal.Denotation
import Micheline.Proofs.Text.Quoted

/-!
What is wrong with an expression can be told from the message. The kind of an error shows in its
first letter, and what the error is about stands behind fixed words, in full.
-/

namespace Micheline

-- The fixed words are long: messages are opened by hand, before anything evaluates them.
theorem Hex.Malformed.toList_message (m : Malformed) :
    m.message.toList = "can't parse hex byte ".toList ++ ((Text.quoted m.pair).toList ++
      (" at offset ".toList ++ (Decimal.print m.offset).toList)) := by
  unfold message
  simp only [String.toList_append, List.append_assoc]

theorem Hex.Malformed.message_inj {m m' : Malformed} (h : m.message = m'.message) : m = m' := by
  rw [← String.toList_inj, toList_message, toList_message] at h
  obtain ⟨hpair, hrest⟩ := Text.quoted_append_inj (List.append_cancel_left h)
  have hoffset := Decimal.print_inj (String.toList_inj.mp (List.append_cancel_left hrest))
  cases m
  cases m'
  rw [mk.injEq]
  exact ⟨hpair, Int.ofNat.inj hoffset⟩

namespace Pack.Error

/-- The first letter of a message. -/
def initial : Error → Char
  | .depthExceeded _ => 'e'
  | .unknownPrimitive _ => 'u'
  | .invalidInt _ => 'i'
  | .malformedHex _ => 'c'

section

variable (limit : Nat) (unknown : Primitive.Unknown) (text : String)

theorem message_depthExceeded :
    message (.depthExceeded limit) =
      "expression is nested deeper than " ++ Decimal.print limit ++ " levels" := rfl

theorem message_unknownPrimitive :
    message (.unknownPrimitive unknown) = "unknown primitive: " ++ unknown.name := rfl

theorem message_invalidInt : message (.invalidInt text) = "invalid int literal: " ++ text := rfl

end

theorem head?_message (error : Error) : error.message.toList.head? = some error.initial := by
  cases error with
  | depthExceeded _ => simp [message_depthExceeded, initial]
  | unknownPrimitive _ => simp [message_unknownPrimitive, initial]
  | invalidInt _ => simp [message_invalidInt, initial]
  | malformedHex malformed =>
      have hmessage : (malformedHex malformed).message = malformed.message := rfl
      simp [hmessage, Hex.Malformed.toList_message, initial]

theorem initial_eq_of_message_eq {error other : Error} (h : error.message = other.message) :
    error.initial = other.initial := by
  rw [← Option.some.injEq, ← head?_message, ← head?_message, h]

theorem message_inj {error other : Error} (h : error.message = other.message) : error = other := by
  have hinitial := initial_eq_of_message_eq h
  cases error with
  | depthExceeded limit =>
      cases other with
      | depthExceeded limit' =>
          simp only [message_depthExceeded, String.append_left_inj, String.append_right_inj] at h
          rw [Int.ofNat.inj (Decimal.print_inj h)]
      | unknownPrimitive _ | invalidInt _ | malformedHex _ => simp [initial] at hinitial
  | unknownPrimitive unknown =>
      cases other with
      | unknownPrimitive unknown' =>
          rw [message_unknownPrimitive, message_unknownPrimitive, String.append_right_inj] at h
          exact congrArg (fun name => unknownPrimitive (.mk name)) h
      | depthExceeded _ | invalidInt _ | malformedHex _ => simp [initial] at hinitial
  | invalidInt text =>
      cases other with
      | invalidInt text' =>
          rw [message_invalidInt, message_invalidInt, String.append_right_inj] at h
          rw [h]
      | depthExceeded _ | unknownPrimitive _ | malformedHex _ => simp [initial] at hinitial
  | malformedHex malformed =>
      cases other with
      | malformedHex malformed' => rw [Hex.Malformed.message_inj h]
      | depthExceeded _ | unknownPrimitive _ | invalidInt _ => simp [initial] at hinitial

end Pack.Error
end Micheline
