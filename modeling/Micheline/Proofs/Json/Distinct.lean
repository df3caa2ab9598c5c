import Micheline.Proofs.Json.Printer

/-!
Printed values can be told apart, and told from what follows them, at any nesting. The reader is of
no help where it refuses a text for its nesting, so the texts themselves are compared here.
-/

namespace Micheline.Json

theorem Text.onto_inj {text text' : String} {s t : List Char}
    (h : Text.onto text s = Text.onto text' t) : text = text' ∧ s = t := by
  have hnext := Token.next?_text text s
  rw [h, Token.next?_text] at hnext
  simpa [eq_comm] using hnext

namespace Value

/-- The text of a value is not the beginning of the text of another one, whatever follows. -/
def Distinct (value : Value) : Prop :=
  ∀ other, other.Textual → ∀ s t, value.onto s = other.onto t → value = other ∧ s = t

theorem Textual.onto_ne_closeArray {value : Value} (h : value.Textual) (s t : List Char) :
    value.onto s ≠ ']' :: t := by
  cases h <;> simp [onto, Text.onto]

theorem moreItemsOnto_inj {items items' : List Value} (hitems : ∀ value ∈ items, Distinct value)
    (hitems' : ∀ value ∈ items', Textual value) {s t : List Char}
    (h : moreItemsOnto items (']' :: s) = moreItemsOnto items' (']' :: t)) :
    items = items' ∧ s = t := by
  induction items generalizing items' with
  | nil =>
      cases items' with
      | nil => simpa [moreItemsOnto] using h
      | cons _ _ => simp [moreItemsOnto] at h
  | cons value items ih =>
      cases items' with
      | nil => simp [moreItemsOnto] at h
      | cons other items' =>
          obtain ⟨rfl, hrest⟩ := hitems value (List.mem_cons_self ..) other
            (hitems' other (List.mem_cons_self ..)) _ _ (List.cons.inj h).2
          obtain ⟨rfl, hst⟩ := ih (fun v hv => hitems v (List.mem_cons_of_mem _ hv))
            (fun v hv => hitems' v (List.mem_cons_of_mem _ hv)) hrest
          exact ⟨rfl, hst⟩

theorem itemsOnto_inj {items items' : List Value} (htextual : ∀ value ∈ items, Textual value)
    (hitems : ∀ value ∈ items, Distinct value) (hitems' : ∀ value ∈ items', Textual value)
    {s t : List Char} (h : itemsOnto items (']' :: s) = itemsOnto items' (']' :: t)) :
    items = items' ∧ s = t := by
  cases items with
  | nil =>
      cases items' with
      | nil => exact ⟨rfl, (List.cons.inj h).2⟩
      | cons other _ =>
          exact absurd h.symm ((hitems' other (List.mem_cons_self ..)).onto_ne_closeArray _ _)
  | cons value items =>
      cases items' with
      | nil => exact absurd h ((htextual value (List.mem_cons_self ..)).onto_ne_closeArray _ _)
      | cons other items' => exact moreItemsOnto_inj hitems hitems' (congrArg (List.cons ',') h)

theorem moreMembersOnto_inj {members members' : List (String × Value)}
    (hmembers : ∀ m ∈ members, Distinct m.2) (hmembers' : ∀ m ∈ members', Textual m.2)
    {s t : List Char}
    (h : moreMembersOnto members ('\x7d' :: s) = moreMembersOnto members' ('\x7d' :: t)) :
    members = members' ∧ s = t := by
  induction members generalizing members' with
  | nil =>
      cases members' with
      | nil => exact ⟨rfl, (List.cons.inj h).2⟩
      | cons _ _ => simp [moreMembersOnto] at h
  | cons m members ih =>
      cases members' with
      | nil => simp [moreMembersOnto] at h
      | cons m' members' =>
          obtain ⟨key, value⟩ := m
          obtain ⟨key', other⟩ := m'
          obtain ⟨rfl, hvalue⟩ := Text.onto_inj (List.cons.inj h).2
          obtain ⟨rfl, hrest⟩ := hmembers (key, value) (List.mem_cons_self ..) other
            (hmembers' (key, other) (List.mem_cons_self ..)) _ _ (List.cons.inj hvalue).2
          obtain ⟨rfl, hst⟩ := ih (fun m hm => hmembers m (List.mem_cons_of_mem _ hm))
            (fun m hm => hmembers' m (List.mem_cons_of_mem _ hm)) hrest
          exact ⟨rfl, hst⟩

theorem membersOnto_inj {members members' : List (String × Value)}
    (hmembers : ∀ m ∈ members, Distinct m.2) (hmembers' : ∀ m ∈ members', Textual m.2)
    {s t : List Char} (h : membersOnto members ('\x7d' :: s) = membersOnto members' ('\x7d' :: t)) :
    members = members' ∧ s = t := by
  cases members with
  | nil =>
      cases members' with
      | nil => exact ⟨rfl, (List.cons.inj h).2⟩
      | cons _ _ => simp [membersOnto, Text.onto] at h
  | cons _ members =>
      cases members' with
      | nil => simp [membersOnto, Text.onto] at h
      | cons _ members' => exact moreMembersOnto_inj hmembers hmembers' (congrArg (List.cons ',') h)

theorem Textual.distinct {value : Value} (h : value.Textual) : Distinct value := by
  induction h with
  | string text =>
      intro other hother s t h
      cases hother with
      | string text' =>
          obtain ⟨rfl, hst⟩ := Text.onto_inj h
          exact ⟨rfl, hst⟩
      | array | object => simp [onto, Text.onto] at h
  | array htextual ih =>
      intro other hother s t h
      cases hother with
      | array hitems' =>
          obtain ⟨rfl, hst⟩ := itemsOnto_inj htextual ih hitems' (List.cons.inj h).2
          exact ⟨rfl, hst⟩
      | string | object => simp [onto, Text.onto] at h
  | object _ ih =>
      intro other hother s t h
      cases hother with
      | object hmembers' =>
          obtain ⟨rfl, hst⟩ := membersOnto_inj ih hmembers' (List.cons.inj h).2
          exact ⟨rfl, hst⟩
      | string | array => simp [onto, Text.onto] at h

theorem Textual.print_inj {value other : Value} (h : value.Textual) (h' : other.Textual)
    (heq : value.print = other.print) : value = other :=
  (h.distinct other h' [] [] (String.ofList_injective heq)).1

end Value
end Micheline.Json
