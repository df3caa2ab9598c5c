import Micheline.Proofs.Json.Printer

/-!
Texts that break off. A front of a printed value is refused for having ended, and for no other
reason: the text is made of pieces, and whichever of them a front ends in, all pieces before it have
been taken and the rest of that one is waited for.
-/

namespace Micheline.Json

/-- Where a front of two texts in a row ends: in the first of them, or not before the second. -/
theorem exists_of_append_eq_append {s t piece rest : List Char} (h : s ++ t = piece ++ rest) :
    (∃ missing, s ++ missing = piece ∧ missing ≠ []) ∨ ∃ s', s = piece ++ s' ∧ s' ++ t = rest := by
  obtain ⟨missing, hpiece, hrest⟩ | ⟨s', hs, hrest⟩ := List.append_eq_append_iff.mp h
  · by_cases hmissing : missing = []
    · subst hmissing
      exact .inr ⟨[], by rw [hpiece]; simp, hrest⟩
    · exact .inl ⟨missing, hpiece.symm, hmissing⟩
  · exact .inr ⟨s', hs, hrest.symm⟩

namespace Text

theorem escapeChar_of_le {c : Char} (h : 128 ≤ c.toNat) : escapeChar c = [c] := by
  fun_cases escapeChar c with
  | case1 | case2 | case3 | case4 | case5 | case6 | case7 => exact absurd h (by decide)
  | case8 _ _ _ _ _ _ _ _ hcontrol => omega
  | case9 => rfl

/-- A front of what a character is written as cannot be read, but may be continued. -/
theorem charRefusal_front {c : Char} {s t : List Char} (h : s ++ t = escapeChar c) (ht : t ≠ []) :
    readChar? s = none ∧ charRefusal s = .endedEarly ∧ s.head? ≠ some '"' := by
  have hlength : s.length < (escapeChar c).length := by
    rw [← h, List.length_append]
    exact Nat.lt_add_of_pos_right (List.length_pos_iff.mpr ht)
  by_cases hascii : c.toNat < 128
  · have htable : ∀ i : Fin 128, ∀ k : Fin (escapeChar (Char.ofNat i)).length,
        readChar? ((escapeChar (Char.ofNat i)).take k) = none ∧
          charRefusal ((escapeChar (Char.ofNat i)).take k) = .endedEarly ∧
          ((escapeChar (Char.ofNat i)).take k).head? ≠ some '"' := by
      decide +kernel
    have hfront := htable ⟨c.toNat, hascii⟩
    have hs : (escapeChar c).take s.length = s := by rw [← h, List.take_left]
    rw [Char.ofNat_toNat] at hfront
    simpa only [hs] using hfront ⟨s.length, hlength⟩
  · rw [escapeChar_of_le (Nat.le_of_not_lt hascii), List.length_singleton,
      Nat.lt_one_iff] at hlength
    rw [List.eq_nil_of_length_eq_zero hlength]
    exact ⟨rfl, rfl, nofun⟩

theorem refusal_of_none {s : List Char} (h : readChar? s = none) : refusal s = charRefusal s := by
  rw [refusal]
  split
  next h' =>
    rw [h] at h'
    cases h'
  next => rfl

theorem refusal_of_readChar? {s rest : List Char} {c : Char} (h : readChar? s = some (c, rest)) :
    refusal s = refusal rest := by
  rw [refusal]
  split
  next h' =>
    rw [h] at h'
    cases h'
    rfl
  next h' =>
    rw [h] at h'
    cases h'

theorem readEnd?_eq_none {s : List Char} (h : s.head? ≠ some '"') (read : List Char) :
    readEnd? read s = none := by
  unfold readEnd?
  split
  · exact absurd rfl h
  · rfl

theorem refusal_front {cs s t tail : List Char} (h : s ++ t = escape cs ++ '"' :: tail) :
    ((∀ read, readBody? read s = none) ∧ refusal s = .endedEarly) ∨
      ∃ s', s = escape cs ++ '"' :: s' ∧ s' ++ t = tail := by
  induction cs generalizing s with
  | nil =>
      cases s with
      | nil => exact .inl ⟨fun read => readBody?_of_none rfl read, refusal_of_none rfl⟩
      | cons _ s =>
          obtain ⟨rfl, hrest⟩ := List.cons.inj h
          exact .inr ⟨s, rfl, hrest⟩
  | cons c cs ih =>
      have hcons : escape (c :: cs) = escapeChar c ++ escape cs := List.flatMap_cons
      rw [hcons, List.append_assoc] at h
      obtain ⟨missing, hpiece, hmissing⟩ | ⟨s', rfl, hrest⟩ := exists_of_append_eq_append h
      · obtain ⟨hnone, hearly, hquote⟩ := charRefusal_front hpiece hmissing
        refine .inl ⟨fun read => ?_, (refusal_of_none hnone).trans hearly⟩
        rw [readBody?_of_none hnone, readEnd?_eq_none hquote]
      · have hread := readChar?_escapeChar c s'
        obtain ⟨hnone, hearly⟩ | ⟨s'', rfl, htail⟩ := ih hrest
        · refine .inl ⟨fun read => ?_, (refusal_of_readChar? hread).trans hearly⟩
          rw [readBody?_of_readChar? hread, hnone]
        · exact .inr ⟨s'', by rw [hcons, List.append_assoc], htail⟩

end Text

namespace State

theorem run_nil (state : State) : run state [] = .error .endedEarly :=
  run_of_none rfl

/-- Whether a state that is given a front of a piece waits for the rest of it. -/
def Waits (state : State) (piece : List Char → List Char) : Prop :=
  ∀ s t tail, s ++ t = piece tail →
    run state s = .error .endedEarly ∨ ∃ s', s = piece s' ∧ s' ++ t = tail

theorem Waits.behind {state next : State} {piece more : List Char → List Char}
    (h : Waits state piece) (hrun : ∀ s, run state (piece s) = run next s)
    (hmore : Waits next more) : Waits state fun tail => piece (more tail) := by
  intro s t tail hs
  obtain hend | ⟨s', rfl, hrest⟩ := h s t _ hs
  · exact .inl hend
  · rw [hrun]
    obtain hend | ⟨s'', rfl, htail⟩ := hmore s' t tail hrest
    · exact .inl hend
    · exact .inr ⟨s'', rfl, htail⟩

theorem waits_mark (state : State) (mark : Char) : Waits state (mark :: ·) := by
  intro s t tail hs
  cases s with
  | nil => exact .inl (run_nil state)
  | cons _ s =>
      obtain ⟨rfl, hrest⟩ := List.cons.inj hs
      exact .inr ⟨s, rfl, hrest⟩

theorem waits_text {state : State} (h : state.awaits '"' = true) (text : String) :
    Waits state (Text.onto text) := by
  intro s t tail hs
  cases s with
  | nil => exact .inl (run_nil state)
  | cons _ s =>
      obtain ⟨rfl, hbody⟩ := List.cons.inj hs
      obtain ⟨hnone, hearly⟩ | ⟨s', rfl, hrest⟩ := Text.refusal_front hbody
      · have hnext : Token.next? ('"' :: s) = none := by
          rw [Token.next?_quote, hnone]
          rfl
        have hrefusal : state.refusal ('"' :: s) =
          if state.awaits '"' then Text.refusal s else .syntaxError := rfl
        rw [run_of_none hnext, hrefusal, if_pos h, hearly]
        exact .inl rfl
      · exact .inr ⟨s', rfl, hrest⟩

section

variable {state next : State} {more : List Char → List Char}

theorem Waits.behind_mark {mark : Char} {t : Token} (hmore : Waits next more)
    (hnext : ∀ s, Token.next? (mark :: s) = some (t, s))
    (hstep : step state t = some (.more next)) :
    Waits state fun tail => mark :: more tail := by
  refine (waits_mark state mark).behind (fun s => ?_) hmore
  rw [run_of_next (hnext s), hstep]
  rfl

theorem Waits.behind_text {text : String} (hmore : Waits next more)
    (h : state.awaits '"' = true) (hstep : step state (.string text) = some (.more next)) :
    Waits state fun tail => Text.onto text (more tail) := by
  refine (waits_text h text).behind (fun s => ?_) hmore
  rw [run_of_next (Token.next?_text text s), hstep]
  rfl

end

/-- A value is waited for within any open containers that leave room for its own. -/
def WaitsFor (value : Value) : Prop :=
  value.Textual ∧
    ∀ outer, outer.length + value.nesting ≤ nestingLimit → Waits (.valueDue outer) value.onto

/-- A value within a container, and what goes on there. -/
theorem WaitsFor.followed {value : Value} (h : WaitsFor value) {frame : Frame}
    {outer : List Frame} {next : State} {more : List Char → List Char}
    (hroom : outer.length + 1 + value.nesting ≤ nestingLimit)
    (hnext : supply value (frame :: outer) = .more next) (hmore : Waits next more) :
    Waits (.valueDue (frame :: outer)) fun tail => value.onto (more tail) := by
  obtain ⟨htextual, hwaits⟩ := h
  refine (hwaits (frame :: outer) hroom).behind (fun s => ?_) hmore
  have hopen : (frame :: outer).length ≤ nestingLimit := Nat.le_of_add_right_le hroom
  rw [readsBack htextual _ s hopen, within, List.length_cons, if_pos hroom, hnext]
  rfl

theorem waits_moreItems {rest : List Value} (hrest : ∀ value ∈ rest, WaitsFor value)
    {outer : List Frame} (hroom : outer.length + 1 + Value.nestingItems rest ≤ nestingLimit)
    (items : List Value) :
    Waits (.itemRead items outer) fun tail => Value.moreItemsOnto rest (']' :: tail) := by
  induction rest generalizing items with
  | nil => exact waits_mark _ ']'
  | cons value rest ih =>
      rw [Value.nestingItems] at hroom
      have hmore := ih (fun v hv => hrest v (List.mem_cons_of_mem _ hv)) (by omega)
        (value :: items)
      have hvalue : Waits (.valueDue (.array items :: outer)) _ :=
        (hrest value (List.mem_cons_self ..)).followed (by omega) rfl hmore
      exact hvalue.behind_mark (fun _ => rfl) rfl

theorem waits_items {items : List Value} (hitems : ∀ value ∈ items, WaitsFor value)
    {outer : List Frame} (hroom : outer.length + 1 + Value.nestingItems items ≤ nestingLimit) :
    Waits (.arrayOpened outer) fun tail => Value.itemsOnto items (']' :: tail) := by
  cases items with
  | nil => exact waits_mark _ ']'
  | cons value rest =>
      rw [Value.nestingItems] at hroom
      have hvalue := hitems value (List.mem_cons_self ..)
      have hmore : Waits (.itemRead [value] outer) _ :=
        waits_moreItems (fun v hv => hitems v (List.mem_cons_of_mem _ hv)) (by omega) [value]
      have hdue : Waits (.valueDue (.array [] :: outer)) _ :=
        hvalue.followed (by omega) rfl hmore
      intro s t tail hs
      rw [run_arrayOpened (Token.next?_front_ne_closeArray hvalue.1 hs)]
      exact hdue s t tail hs

theorem waits_member {m : String × Value} (h : WaitsFor m.2) {members : List (String × Value)}
    {outer : List Frame} {more : List Char → List Char}
    (hroom : outer.length + 1 + m.2.nesting ≤ nestingLimit)
    (hmore : Waits (.memberRead (m :: members) outer) more) :
    Waits (.colonDue members m.1 outer) fun tail => ':' :: m.2.onto (more tail) :=
  (h.followed hroom rfl hmore).behind_mark (fun _ => rfl) rfl

theorem waits_moreMembers {rest : List (String × Value)} (hrest : ∀ m ∈ rest, WaitsFor m.2)
    {outer : List Frame} (hroom : outer.length + 1 + Value.nestingMembers rest ≤ nestingLimit)
    (members : List (String × Value)) :
    Waits (.memberRead members outer) fun tail => Value.moreMembersOnto rest ('\x7d' :: tail) := by
  induction rest generalizing members with
  | nil => exact waits_mark _ '\x7d'
  | cons m rest ih =>
      rw [Value.nestingMembers] at hroom
      have hmore := ih (fun m hm => hrest m (List.mem_cons_of_mem _ hm)) (by omega)
        (m :: members)
      have hmember : Waits (.colonDue members m.1 outer) _ :=
        waits_member (hrest m (List.mem_cons_self ..)) (by omega) hmore
      have hkey : Waits (.keyDue members outer) _ := hmember.behind_text rfl rfl
      exact hkey.behind_mark (fun _ => rfl) rfl

theorem waits_members {members : List (String × Value)}
    (hmembers : ∀ m ∈ members, WaitsFor m.2) {outer : List Frame}
    (hroom : outer.length + 1 + Value.nestingMembers members ≤ nestingLimit) :
    Waits (.objectOpened outer) fun tail => Value.membersOnto members ('\x7d' :: tail) := by
  cases members with
  | nil => exact waits_mark _ '\x7d'
  | cons m rest =>
      rw [Value.nestingMembers] at hroom
      have hmore : Waits (.memberRead [m] outer) _ :=
        waits_moreMembers (fun m hm => hmembers m (List.mem_cons_of_mem _ hm)) (by omega) [m]
      have hmember : Waits (.colonDue [] m.1 outer) _ :=
        waits_member (hmembers m (List.mem_cons_self ..)) (by omega) hmore
      exact hmember.behind_text rfl rfl

theorem waitsFor {value : Value} (h : value.Textual) : WaitsFor value := by
  induction h with
  | string text => exact ⟨.string text, fun _ _ => waits_text rfl text⟩
  | @array items htextual ih =>
      refine ⟨.array htextual, fun outer hroom => ?_⟩
      rw [Value.nesting] at hroom
      have hopened : Waits (.arrayOpened outer) _ := waits_items ih (by omega)
      exact hopened.behind_mark (fun _ => rfl) (if_pos (by omega))
  | @object members htextual ih =>
      refine ⟨.object htextual, fun outer hroom => ?_⟩
      rw [Value.nesting] at hroom
      have hopened : Waits (.objectOpened outer) _ := waits_members ih (by omega)
      exact hopened.behind_mark (fun _ => rfl) (if_pos (by omega))

end State

/-- A printed value that breaks off has ended early. -/
theorem Value.read_front {value : Value} (h : value.Textual) (hnesting : value.nesting ≤ 127)
    {s t : List Char} (hs : s ++ t = value.onto []) (ht : t ≠ []) :
    Value.read s = .error .endedEarly := by
  have hroom : ([] : List Frame).length + value.nesting ≤ State.nestingLimit := by
    rwa [List.length_nil, Nat.zero_add]
  obtain hend | ⟨s', rfl, hrest⟩ := (State.waitsFor h).2 [] hroom s t [] hs
  · exact hend
  · exact absurd (List.append_eq_nil_iff.mp hrest).2 ht

end Micheline.Json
