import Micheline.Json.Printer
import Micheline.Json.Reader
import Micheline.Proofs.Json.Text

/-!
Printed values are read back. This is said of values whose scalars are all strings, since a number
is kept as the text it was given. A value is read from the front of any text and within containers
that are open already, up to the nesting that the reader admits; one that is nested deeper is
refused.
-/

namespace Micheline.Json

/-- Values without scalars other than strings. -/
inductive Value.Textual : Value → Prop
  | string (text : String) : Textual (.string text)
  | array {items : List Value} (hitems : ∀ value ∈ items, Textual value) : Textual (.array items)
  | object {members : List (String × Value)} (hmembers : ∀ m ∈ members, Textual m.2) :
      Textual (.object members)

namespace Token

theorem next?_quote (s : List Char) :
    next? ('"' :: s) =
      (Text.readBody? [] s).map fun body => (.string (String.ofList body.1), body.2) :=
  rfl

theorem next?_text (text : String) (rest : List Char) :
    next? (Text.onto text rest) = some (.string text, rest) := by
  rw [Text.onto, List.cons_append, next?_quote, Text.readBody?_escape]
  simp

theorem next?_array (items : List Value) (rest : List Char) :
    next? ((Value.array items).onto rest) =
      some (.openArray, Value.itemsOnto items (']' :: rest)) :=
  rfl

theorem next?_object (members : List (String × Value)) (rest : List Char) :
    next? ((Value.object members).onto rest) =
      some (.openObject, Value.membersOnto members ('\x7d' :: rest)) :=
  rfl

/-- A value does not begin as the end of an array does. -/
theorem next?_front_ne_closeArray {value : Value} (h : value.Textual) {s t tail : List Char}
    (hs : s ++ t = value.onto tail) (rest : List Char) : next? s ≠ some (.closeArray, rest) := by
  cases s with
  | nil => exact nofun
  | cons _ s =>
      cases h with
      | string text =>
          obtain ⟨rfl, -⟩ := List.cons.inj hs
          rw [next?_quote]
          cases Text.readBody? [] s <;> simp
      | array _ | object _ =>
          obtain ⟨rfl, -⟩ := List.cons.inj hs
          exact nofun

end Token

namespace State

/-- What is read behind a token. -/
def resume : Progress → List Char → Except Refusal (Value × List Char)
  | .more state, s => run state s
  | .done value, s => .ok (value, s)

theorem run_of_next {state : State} {s rest : List Char} {t : Token}
    (h : Token.next? s = some (t, rest)) :
    run state s =
      (step state t).elim (.error .syntaxError) fun progress => resume progress rest := by
  rw [run]
  split
  next h' =>
    rw [h] at h'
    cases h'
  next h' =>
    rw [h] at h'
    cases h'
    dsimp only
    cases step state t with
    | none => rfl
    | some progress => cases progress <;> rfl

theorem run_of_none {state : State} {s : List Char} (h : Token.next? s = none) :
    run state s = .error (state.refusal s) := by
  rw [run]
  split
  next => rfl
  next h' =>
    rw [h] at h'
    cases h'

/-- What is read if there is room for so many more containers within those that are open. -/
def within (opened more : Nat) (read : Except Refusal (Value × List Char)) :
    Except Refusal (Value × List Char) :=
  if opened + more ≤ nestingLimit then read else .error .syntaxError

theorem within_zero {opened : Nat} (h : opened ≤ nestingLimit)
    (read : Except Refusal (Value × List Char)) : within opened 0 read = read :=
  if_pos h

theorem within_succ (opened more : Nat) (read : Except Refusal (Value × List Char)) :
    within opened (more + 1) read = within (opened + 1) more read := by
  rw [within, within, Nat.add_right_comm, Nat.add_assoc]

theorem within_max (opened n m : Nat) (read : Except Refusal (Value × List Char)) :
    within opened (max n m) read = within opened n (within opened m read) := by
  simp only [within]
  by_cases hn : opened + n ≤ nestingLimit
  · by_cases hm : opened + m ≤ nestingLimit
    · rw [if_pos (by omega), if_pos hn, if_pos hm]
    · rw [if_neg (by omega), if_pos hn, if_neg hm]
  · rw [if_neg (by omega), if_neg hn]

/-- A value is read in front of any text and within any open containers that leave room for its
own. -/
def ReadsBack (value : Value) : Prop :=
  ∀ outer tail, outer.length ≤ nestingLimit →
    run (.valueDue outer) (value.onto tail) =
      within outer.length value.nesting (resume (supply value outer) tail)

/-- A value within a container, and what comes behind it in there. -/
theorem ReadsBack.followed {value : Value} (h : ReadsBack value) {frame : Frame}
    {outer : List Frame} (hopen : outer.length < nestingLimit) {s : List Char} {more : Nat}
    {read : Except Refusal (Value × List Char)}
    (hmore : resume (supply value (frame :: outer)) s = within (outer.length + 1) more read) :
    run (.valueDue (frame :: outer)) (value.onto s) =
      within (outer.length + 1) (max value.nesting more) read := by
  rw [h (frame :: outer) s hopen, hmore, within_max]
  rfl

theorem run_moreItems {rest : List Value} (hrest : ∀ value ∈ rest, ReadsBack value)
    {outer : List Frame} (hopen : outer.length < nestingLimit) (items : List Value)
    (tail : List Char) :
    run (.itemRead items outer) (Value.moreItemsOnto rest (']' :: tail)) =
      within (outer.length + 1) (Value.nestingItems rest)
        (resume (supply (.array (items.reverse ++ rest)) outer) tail) := by
  induction rest generalizing items with
  | nil =>
      have hclose : Token.next? (']' :: tail) = some (.closeArray, tail) := rfl
      rw [Value.nestingItems, within_zero hopen, List.append_nil]
      exact run_of_next hclose
  | cons value rest ih =>
      have hcomma : Token.next? (Value.moreItemsOnto (value :: rest) (']' :: tail)) =
        some (.comma, value.onto (Value.moreItemsOnto rest (']' :: tail))) := rfl
      have hmore := ih (fun v hv => hrest v (List.mem_cons_of_mem _ hv)) (value :: items)
      rw [List.reverse_cons, List.append_assoc] at hmore
      rw [run_of_next hcomma]
      exact (hrest value (List.mem_cons_self ..)).followed hopen hmore

/-- A value may come right behind the opening of an array as well as behind a comma, unless the
array is closed there. -/
theorem run_arrayOpened {outer : List Frame} {s : List Char}
    (h : ∀ rest, Token.next? s ≠ some (.closeArray, rest)) :
    run (.arrayOpened outer) s = run (.valueDue (.array [] :: outer)) s := by
  cases hnext : Token.next? s with
  | none =>
      rw [run_of_none hnext, run_of_none hnext]
      rfl
  | some found =>
      obtain ⟨t, rest⟩ := found
      rw [run_of_next hnext, run_of_next hnext]
      cases t with
      | closeArray => exact absurd hnext (h rest)
      | _ => rfl

theorem run_items {items : List Value} (htextual : ∀ value ∈ items, value.Textual)
    (hitems : ∀ value ∈ items, ReadsBack value) {outer : List Frame}
    (hopen : outer.length < nestingLimit) (tail : List Char) :
    run (.arrayOpened outer) (Value.itemsOnto items (']' :: tail)) =
      within (outer.length + 1) (Value.nestingItems items)
        (resume (supply (.array items) outer) tail) := by
  cases items with
  | nil =>
      have hclose : Token.next? (']' :: tail) = some (.closeArray, tail) := rfl
      rw [Value.nestingItems, within_zero hopen]
      exact run_of_next hclose
  | cons value rest =>
      have hmore := run_moreItems (fun v hv => hitems v (List.mem_cons_of_mem _ hv)) hopen [value]
        tail
      have hfirst := htextual value (List.mem_cons_self ..)
      rw [Value.itemsOnto,
        run_arrayOpened (Token.next?_front_ne_closeArray hfirst (List.append_nil _))]
      exact (hitems value (List.mem_cons_self ..)).followed hopen hmore

/-- A colon and a value behind a key. -/
theorem run_colonDue (members : List (String × Value)) (key : String) (outer : List Frame)
    (s : List Char) :
    run (.colonDue members key outer) (':' :: s) =
      run (.valueDue (.object members key :: outer)) s := by
  have hcolon : Token.next? (':' :: s) = some (.colon, s) := rfl
  exact run_of_next hcolon

theorem run_moreMembers {rest : List (String × Value)} (hrest : ∀ m ∈ rest, ReadsBack m.2)
    {outer : List Frame} (hopen : outer.length < nestingLimit) (members : List (String × Value))
    (tail : List Char) :
    run (.memberRead members outer) (Value.moreMembersOnto rest ('\x7d' :: tail)) =
      within (outer.length + 1) (Value.nestingMembers rest)
        (resume (supply (.object (members.reverse ++ rest)) outer) tail) := by
  induction rest generalizing members with
  | nil =>
      have hclose : Token.next? ('\x7d' :: tail) = some (.closeObject, tail) := rfl
      rw [Value.nestingMembers, within_zero hopen, List.append_nil]
      exact run_of_next hclose
  | cons m rest ih =>
      obtain ⟨key, value⟩ := m
      have hcomma : Token.next? (Value.moreMembersOnto ((key, value) :: rest) ('\x7d' :: tail)) =
        some (.comma, Text.onto key (':' :: value.onto
          (Value.moreMembersOnto rest ('\x7d' :: tail)))) := rfl
      have hmore := ih (fun m hm => hrest m (List.mem_cons_of_mem _ hm)) ((key, value) :: members)
      rw [List.reverse_cons, List.append_assoc] at hmore
      calc run (.memberRead members outer)
            (Value.moreMembersOnto ((key, value) :: rest) ('\x7d' :: tail))
          = run (.keyDue members outer) (Text.onto key (':' :: value.onto
              (Value.moreMembersOnto rest ('\x7d' :: tail)))) := run_of_next hcomma
        _ = run (.colonDue members key outer) (':' :: value.onto
              (Value.moreMembersOnto rest ('\x7d' :: tail))) := run_of_next (Token.next?_text key _)
        _ = run (.valueDue (.object members key :: outer)) (value.onto
              (Value.moreMembersOnto rest ('\x7d' :: tail))) := run_colonDue ..
        _ = _ := (hrest (key, value) (List.mem_cons_self ..)).followed hopen hmore

theorem run_members {members : List (String × Value)}
    (hmembers : ∀ m ∈ members, ReadsBack m.2) {outer : List Frame}
    (hopen : outer.length < nestingLimit) (tail : List Char) :
    run (.objectOpened outer) (Value.membersOnto members ('\x7d' :: tail)) =
      within (outer.length + 1) (Value.nestingMembers members)
        (resume (supply (.object members) outer) tail) := by
  cases members with
  | nil =>
      have hclose : Token.next? ('\x7d' :: tail) = some (.closeObject, tail) := rfl
      rw [Value.nestingMembers, within_zero hopen]
      exact run_of_next hclose
  | cons m rest =>
      obtain ⟨key, value⟩ := m
      have hmore := run_moreMembers (fun m hm => hmembers m (List.mem_cons_of_mem _ hm)) hopen
        [(key, value)] tail
      calc run (.objectOpened outer) (Value.membersOnto ((key, value) :: rest) ('\x7d' :: tail))
          = run (.colonDue [] key outer) (':' :: value.onto
              (Value.moreMembersOnto rest ('\x7d' :: tail))) := run_of_next (Token.next?_text key _)
        _ = run (.valueDue (.object [] key :: outer)) (value.onto
              (Value.moreMembersOnto rest ('\x7d' :: tail))) := run_colonDue ..
        _ = _ := (hmembers (key, value) (List.mem_cons_self ..)).followed hopen hmore

/-- Opening a container takes one place, if there is one. -/
theorem resume_enter {outer : List Frame} {opened : State} {s : List Char} {more : Nat}
    {read : Except Refusal (Value × List Char)}
    (h : outer.length < nestingLimit → run opened s = within (outer.length + 1) more read) :
    ((enter outer opened).elim (.error .syntaxError) fun progress => resume progress s) =
      within outer.length (more + 1) read := by
  rw [within_succ]
  by_cases hopen : outer.length < nestingLimit
  · rw [enter, if_pos hopen]
    exact h hopen
  · rw [enter, if_neg hopen, within, if_neg (by omega)]
    rfl

theorem readsBack {value : Value} (h : value.Textual) : ReadsBack value := by
  induction h with
  | string text =>
      intro outer tail hroom
      have hnesting : (Value.string text).nesting = 0 := rfl
      rw [Value.onto, run_of_next (Token.next?_text text tail), hnesting, within_zero hroom]
      rfl
  | @array items htextual ih =>
      intro outer tail _
      rw [run_of_next (Token.next?_array items tail), Value.nesting]
      exact resume_enter fun hopen => run_items htextual ih hopen tail
  | @object members _ ih =>
      intro outer tail _
      rw [run_of_next (Token.next?_object members tail), Value.nesting]
      exact resume_enter fun hopen => run_members ih hopen tail

end State

/-- A printed value is read back as far as the reader admits containers, and what follows it is
left as it is. -/
theorem Value.read_onto {value : Value} (h : value.Textual) (tail : List Char) :
    Value.read (value.onto tail) =
      if value.nesting ≤ 127 then .ok (value, tail) else .error .syntaxError := by
  have hread := State.readsBack h [] tail (Nat.zero_le _)
  rw [List.length_nil, State.within, Nat.zero_add] at hread
  exact hread

end Micheline.Json
