import Micheline.Json.Reader
import Micheline.Proofs.Json.Brackets
import Micheline.Proofs.Json.Printer

/-!
What the nesting of a value has to do with the text it was read from. The reader collects, within
the containers that are open, all that came before; so the most containers that were ever open at
once are there to be seen in its state, and in the value at the end.
-/

namespace Micheline.Json

namespace Value

theorem nestingItems_le_iff {items : List Value} {n : Nat} :
    nestingItems items ≤ n ↔ ∀ value ∈ items, value.nesting ≤ n := by
  induction items with
  | nil => simp [nestingItems]
  | cons value rest ih => rw [nestingItems, Nat.max_le, ih, List.forall_mem_cons]

theorem nestingMembers_le_iff {members : List (String × Value)} {n : Nat} :
    nestingMembers members ≤ n ↔ ∀ m ∈ members, m.2.nesting ≤ n := by
  induction members with
  | nil => simp [nestingMembers]
  | cons m rest ih => rw [nestingMembers, Nat.max_le, ih, List.forall_mem_cons]

theorem nesting_le_of_mem_items {items : List Value} {value : Value} (h : value ∈ items) :
    value.nesting ≤ nestingItems items :=
  nestingItems_le_iff.mp (Nat.le_refl _) value h

theorem nesting_le_of_mem_members {members : List (String × Value)} {key : String} {value : Value}
    (h : (key, value) ∈ members) : value.nesting ≤ nestingMembers members :=
  nestingMembers_le_iff.mp (Nat.le_refl _) (key, value) h

theorem nestingItems_reverse (items : List Value) :
    nestingItems items.reverse = nestingItems items := by
  apply Nat.le_antisymm
  · exact nestingItems_le_iff.mpr fun _ h => nesting_le_of_mem_items (List.mem_reverse.mp h)
  · exact nestingItems_le_iff.mpr fun _ h => nesting_le_of_mem_items (List.mem_reverse.mpr h)

theorem nestingMembers_reverse (members : List (String × Value)) :
    nestingMembers members.reverse = nestingMembers members := by
  apply Nat.le_antisymm
  · exact nestingMembers_le_iff.mpr fun _ h => nesting_le_of_mem_members (List.mem_reverse.mp h)
  · exact nestingMembers_le_iff.mpr fun _ h => nesting_le_of_mem_members (List.mem_reverse.mpr h)

end Value

/-- The nesting of what has been read in an open container. -/
def Frame.nesting : Frame → Nat
  | .array items => Value.nestingItems items
  | .object members _ => Value.nestingMembers members

/-- The most containers that were open at once, as the open ones and what they hold tell it. -/
def reach : List Frame → Nat
  | [] => 0
  | frame :: outer => max (outer.length + 1 + frame.nesting) (reach outer)

theorem length_le_reach (frames : List Frame) : frames.length ≤ reach frames := by
  cases frames with
  | nil => exact Nat.le_refl 0
  | cons frame outer =>
      rw [List.length_cons, reach]
      omega

namespace State

/-- The containers that are open, those included in which no value is due right now. -/
def frames : State → List Frame
  | .valueDue outer => outer
  | .arrayOpened outer => .array [] :: outer
  | .itemRead items outer => .array items :: outer
  | .objectOpened outer => .object [] "" :: outer
  | .keyDue members outer | .memberRead members outer => .object members "" :: outer
  | .colonDue members key outer => .object members key :: outer

end State

namespace Progress

def opened : Progress → Nat
  | .more state => state.frames.length
  | .done _ => 0

def reach : Progress → Nat
  | .more state => Json.reach state.frames
  | .done value => value.nesting

end Progress

namespace State

theorem opened_supply (value : Value) (outer : List Frame) :
    (supply value outer).opened = outer.length := by
  fun_cases supply value outer <;> rfl

theorem reach_supply (value : Value) (outer : List Frame) :
    (supply value outer).reach = max (reach outer) (outer.length + value.nesting) := by
  fun_cases supply value outer with
  | case1 => simp [Progress.reach, reach]
  | case2 items outer =>
      simp only [Progress.reach, frames, reach, Frame.nesting, Value.nestingItems, List.length_cons]
      omega
  | case3 members key outer =>
      simp only [Progress.reach, frames, reach, Frame.nesting, Value.nestingMembers,
        List.length_cons]
      omega

/-- What a token does to the containers that are open. -/
structure Follows (state : State) (t : Token) (progress : Progress) : Prop where
  opened : progress.opened = t.openedBehind state.frames.length
  reach : progress.reach = max (reach state.frames) progress.opened
  room : state.frames.length ≤ nestingLimit → progress.opened ≤ nestingLimit

section

variable {state : State} {t : Token} {progress : Progress} {outer : List Frame}

theorem follows_scalar {value : Value} (hnesting : value.nesting = 0)
    (hopened : t.openedBehind outer.length = outer.length) (hstate : state.frames = outer) :
    Follows state t (supply value outer) where
  opened := by rw [opened_supply, hstate, hopened]
  reach := by rw [reach_supply, opened_supply, hnesting, hstate, Nat.add_zero]
  room h := by rwa [opened_supply, ← hstate]

theorem follows_enter {opened : State} {frame : Frame} (hstate : state.frames = outer)
    (hframes : opened.frames = frame :: outer) (hempty : frame.nesting = 0)
    (hopened : t.openedBehind outer.length = outer.length + 1)
    (h : enter outer opened = some progress) : Follows state t progress := by
  unfold enter at h
  split at h
  next hroom =>
    cases h
    refine ⟨?_, ?_, ?_⟩
    · rw [Progress.opened, hframes, hstate, hopened, List.length_cons]
    · rw [Progress.reach, Progress.opened, hframes, hstate, Json.reach, hempty, List.length_cons,
        Nat.add_zero, Nat.max_comm]
    · intro _
      rw [Progress.opened, hframes]
      exact hroom
  · cases h

theorem follows_close {value : Value} {frame : Frame} (hstate : state.frames = frame :: outer)
    (hvalue : value.nesting = frame.nesting + 1)
    (hopened : t.openedBehind (outer.length + 1) = outer.length) :
    Follows state t (supply value outer) where
  opened := by rw [opened_supply, hstate, List.length_cons, hopened]
  reach := by
    rw [reach_supply, opened_supply, hstate, hvalue, Json.reach]
    omega
  room h := by
    rw [opened_supply]
    rw [hstate, List.length_cons] at h
    omega

theorem follows_shift {next : State} (hopened : ∀ n, t.openedBehind n = n)
    (hframes : next.frames.length = state.frames.length)
    (hreach : Json.reach next.frames = Json.reach state.frames) :
    Follows state t (.more next) where
  opened := by rw [Progress.opened, hframes, hopened]
  reach := by
    have := length_le_reach state.frames
    rw [Progress.reach, Progress.opened, hreach, hframes]
    omega
  room h := by rwa [Progress.opened, hframes]

theorem follows_beginValue (hstate : state.frames = outer)
    (h : beginValue outer t = some progress) : Follows state t progress := by
  unfold beginValue at h
  split at h
  case h_1 | h_2 | h_3 | h_4 =>
    cases h
    exact follows_scalar rfl rfl hstate
  case h_5 | h_6 => exact follows_enter hstate rfl rfl rfl h
  case h_7 => cases h

theorem follows_of_step (h : step state t = some progress) : Follows state t progress := by
  unfold step at h
  split at h
  case h_1 | h_3 => exact follows_beginValue rfl h
  case h_4 | h_7 | h_8 | h_9 | h_10 =>
    cases h
    exact follows_shift (fun _ => rfl) rfl rfl
  case h_2 | h_6 =>
    cases h
    exact follows_close rfl rfl rfl
  case h_5 items _ =>
    cases h
    exact follows_close rfl (congrArg (· + 1) (Value.nestingItems_reverse items)) rfl
  case h_11 members _ =>
    cases h
    exact follows_close rfl (congrArg (· + 1) (Value.nestingMembers_reverse members)) rfl
  case h_12 => cases h

end

theorem Follows.reach_le {state : State} {t : Token} {progress : Progress}
    (h : Follows state t progress) (hroom : Json.reach state.frames ≤ nestingLimit) :
    progress.reach ≤ nestingLimit := by
  rw [h.reach]
  exact Nat.max_le.mpr ⟨hroom, h.room (Nat.le_trans (length_le_reach _) hroom)⟩

/-- What a token reaches and what the text behind it reaches is what the text reaches. -/
theorem Follows.deepest {state : State} {t : Token} {progress : Progress} {s rest : List Char}
    (h : Follows state t progress) (hnext : Token.next? s = some (t, rest)) :
    max (Json.reach state.frames) ((Place.outside state.frames.length).deepest s) =
      max progress.reach ((Place.outside progress.opened).deepest rest) := by
  have hopen := length_le_reach state.frames
  have hcount : progress.opened ≤ (Place.outside progress.opened).deepest rest :=
    Place.opened_le_deepest (.outside progress.opened) rest
  -- What is open in front of the token is within reach already, and what is open behind it is
  -- counted in the text behind it.
  rw [Token.deepest_next hnext, ← h.opened, h.reach]
  omega

/-- The tokens from a state to a complete value, and the text behind the last of them. -/
inductive Reads : State → List Char → Value → List Char → Prop
  | done {state : State} {s rest : List Char} {t : Token} {value : Value}
      (hnext : Token.next? s = some (t, rest)) (hstep : step state t = some (.done value)) :
      Reads state s value rest
  | more {state next : State} {s behind rest : List Char} {t : Token} {value : Value}
      (hnext : Token.next? s = some (t, behind)) (hstep : step state t = some (.more next))
      (hreads : Reads next behind value rest) : Reads state s value rest

theorem reads_of_run {state : State} {s rest : List Char} {value : Value}
    (h : run state s = .ok (value, rest)) : Reads state s value rest := by
  induction state, s using run.induct with
  | case1 state s hnone =>
      rw [run] at h
      split at h
      · cases h
      next hnext =>
        rw [hnone] at hnext
        cases hnext
  | case2 state s t behind hnext _ next hstep ih =>
      rw [run_of_next hnext, hstep] at h
      exact .more hnext hstep (ih h)
  | case3 state s t behind hnext _ read hstep =>
      rw [run_of_next hnext, hstep] at h
      cases h
      exact .done hnext hstep
  | case4 state s t behind hnext _ hstep =>
      rw [run_of_next hnext, hstep] at h
      cases h

/-- The deepest brackets of a text, as far as it is read, show in the value or had shown in the
state. -/
theorem Reads.deepest {state : State} {s rest : List Char} {value : Value}
    (h : Reads state s value rest) :
    max (reach state.frames) ((Place.outside state.frames.length).deepest s) =
      max value.nesting ((Place.outside 0).deepest rest) := by
  induction h with
  | done hnext hstep => exact (follows_of_step hstep).deepest hnext
  | more hnext hstep _ ih => exact ((follows_of_step hstep).deepest hnext).trans ih

/-- No more containers are open than the reader admits, at any time. -/
theorem Reads.nesting_le {state : State} {s rest : List Char} {value : Value}
    (h : Reads state s value rest) (hroom : reach state.frames ≤ nestingLimit) :
    value.nesting ≤ nestingLimit := by
  induction h with
  | done _ hstep => exact (follows_of_step hstep).reach_le hroom
  | more _ hstep _ ih => exact ih ((follows_of_step hstep).reach_le hroom)

end State

/-- The nesting of a value is the depth of the brackets in the text that it was read from, if only
blanks stand behind it there. -/
theorem Value.bracketDepth_of_read {text : String} {rest : List Char} {value : Value}
    (h : Value.read text.toList = .ok (value, rest)) (hblank : rest.all isBlank) :
    bracketDepth text = value.nesting := by
  have hreads := (State.reads_of_run h).deepest
  rwa [State.frames, reach, Nat.zero_max, deepest_blank hblank, Nat.max_zero] at hreads

theorem Value.nesting_le_of_read {s rest : List Char} {value : Value}
    (h : Value.read s = .ok (value, rest)) : value.nesting ≤ 127 :=
  (State.reads_of_run h).nesting_le (Nat.zero_le _)

end Micheline.Json
