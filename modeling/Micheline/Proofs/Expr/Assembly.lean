import Micheline.Expr.Assembly

/-!
What is on the stack beneath the operands of a step does not matter to it. A step that does not run
out of operands does the same on top of any other stack and leaves that as it is, and so does a run
of such steps; only the sizes it tells are larger. Each step has one answer, and where that answer
tells of the stack it tells what the step has left.
-/

namespace Micheline.Expr.Assembly

/-- The same answer on top of so many more expressions. -/
def Answer.raised (more : Nat) : Answer → Answer
  | .pushed size top => .pushed (size + more) top
  | .wrapped size top => .wrapped (size + more) top
  | .equal holds => .equal holds
  | .packed octets => .packed octets

/-- What a step comes to on top of another stack. -/
def onTopOf (below : Stack) (result : Stack × Answer) : Stack × Answer :=
  (result.1 ++ below, result.2.raised below.length)

section

variable {stack : Stack} (below : Stack)

theorem put_append (e : Expr) (stack : Stack) :
    put e (stack ++ below) = onTopOf below (put e stack) := by
  simp only [put, onTopOf, Answer.raised, List.length_append, List.cons_append,
    Nat.add_right_comm]

/-- What comes behind a look-up or a reading, which does not see the stack. -/
theorem bind_append {α : Type} {found : Except Refusal α}
    {f g : α → Except Refusal (Stack × Answer)}
    (hfound : ∀ a, f a ≠ .error .underflow → g a = (f a).map (onTopOf below))
    (h : (found >>= f) ≠ .error .underflow) :
    (found >>= g) = (found >>= f).map (onTopOf below) := by
  cases found with
  | error refusal => rfl
  | ok a => exact hfound a h

/-- What comes behind the taking of operands, which leaves more on the higher stack. -/
theorem bind_operands_append {α : Type} {taken higher : Except Refusal (α × Stack)}
    {f g : α × Stack → Except Refusal (Stack × Answer)}
    (htaken : taken ≠ .error .underflow →
      higher = taken.map fun operands => (operands.1, operands.2 ++ below))
    (hmore : ∀ operands rest, f (operands, rest) ≠ .error .underflow →
      g (operands, rest ++ below) = (f (operands, rest)).map (onTopOf below))
    (h : (taken >>= f) ≠ .error .underflow) :
    (higher >>= g) = (taken >>= f).map (onTopOf below) := by
  cases taken with
  | error refusal =>
      have hrefusal : refusal ≠ .underflow := fun hunder => h (hunder ▸ rfl)
      rw [htaken (by simpa using hrefusal)]
      rfl
  | ok operands =>
      rw [htaken (by simp)]
      exact hmore operands.1 operands.2 h

theorem take_append {count : Nat} (h : take stack count ≠ .error .underflow) :
    take (stack ++ below) count =
      (take stack count).map fun operands => (operands.1, operands.2 ++ below) := by
  by_cases hcount : count ≤ stack.length
  · have hmore : count ≤ (stack ++ below).length := by
      rw [List.length_append]
      omega
    rw [take, take, if_pos hcount, if_pos hmore, List.take_append_of_le_length hcount,
      List.drop_append_of_le_length hcount]
    rfl
  · rw [take, if_neg hcount] at h
    exact absurd rfl h

theorem pop_append (h : pop stack ≠ .error .underflow) :
    pop (stack ++ below) = (pop stack).map fun operand => (operand.1, operand.2 ++ below) := by
  cases stack with
  | nil => exact absurd rfl h
  | cons top rest => rfl

theorem wrapTop_append {layer : Expr → Expr} {times : Nat}
    (h : wrapTop layer times stack ≠ .error .underflow) :
    wrapTop layer times (stack ++ below) = (wrapTop layer times stack).map (onTopOf below) := by
  refine bind_operands_append below (pop_append below) (fun top rest _ => ?_) h
  rw [List.length_append]
  rfl

theorem packTop_append {packing : Expr → Except Pack.Error Bytes}
    (h : packTop packing stack ≠ .error .underflow) :
    packTop packing (stack ++ below) = (packTop packing stack).map (onTopOf below) := by
  refine bind_operands_append below (pop_append below) (fun top _ h => ?_) h
  exact bind_append below (fun _ _ => rfl) h

/-- A step that has its operands does not see what is beneath them. -/
theorem step_append {s : Step} (h : step stack s ≠ .error .underflow) :
    step (stack ++ below) s = (step stack s).map (onTopOf below) := by
  have hput (e : Expr) (rest : Stack) : (.ok (put e (rest ++ below)) : Except Refusal _) =
      (Except.ok (put e rest)).map (onTopOf below) :=
    congrArg Except.ok (put_append below e rest)
  cases s with
  | push e => exact hput e stack
  | pushAddress _ | pushJson _ => exact bind_append below (fun _ _ => hput _ stack) h
  | app _ _ _ | seq _ =>
      exact bind_operands_append below (take_append below) (fun _ rest _ => hput _ rest) h
  | prim name arity =>
      refine bind_append below (fun p h => ?_) h
      exact bind_operands_append below (take_append below) (fun _ rest _ => hput _ rest) h
  | annotate _ =>
      exact bind_operands_append below (pop_append below) (fun _ rest _ => hput _ rest) h
  | copy => exact bind_operands_append below (pop_append below) (fun top _ _ => hput top stack) h
  | wrap name times => exact bind_append below (fun _ h => wrapTop_append below h) h
  | enclose times => exact wrapTop_append below h
  | compare =>
      refine bind_operands_append below (pop_append below) (fun top rest h => ?_) h
      exact bind_operands_append below (pop_append below) (fun _ _ _ => rfl) h
  | encode | pack | packWithin _ => exact packTop_append below h
  | reread =>
      refine bind_operands_append below (pop_append below) (fun top rest h => ?_) h
      exact bind_append below (fun _ _ => rfl) h

/-- A run whose steps all have their operands does not see what is beneath them. -/
theorem run_append {steps : List Step} (h : Except.error .underflow ∉ run stack steps) :
    run (stack ++ below) steps =
      (run stack steps).map (Except.map (Answer.raised below.length)) := by
  induction steps generalizing stack with
  | nil => rfl
  | cons s rest ih =>
      have hne : step stack s ≠ .error .underflow := by
        intro hunder
        rw [run, hunder] at h
        exact h (List.mem_cons_self ..)
      rw [run, step_append below hne, run]
      rw [run] at h
      cases hstep : step stack s with
      | error refusal =>
          simp only [hstep, List.mem_cons, not_or] at h
          simp only [Except.map, ih h.2, List.map_cons]
      | ok result =>
          simp only [hstep, List.mem_cons, not_or] at h
          simp only [Except.map, onTopOf, ih h.2, List.map_cons]

end

theorem length_run (stack : Stack) (steps : List Step) :
    (run stack steps).length = steps.length := by
  induction steps generalizing stack with
  | nil => rfl
  | cons s rest ih =>
      rw [run]
      cases step stack s <;> simp [ih]

/-- What an answer tells of the stack before its step and of the one after it: an expression put
there is at the top, and a question leaves the stack alone. -/
def Answer.Tells (before after : Stack) : Answer → Prop
  | .pushed size top | .wrapped size top => after.length = size ∧ after.head? = some top
  | .equal _ | .packed _ => after = before

section

variable {stack : Stack}

/-- A step that goes on when something was found or taken. -/
theorem tells_of_bind {α : Type} {found : Except Refusal α}
    {f : α → Except Refusal (Stack × Answer)}
    (hfound : ∀ a result, f a = .ok result → result.2.Tells stack result.1)
    {result : Stack × Answer} (h : (found >>= f) = .ok result) :
    result.2.Tells stack result.1 := by
  cases found with
  | error refusal => nomatch h
  | ok a => exact hfound a result h

theorem tells_of_put {e : Expr} {rest : Stack} {result : Stack × Answer}
    (h : (.ok (put e rest) : Except Refusal _) = .ok result) : result.2.Tells stack result.1 := by
  cases h
  exact ⟨rfl, rfl⟩

theorem tells_of_wrapTop {layer : Expr → Expr} {times : Nat} {result : Stack × Answer}
    (h : wrapTop layer times stack = .ok result) : result.2.Tells stack result.1 := by
  cases stack with
  | nil => nomatch h
  | cons top rest =>
      cases h
      exact ⟨rfl, rfl⟩

theorem tells_of_packTop {packing : Expr → Except Pack.Error Bytes} {result : Stack × Answer}
    (h : packTop packing stack = .ok result) : result.2.Tells stack result.1 := by
  refine tells_of_bind (fun _ _ h => tells_of_bind (fun _ _ h => ?_) h) h
  cases h
  rfl

theorem tells_of_step {s : Step} {result : Stack × Answer} (h : step stack s = .ok result) :
    result.2.Tells stack result.1 := by
  cases s with
  | push e => exact tells_of_put h
  | pushAddress _ | pushJson _ | app _ _ _ | seq _ | annotate _ | copy =>
      exact tells_of_bind (fun _ _ => tells_of_put) h
  | prim name arity =>
      exact tells_of_bind (fun _ _ h => tells_of_bind (fun _ _ => tells_of_put) h) h
  | wrap name times => exact tells_of_bind (fun _ _ => tells_of_wrapTop) h
  | enclose times => exact tells_of_wrapTop h
  | encode | pack | packWithin _ => exact tells_of_packTop h
  | compare | reread =>
      refine tells_of_bind (fun _ _ h => tells_of_bind (fun _ _ h => ?_) h) h
      cases h
      rfl

end

end Micheline.Expr.Assembly
