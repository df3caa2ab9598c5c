import Micheline.Buffer.Program
import Micheline.Proofs.Buffer

/-!
Programs of buffer operations, told without patching. The outcome of a step is put together from
the outcomes of its parts, as if every block were built in a buffer of its own and then put behind
its length. A run in one shared buffer appends exactly that, whatever the buffer held before, and
a failure leaves behind what was appended until then, with zeros for the lengths of the blocks
that it cut off.
-/

namespace Micheline.Buffer

@[elab_as_elim, induction_eliminator]
theorem Step.inductionOn {motive : Step → Prop}
    (word : ∀ width value, motive (.word width value))
    (length : ∀ value, motive (.length value))
    (bytes : ∀ content, motive (.bytes content))
    (prefixed : ∀ content, motive (.prefixed content))
    (fail : ∀ reason, motive (.fail reason))
    (block : ∀ body, (∀ step ∈ body, motive step) → motive (.block body))
    (attempt : ∀ body, (∀ step ∈ body, motive step) → motive (.attempt body)) :
    (step : Step) → motive step
  | .word width value => word width value
  | .length value => length value
  | .bytes content => bytes content
  | .prefixed content => prefixed content
  | .fail reason => fail reason
  | .block body =>
      block body fun step _ =>
        inductionOn word length bytes prefixed fail block attempt step
  | .attempt body =>
      attempt body fun step _ =>
        inductionOn word length bytes prefixed fail block attempt step

/-- What is appended, and the reason of the failure that ended it, if one did. -/
structure Outcome where
  content : Bytes
  failure : Option String
deriving DecidableEq

namespace Outcome

def ofContent (content : Bytes) : Outcome :=
  ⟨content, none⟩

/-- The rest comes behind what is there, unless a failure has ended that. -/
def andThen (first rest : Outcome) : Outcome :=
  match first.failure with
  | none => ⟨first.content ++ rest.content, rest.failure⟩
  | some _ => first

/-- A block with the given body: behind its length if the body is complete, else behind zeros. -/
def inBlock (body : Outcome) : Outcome :=
  match body.failure with
  | none => ⟨Bytes.word 4 body.content.length ++ body.content, none⟩
  | some reason => ⟨[0, 0, 0, 0] ++ body.content, some reason⟩

def caught (outcome : Outcome) : Outcome :=
  ofContent outcome.content

theorem andThen_of_none {first : Outcome} (rest : Outcome) (h : first.failure = none) :
    first.andThen rest = ⟨first.content ++ rest.content, rest.failure⟩ := by
  rw [andThen]
  simp only [h]

theorem andThen_of_some {first : Outcome} {reason : String} (rest : Outcome)
    (h : first.failure = some reason) : first.andThen rest = first := by
  rw [andThen]
  simp only [h]

end Outcome

mutual
def Step.outcome : Step → Outcome
  | .word width value => .ofContent (Bytes.word width value)
  | .length value => .ofContent (Bytes.word 4 value)
  | .bytes content => .ofContent content
  | .prefixed content => .ofContent (Bytes.word 4 content.length ++ content)
  | .fail reason => ⟨[], some reason⟩
  | .block body => (outcomeAll body).inBlock
  | .attempt body => (outcomeAll body).inBlock.caught

def Step.outcomeAll : List Step → Outcome
  | [] => .ofContent []
  | step :: rest => step.outcome.andThen (outcomeAll rest)
end

/-- A run that appended the outcome to what the buffer held at its start, and left that in front
at every recorded moment. -/
structure Run.Extends (start : Bytes) (run : Run) (outcome : Outcome) : Prop where
  appended : run.buffer.toList = start ++ outcome.content
  failure : run.failure = outcome.failure
  kept : ∀ entry ∈ run.entries, start <+: entry.buffer.toList

theorem runSteps_cons_of_none {buffer : Buffer} {step : Step} (rest : List Step)
    (h : (runStep buffer step).failure = none) :
    runSteps buffer (step :: rest) =
      (runSteps (runStep buffer step).buffer rest).behind (runStep buffer step).entries := by
  rw [runSteps]
  simp only [h]

theorem runSteps_cons_of_some {buffer : Buffer} {step : Step} {reason : String} (rest : List Step)
    (h : (runStep buffer step).failure = some reason) :
    runSteps buffer (step :: rest) = runStep buffer step := by
  rw [runSteps]
  simp only [h]

theorem Run.extends_ofBuffer {start content : Bytes} {buffer : Buffer}
    (h : buffer.toList = start ++ content) :
    (Run.ofBuffer buffer).Extends start (.ofContent content) where
  appended := h
  failure := rfl
  kept entry hentry := by
    rw [List.mem_singleton.mp hentry, h]
    exact List.prefix_append ..

theorem Run.Extends.behind {start : Bytes} {first rest : Run} {outcome outcome' : Outcome}
    (h : first.Extends start outcome) (hfailure : first.failure = none)
    (h' : rest.Extends first.buffer.toList outcome') :
    (rest.behind first.entries).Extends start (outcome.andThen outcome') := by
  have hstart : start <+: first.buffer.toList := ⟨_, h.appended.symm⟩
  rw [Outcome.andThen_of_none _ (h.failure.symm.trans hfailure)]
  refine ⟨?_, h'.failure, List.forall_mem_append.mpr ⟨h.kept, ?_⟩⟩
  · rw [← List.append_assoc, ← h.appended]
    exact h'.appended
  · intro entry hentry
    exact hstart.trans (h'.kept entry hentry)

/-- Closing a block whose body was carried out behind its open length. -/
theorem Run.Extends.closeBlock {buffer : Buffer} {body : Run} {outcome : Outcome}
    (h : body.Extends buffer.openBlock.1.toList outcome) :
    (body.closeBlock buffer.openBlock.2).Extends buffer.toList outcome.inBlock := by
  -- the body kept its open length in front, and what the buffer held stands before that
  have hkept : ∀ entry ∈ body.entries, buffer.toList <+: entry.buffer.toList := by
    intro entry hentry
    apply List.IsPrefix.trans _ (h.kept entry hentry)
    rw [toList_openBlock]
    exact List.prefix_append ..
  cases hcase : outcome.failure with
  | none =>
      have hclosed : (body.buffer.closeBlock buffer.openBlock.2).toList =
          buffer.toList ++ (Bytes.word 4 outcome.content.length ++ outcome.content) := by
        rw [toList_closeBlock h.appended, Bytes.framed, ← Bytes.word_four]
      rw [Run.closeBlock, h.failure, Outcome.inBlock]
      simp only [hcase]
      refine ⟨hclosed, rfl, List.forall_mem_append.mpr ⟨hkept, ?_⟩⟩
      exact List.forall_mem_singleton.mpr ⟨_, hclosed.symm⟩
  | some reason =>
      rw [Run.closeBlock, h.failure, Outcome.inBlock]
      simp only [hcase]
      refine ⟨?_, h.failure.trans hcase, hkept⟩
      rw [h.appended, toList_openBlock, List.append_assoc]
      rfl

theorem Run.Extends.recover {start : Bytes} {run : Run} {outcome : Outcome}
    (h : run.Extends start outcome) : run.recover.Extends start outcome.caught := by
  cases hcase : run.failure with
  | none =>
      rw [Run.recover]
      simp only [hcase]
      exact ⟨h.appended, hcase, h.kept⟩
  | some reason =>
      rw [Run.recover]
      simp only [hcase]
      refine ⟨h.appended, rfl, List.forall_mem_append.mpr ⟨h.kept, ?_⟩⟩
      exact List.forall_mem_singleton.mpr ⟨_, h.appended.symm⟩

theorem runSteps_extends_of_steps {steps : List Step}
    (ih : ∀ step ∈ steps, ∀ buffer, (runStep buffer step).Extends buffer.toList step.outcome)
    (buffer : Buffer) :
    (runSteps buffer steps).Extends buffer.toList (Step.outcomeAll steps) := by
  induction steps generalizing buffer with
  | nil => exact ⟨(List.append_nil _).symm, rfl, by simp [runSteps]⟩
  | cons step rest ihrest =>
      have hstep := ih step (List.mem_cons_self ..) buffer
      rw [Step.outcomeAll]
      cases hcase : (runStep buffer step).failure with
      | none =>
          -- the rest starts with what the step has left, so the hypothesis is for every buffer
          rw [runSteps_cons_of_none rest hcase]
          exact hstep.behind hcase (ihrest (fun s hs => ih s (List.mem_cons_of_mem _ hs)) _)
      | some reason =>
          rw [runSteps_cons_of_some rest hcase,
            Outcome.andThen_of_some _ (hstep.failure.symm.trans hcase)]
          exact hstep

/-- A step appends its outcome to whatever the buffer holds. -/
theorem runStep_extends (buffer : Buffer) (step : Step) :
    (runStep buffer step).Extends buffer.toList step.outcome := by
  induction step generalizing buffer with
  | word width value => exact Run.extends_ofBuffer (toList_appendWord ..)
  | length value => exact Run.extends_ofBuffer (toList_appendWord ..)
  | bytes content => exact Run.extends_ofBuffer (toList_append ..)
  | prefixed content =>
      apply Run.extends_ofBuffer
      rw [Bytes.word_four]
      exact toList_appendPrefixed ..
  | fail reason => exact ⟨(List.append_nil _).symm, rfl, by simp [runStep]⟩
  | block body ih => exact (runSteps_extends_of_steps ih _).closeBlock
  | attempt body ih => exact (runSteps_extends_of_steps ih _).closeBlock.recover

theorem runSteps_extends (buffer : Buffer) (steps : List Step) :
    (runSteps buffer steps).Extends buffer.toList (Step.outcomeAll steps) :=
  runSteps_extends_of_steps (fun step _ buffer => runStep_extends buffer step) buffer

/-- What a body makes of an empty buffer, behind its length, or behind zeros if the body fails. -/
def builtApart (body : List Step) : Outcome :=
  let apart := runSteps empty body
  let field := if apart.failure = none then Bytes.word 4 apart.buffer.size else [0, 0, 0, 0]
  ⟨field ++ apart.buffer.toList, apart.failure⟩

theorem outcome_block (body : List Step) : (Step.block body).outcome = builtApart body := by
  have happart := runSteps_extends empty body
  rw [builtApart, ← length_toList, happart.appended, happart.failure, toList_empty,
    List.nil_append, Step.outcome, Outcome.inBlock]
  cases (Step.outcomeAll body).failure <;> rfl

/-- Framed content is a block of its own. -/
theorem outcome_prefixed (content : Bytes) :
    (Step.prefixed content).outcome = (Step.block [.bytes content]).outcome := by
  simp [Step.outcome, Step.outcomeAll, Outcome.andThen, Outcome.ofContent, Outcome.inBlock]

/-- Blocks patched in place are blocks built apart, whatever nests in them and fails. A run extends
the buffer by its outcome, and a block is what its body makes of an empty buffer, behind the length
of that, or behind zeros if the body fails. Words are big-endian modulo their width. -/
theorem blocks_are_built_apart :
    (∀ buffer steps, (runSteps buffer steps).Extends buffer.toList (Step.outcomeAll steps)) ∧
    (∀ buffer step, (runStep buffer step).Extends buffer.toList step.outcome) ∧
    (∀ buffer body, (runStep buffer (.block body)).Extends buffer.toList (builtApart body)) ∧
    (∀ buffer body,
      (runStep buffer (.attempt body)).Extends buffer.toList (builtApart body).caught) ∧
    (∀ width value, (Bytes.word width value).length = width ∧
      (Radix.value 256 ((Bytes.word width value).map UInt8.toNat) : Int) =
        value % 2 ^ (8 * width)) ∧
    ∀ buffer content,
      (runStep buffer (.prefixed content)).buffer =
          (runStep buffer (.block [.bytes content])).buffer ∧
        (runStep buffer (.prefixed content)).failure = none ∧
        (runStep buffer (.block [.bytes content])).failure = none := by
  refine ⟨?runs, ?steps, ?blocks, ?attempts, ?words, ?framed⟩
  case runs =>
    intro buffer steps
    exact runSteps_extends buffer steps
  case steps =>
    intro buffer step
    exact runStep_extends buffer step
  case blocks =>
    intro buffer body
    rw [← outcome_block]
    exact runStep_extends buffer (.block body)
  case attempts =>
    intro buffer body
    rw [← outcome_block]
    exact runStep_extends buffer (.attempt body)
  case words =>
    intro width value
    exact ⟨Bytes.length_word width value, Bytes.value_word width value⟩
  case framed =>
    intro buffer content
    have hprefixed := (runStep_extends buffer (.prefixed content)).appended
    have hblock := (runStep_extends buffer (.block [.bytes content])).appended
    refine ⟨toList_inj.mp ?_, rfl, rfl⟩
    rw [hprefixed, hblock, outcome_prefixed]

/-- An attempt that fails behind a complete inner block, in a block that is completed. -/
example :
    (runSteps empty [.word 1 7, .block [.attempt [.block [.word 2 (-1)], .fail "full"],
      .length 3]]).buffer.toList =
      [7, 0, 0, 0, 14, 0, 0, 0, 0, 0, 0, 0, 2, 0xff, 0xff, 0, 0, 0, 3] := by
  decide

end Micheline.Buffer
