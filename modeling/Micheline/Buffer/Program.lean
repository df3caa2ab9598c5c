import Micheline.Buffer

/-!
Programs of buffer operations. Blocks nest, a failing step ends the steps around it, and an
attempted block keeps its failure to itself. What a failing step leaves behind stays in the
buffer: a block that fails keeps its zero length in front of its partial content.
-/

namespace Micheline.Buffer

inductive Step
  | word (width : Nat) (value : Int)
  | length (value : Int)
  | bytes (content : Bytes)
  | prefixed (content : Bytes)
  | fail (reason : String)
  /-- Writes a block; its failure is a failure of this step. -/
  | block (body : List Step)
  /-- Writes a block; its failure is recorded and the next step goes on. -/
  | attempt (body : List Step)

/-- What is recorded behind a step: the buffer, and why an attempt failed if it did. -/
structure Entry where
  failure : Option String
  buffer : Buffer

/-- What a run leaves: the buffer, the record of its steps, and why it failed if it did. -/
structure Run where
  buffer : Buffer
  entries : List Entry
  failure : Option String

namespace Run

def ofBuffer (buffer : Buffer) : Run :=
  ⟨buffer, [⟨none, buffer⟩], none⟩

def behind (run : Run) (earlier : List Entry) : Run :=
  { run with entries := earlier ++ run.entries }

/-- Ends a block: its length is patched if the body succeeded. -/
def closeBlock (body : Run) (mark : Mark) : Run :=
  match body.failure with
  | none => (ofBuffer (body.buffer.closeBlock mark)).behind body.entries
  | some _ => body

def recover (run : Run) : Run :=
  match run.failure with
  | none => run
  | some reason => ⟨run.buffer, run.entries ++ [⟨some reason, run.buffer⟩], none⟩

end Run

mutual
def runStep (buffer : Buffer) : Step → Run
  | .word width value => .ofBuffer (buffer.appendWord width value)
  | .length value => .ofBuffer (buffer.appendLength value)
  | .bytes content => .ofBuffer (buffer.append content)
  | .prefixed content => .ofBuffer (buffer.appendPrefixed content)
  | .fail reason => ⟨buffer, [], some reason⟩
  | .block body => (runSteps buffer.openBlock.1 body).closeBlock buffer.openBlock.2
  | .attempt body =>
    ((runSteps buffer.openBlock.1 body).closeBlock buffer.openBlock.2).recover

/-- Carries out steps in turn, up to the first that fails. -/
def runSteps (buffer : Buffer) : List Step → Run
  | [] => ⟨buffer, [], none⟩
  | step :: rest =>
    let first := runStep buffer step
    match first.failure with
    | none => (runSteps first.buffer rest).behind first.entries
    | some _ => first
end

end Micheline.Buffer
