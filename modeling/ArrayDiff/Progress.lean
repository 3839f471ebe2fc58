import ArrayDiff.Error
import ArrayDiff.Graph.Basic

/-!
# Progress of a backward walk

Every func is walked from its last stage to the initial one. Contributions of other funcs have to come before the first
of its stages; a step out of order is refused and changes nothing.
-/

namespace ArrayDiff

variable {κ : Type}

/-- Where a func is in the walk over its stages. -/
inductive Phase where
  | unvisited
  | processing (stage : Stage)
  | resolved
  deriving DecidableEq

/-- The stage that has to be processed next, for a func with the given last stage. -/
def Phase.next? (last : Stage) : Phase → Option Stage
  | unvisited => some last
  | processing stage => stage.prev?
  | resolved => none

/-- The phase of a func after a stage was processed. -/
def Phase.after : Stage → Phase
  | .initial => resolved
  | stage => processing stage

def Phase.text : Phase → String
  | unvisited => "unvisited"
  | processing stage => s!"processing {stage.text}"
  | resolved => "resolved"

/-- The phase of every func that was begun; the others are unvisited. -/
structure Progress where
  phases : Table FuncId Phase := {}

namespace Progress

def phase (p : Progress) (f : FuncId) : Phase := (p.phases.get? f).getD .unvisited

theorem phase_insert (p : Progress) (f h : FuncId) (phase : Phase) :
    (⟨p.phases.insert f phase⟩ : Progress).phase h = if f = h then phase else p.phase h := by
  unfold Progress.phase
  rw [Table.get?_insert]
  split <;> rfl

/-- Starts to process a stage. -/
def begin (p : Progress) (g : Graph κ) (f : FuncId) (stage : Stage) : Except DiffError Progress :=
  if (p.phase f).next? (g.func f).lastStage = some stage then
    return { phases := p.phases.insert f (.after stage) }
  else throw (.outOfOrder (g.func f).name stage)

/-- Allows another func to contribute to `f`. -/
def accept (p : Progress) (g : Graph κ) (f : FuncId) : Except DiffError Unit :=
  if p.phase f = .unvisited then return () else throw (.outOfOrder (g.func f).name (g.func f).lastStage)

end Progress

end ArrayDiff
