import ArrayDiff.Graph.Basic

/-!
# Extensions

A graph to which funcs are added while another graph is differentiated. Copies of a func as it is after one of its
stages are made once and shared.
-/

namespace ArrayDiff

variable {κ : Type}

/-- The graph so far, and the copies made of funcs after a stage. -/
structure Extension (κ : Type) where
  graph : Graph κ
  snapshots : Table (FuncId × Stage) FuncId := {}

namespace Extension

/-- Adds a func under a fresh name made from its own. -/
def push (x : Extension κ) (f : Func κ) : FuncId × Extension κ :=
  let (id, graph) := x.graph.pushFresh f
  (id, { x with graph })

/-- The id of the func that is added next. -/
def nextId (x : Extension κ) : FuncId := ⟨x.graph.size⟩

def modify (x : Extension κ) (f : FuncId) (change : Func κ → Func κ) : Extension κ :=
  { x with graph := x.graph.modifyFunc f change }

def snapshotName (name : Name) : Stage → Name
  | .initial => s!"{name}_primal"
  | .update i => s!"{name}_{i}_primal"

/-- `f` as it is after `stage`: a copy without the later updates that calls itself where `f` does. After its last stage
`f` stands for itself. -/
def snapshot (x : Extension κ) (f : FuncId) (stage : Stage) : FuncId × Extension κ :=
  let func := x.graph.func f
  if func.lastStage.index ≤ stage.index then (f, x)
  else
    match x.snapshots.get? (f, stage) with
    | some copy => (copy, x)
    | none =>
      let copy := (func.truncate stage).mapExprs (·.redirect f x.nextId)
      let (id, x) := x.push { copy with name := snapshotName func.name stage, origin := .primal f stage }
      (id, { x with snapshots := x.snapshots.insert (f, stage) id })

end Extension

end ArrayDiff
