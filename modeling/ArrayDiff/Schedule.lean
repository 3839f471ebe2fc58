import ArrayDiff.Error
import ArrayDiff.Graph.Basic

/-!
# Schedules

The order in which the stages of everything a func depends on can run: depth first, producers before consumers, the
stages of a func ascending. A func that is undefined, reads itself in its initial definition, or lies on a cycle has no
schedule.
-/

namespace ArrayDiff

/-- Everything reachable from a func; the funcs in an order in which they can run, buffers and params as they are met. -/
structure Schedule where
  funcs : List FuncId := []
  stages : List (FuncId × Stage) := []
  buffers : List BufferId := []
  params : List ParamId := []
  deriving DecidableEq

namespace Schedule

/-- Consumers first, the stages of each func descending. -/
def reversed (s : Schedule) : List (FuncId × Stage) := s.stages.reverse

def targets (s : Schedule) : List Target :=
  s.funcs.map .func ++ s.buffers.map .buffer ++ s.params.map .param

def addBuffer (s : Schedule) (b : BufferId) : Schedule :=
  if b ∈ s.buffers then s else { s with buffers := s.buffers ++ [b] }

def addParam (s : Schedule) (p : ParamId) : Schedule :=
  if p ∈ s.params then s else { s with params := s.params ++ [p] }

def addFunc (s : Schedule) (f : FuncId) (stages : List Stage) : Schedule :=
  { s with funcs := s.funcs ++ [f], stages := s.stages ++ stages.map fun stage => (f, stage) }

end Schedule

variable {κ : Type}

namespace Graph

/-- The cycle that is closed when `f` is met again; `path` has the newest func first. -/
def cyclePath (g : Graph κ) (path : List FuncId) (f : FuncId) : List Name :=
  let walk := path.takeWhile (· ≠ f)
  (f :: walk.reverse ++ [f]).map fun h => g.nameOf (.func h)

/-- Adds `f` and what it depends on to a schedule. The funcs of `path` are waiting for `f`; they are distinct, so that
one step for every func of the graph is enough. -/
def visit (g : Graph κ) : Nat → List FuncId → FuncId → Schedule → Except GraphError Schedule
  | 0, path, f, _ => throw (.cycle (g.cyclePath path f))
  | depth + 1, path, f, schedule =>
    if f ∈ schedule.funcs then return schedule
    else if f ∈ path then throw (.cycle (g.cyclePath path f))
    else do
      let func := g.func f
      if func.init.isNone then throw (.undefined (g.nameOf (.func f)))
      let reads := func.definitions.flatMap fun (stage, d) => d.reads.map fun r => (stage, r.target)
      let schedule ← reads.foldlM (fun schedule (stage, target) =>
        match target with
        | .func h =>
          if h = f then
            if stage = .initial then throw (.selfReference (g.nameOf (.func f))) else return schedule
          else g.visit depth (f :: path) h schedule
        | .buffer b => return schedule.addBuffer b
        | .param p => return schedule.addParam p) schedule
      return schedule.addFunc f (func.definitions.map (·.1))

/-- The schedule of everything that `root` depends on, `root` last. -/
def schedule (g : Graph κ) (root : FuncId) : Except GraphError Schedule := g.visit (g.size + 1) [] root {}

end Graph

end ArrayDiff
