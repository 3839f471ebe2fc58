import ArrayDiff.Adjoint.Sweep
import ArrayDiff.Seed

/-!
# Adjoints

Reverse-mode differentiation of a graph: funcs for the derivative of an output with respect to every func, buffer and
param it depends on. `Graph.adjoints` makes them, and an `Adjoints` says where they are.
-/

namespace ArrayDiff

variable {κ : Type} [Extended κ]

/-- A graph extended by adjoint funcs, with the funcs of every key. -/
structure Adjoints (κ : Type) where
  graph : Graph κ
  output : FuncId
  slots : Table Key Slot

/-- The output adjoint, 0 outside the domain of the seed. -/
def Sweep.addSeed (s : Sweep κ) (output : FuncId) (seed : ResolvedSeed κ) : Sweep κ :=
  let f := s.source.func output
  let value := Smart.select (seed.domain.containsExpr f.argExprs) seed.value .zero
  s.addTerm ⟨.func output, f.lastStage⟩ (.gather value)

/-- The sweep over everything that `output` depends on: the stages of funcs consumers first, then buffers and params. -/
def Graph.sweep (g : Graph κ) (output : FuncId) (seed : Seed κ) : Except DiffError (Sweep κ) := do
  let resolved ← (g.resolveSeed output seed).mapError .shape
  let schedule ← (g.schedule output).mapError .graph
  let regions ← (g.inferRegions schedule output resolved.domain).mapError .shape
  let start := (Sweep.start g regions).addSeed output resolved
  let swept ← schedule.reversed.foldlM (fun s (f, stage) => s.process f stage) start
  let leaves := schedule.buffers.map Target.buffer ++ schedule.params.map Target.param
  return leaves.foldl (fun s target => (s.settle ⟨target, .initial⟩).2) swept

def Graph.adjoints (g : Graph κ) (output : FuncId) (seed : Seed κ) : Except DiffError (Adjoints κ) := do
  let done ← g.sweep output seed
  return ⟨done.extension.graph, output, done.slots⟩

namespace Adjoints

def missing (a : Adjoints κ) (key : Key) (bounded : Bool) : LookupError :=
  .missing (a.graph.nameOf key.target) key.stage bounded

/-- The bounded or the unbounded adjoint func of a key. -/
def find (a : Adjoints κ) (key : Key) (bounded : Bool) : Except LookupError FuncId :=
  match (a.slots.get? key).bind fun slot => if bounded then some slot.bounded else slot.unbounded with
  | some f => return f
  | none => throw (a.missing key bounded)

/-- The bounded adjoint of the initial definition of a func, or of a buffer or param. -/
def of (a : Adjoints κ) (target : Target) : Except LookupError FuncId := a.find ⟨target, .initial⟩ true

/-- The stages of a func, last one first. -/
def stagesFrom : Nat → List Stage
  | 0 => [.initial]
  | n + 1 => .update n :: stagesFrom n

/-- The adjoint funcs of `f` from its last stage to its initial one, each bounded func followed by its unbounded one. -/
def funcs (a : Adjoints κ) (f : FuncId) : Except LookupError (List FuncId) :=
  if a.graph.size ≤ f.index then throw (a.missing ⟨.func f, .initial⟩ true)
  else do
    let found ← (stagesFrom (a.graph.func f).updates.length).mapM fun stage =>
      match a.slots.get? ⟨.func f, stage⟩ with
      | some slot => return slot.bounded :: slot.unbounded.toList
      | none => throw (a.missing ⟨.func f, stage⟩ true)
    return found.flatten

end Adjoints

end ArrayDiff
