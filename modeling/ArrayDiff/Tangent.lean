import ArrayDiff.Expr.Derivative
import ArrayDiff.Graph.Extension
import ArrayDiff.Recurrence
import ArrayDiff.Schedule
import ArrayDiff.Seed

/-!
# Tangents

Forward-mode differentiation of a graph: funcs for the change of an output when some funcs, buffers and params move
along given direction funcs. Only what depends on a moved target gets a tangent.
-/

namespace ArrayDiff

variable {κ : Type} [Extended κ]

/-- A graph extended by tangent funcs: the one of the output, and those of all targets that move. -/
structure Tangents (κ : Type) where
  graph : Graph κ
  output : FuncId
  active : Table Target FuncId

/-- The target and the direction that a named direction stands for. -/
def Graph.direction (g : Graph κ) (name : Name) (seed : FuncId) : Except DiffError (Target × FuncId) := do
  let some target := g.lookup? name | throw (.lookup (.unknownName name))
  (checkRank (g.func seed).name (g.dimsOf target) (g.func seed).dims).mapError .shape
  return (target, seed)

/-- Whether forward mode can follow an accumulation: old values have to enter with slope 1. -/
def UpdateKind.isAdditive (f : FuncId) (d : Definition κ) : UpdateKind κ → Bool
  | overwrite => true
  | inPlace =>
    let self := Target.func f
    d.value.partials.all fun p =>
      if p.read.target = self then p.slope.simplify.isOne else !p.slope.readsTarget self
  | scan read _ =>
    d.value.partials.all fun p =>
      p.read.target ≠ .func f || Expr.sameList p.read.args read || p.slope.simplify.isOne

namespace Tangents

/-- The graph so far, and the tangents of the targets that move. -/
structure State (κ : Type) where
  extension : Extension κ
  active : Table Target FuncId

/-- The stage whose values of `f` stand in derivatives of a definition: the one before, or for a scan the same one. -/
def valueStage? (g : Graph κ) (f : FuncId) (stage : Stage) (d : Definition κ) : Except DiffError (Option Stage) :=
  if stage = .initial then return none
  else do
    let kind ← g.classify f stage d
    if !kind.isAdditive f d then throw (.unsupported (g.func f).name stage .notAdditive)
    match kind with
    | .scan .. => return some stage
    | _ => return stage.prev?

/-- The derivative of a value along the active targets. -/
def State.tangentOf (s : State κ) (e : Expr κ) : Expr κ :=
  (e.tangent fun r => (s.active.get? r.target).map fun t => .call t r.args).simplify

/-- Adds the tangent of one definition of `f` to the func `id`. -/
def addDefinition (g : Graph κ) (f id : FuncId) (s : State κ) (stage : Stage) (d : Definition κ) :
    Except DiffError (State κ) := do
  let valueStage ← valueStage? g f stage d
  let value := s.tangentOf d.value
  let (value, extension) :=
    match valueStage with
    | some valueAt =>
      if value.readsTarget (.func f) then
        let (copy, extension) := s.extension.snapshot f valueAt
        (value.redirect f copy, extension)
      else (value, s.extension)
    | none => (value, s.extension)
  let add (t : Func κ) : Func κ :=
    if stage = .initial then t.withInit value else t.addUpdate ⟨d.lhs, value, d.rdom⟩
  return { s with extension := extension.modify id add }

/-- The tangent of a func before it has definitions. -/
def tangentFunc (g : Graph κ) (f : FuncId) : Func κ :=
  { name := (g.func f).name ++ "_t", args := (g.func f).args, origin := .tangent (.func f) }

/-- Adds the tangent of `f` if it reads something that moves. -/
def addFunc (g : Graph κ) (s : State κ) (f : FuncId) : Except DiffError (State κ) :=
  let definitions := (g.func f).definitions
  let moves := definitions.any fun (_, d) => d.value.reads.any fun r => s.active.contains r.target
  if s.active.contains (.func f) || !moves then return s
  else
    let (id, extension) := s.extension.push (tangentFunc g f)
    definitions.foldlM (fun s (stage, d) => addDefinition g f id s stage d)
      ⟨extension, s.active.insert (.func f) id⟩

end Tangents

/-- Tangents of everything between the moved targets and `output`; an output that does not move has tangent 0. -/
def Graph.tangents (g : Graph κ) (output : FuncId) (directions : List (Name × FuncId)) :
    Except DiffError (Tangents κ) := do
  let seeds ← directions.mapM fun (name, seed) => g.direction name seed
  let schedule ← (g.schedule output).mapError .graph
  let s ← schedule.funcs.foldlM (Tangents.addFunc g) ⟨{ graph := g }, .ofList seeds⟩
  match s.active.get? (.func output) with
  | some t => return ⟨s.extension.graph, t, s.active⟩
  | none =>
    let (zero, extension) := s.extension.push ((Tangents.tangentFunc g output).withInit .zero)
    return ⟨extension.graph, zero, s.active⟩

end ArrayDiff
