import Std.Data.TreeMap
import ArrayDiff.Bindings
import ArrayDiff.Expr.Eval
import ArrayDiff.Region

/-!
# Realization

The reference interpreter. Funcs without updates are evaluated point by point when they are called, and remembered; a
func with updates is computed over its whole region the first time it is called. An update without a reduction domain
reads the values from before it; one with a reduction domain runs step by step, pure variables outermost.
-/

namespace ArrayDiff

variable {κ α : Type}

/-- The values of a func over a domain, in the order of its points. -/
structure Storage (α : Type) where
  domain : Domain
  values : Array α

namespace Storage

def get? (s : Storage α) (index : List Int) : Option α := (s.domain.position? index).bind (s.values[·]?)

/-- Replaces the value at a place in the list of points. -/
def setAt (s : Storage α) (place : Nat) (v : α) : Storage α := { s with values := s.values.setIfInBounds place v }

end Storage

/-- What the interpreter has computed so far. -/
structure Memory (α : Type) where
  stored : Table FuncId (Storage α) := {}
  /-- Values of funcs without updates, by func and point. -/
  known : Table FuncId (Std.TreeMap (List Int) α) := {}

namespace Memory

def memoized? (m : Memory α) (f : FuncId) (index : List Int) : Option α := (m.known.get? f).bind (·[index]?)

def remember (m : Memory α) (f : FuncId) (index : List Int) (v : α) : Memory α :=
  { m with known := m.known.insert f (((m.known.get? f).getD {}).insert index v) }

end Memory

/-- Computations that remember what they have computed and can fail. -/
abbrev Run (α : Type) := StateT (Memory α) (Except EvalError)

/-- A graph with everything that its evaluation needs. -/
structure Job (κ α : Type) where
  graph : Graph κ
  bindings : Bindings α
  regions : Regions

variable [Scalar κ] [Scalar α] [Embed κ α]

/-- A coordinate as a value; it goes through the constants of expressions. -/
def coordinate (κ : Type) [Scalar κ] [Embed κ α] (i : Int) : α := Embed.embed (Scalar.ofInt i : κ)

def coordinates (κ : Type) [Scalar κ] [Embed κ α] (names : List Name) (point : List Int) : List (Name × α) :=
  names.zip (point.map (coordinate κ))

/-- The iterations of an update over a region in their order: the variables that stand alone in its position are
outermost, the first reduction variable innermost. -/
def Definition.iterations (d : Definition κ) (region : Domain) : List (Env α) :=
  let free := (d.lhs.zip region.intervals).filterMap fun (e, i) => e.varName?.map fun x => (x, i)
  let inner := d.rdom.elim [[]] ReductionDomain.points
  let reduced := d.rdom.elim [] ReductionDomain.names
  (Domain.product (free.map (·.2))).flatMap fun p =>
    inner.map fun r => ⟨coordinates κ (free.map (·.1)) p, coordinates κ reduced r⟩

namespace Job

def outOfBounds (j : Job κ α) (f : FuncId) (index : List Int) : EvalError := .outOfBounds (j.graph.func f).name index

/-- The value of a buffer at a position inside its domain. -/
def load (j : Job κ α) (b : BufferId) (index : List Int) : Run α α := do
  let data ← j.bindings.tensor j.graph b
  let buffer := j.graph.buffer b
  match (buffer.domain.position? index).bind (data.values[·]?) with
  | some v => return v
  | none => throw (.outOfBounds buffer.name index)

/-- How reads are answered, given how calls are. -/
def reader (j : Job κ α) (call : FuncId → List Int → Run α α) : Reader (Run α) α where
  call := call
  load := j.load
  param p := j.bindings.param j.graph p
  unbound x := throw (.unboundVariable x)

def store (j : Job κ α) (f : FuncId) (index : List Int) (v : α) : Run α Unit := do
  let memory ← get
  match (memory.stored.get? f).bind (·.domain.position? index) with
  | some place => modify fun m => { m with stored := m.stored.modify f (·.setAt place v) }
  | none => throw (j.outOfBounds f index)

def iterate (reader : Reader (Run α) α) (d : Definition κ) (env : Env α) : Run α (List Int × α) := do
  let index ← Expr.evalIndex reader env d.lhs
  let v ← d.value.eval reader env
  return (index, v)

/-- Every iteration sees what the iterations before it wrote. -/
def runStepwise (j : Job κ α) (reader : Reader (Run α) α) (f : FuncId) (d : Definition κ) (iterations : List (Env α)) :
    Run α Unit :=
  iterations.forM fun env => do
    let (index, v) ← iterate reader d env
    j.store f index v

/-- No iteration sees what another one wrote. -/
def runAtOnce (j : Job κ α) (reader : Reader (Run α) α) (f : FuncId) (d : Definition κ) (iterations : List (Env α)) :
    Run α Unit := do
  let pending ← iterations.mapM (iterate reader d)
  pending.forM fun (index, v) => j.store f index v

def runUpdate (j : Job κ α) (reader : Reader (Run α) α) (f : FuncId) (region : Domain) (d : Definition κ) :
    Run α Unit :=
  if d.rdom.isSome then j.runStepwise reader f d (d.iterations region)
  else j.runAtOnce reader f d (d.iterations region)

/-- Computes a func over its region: the initial definition everywhere, then its updates in order. -/
def materialize (j : Job κ α) (reader : Reader (Run α) α) (f : FuncId) : Run α Unit := do
  let func := j.graph.func f
  let region := j.regions.of j.graph f
  let some init := func.init | throw (.graph (.undefined func.name))
  let values ← region.points.mapM fun p => init.value.eval reader ⟨coordinates κ func.args p, []⟩
  let data ← region.tensor func.name values
  modify fun m => { m with stored := m.stored.insert f ⟨region, data.values⟩ }
  func.updates.forM (j.runUpdate reader f region)

/-- Computes a func with updates, unless that was done before. -/
def prepare (j : Job κ α) (reader : Reader (Run α) α) (f : FuncId) : Run α Unit := do
  let memory ← get
  if !(j.graph.func f).updates.isEmpty && !memory.stored.contains f then j.materialize reader f

/-- The value of a func at a point, from its storage or from its initial definition. -/
def valueAt (j : Job κ α) (reader : Reader (Run α) α) (f : FuncId) (index : List Int) : Run α α := do
  let memory ← get
  match memory.stored.get? f with
  | some storage =>
    match storage.get? index with
    | some v => return v
    | none => throw (j.outOfBounds f index)
  | none =>
    match memory.memoized? f index with
    | some v => return v
    | none =>
      let func := j.graph.func f
      let some init := func.init | throw (.graph (.undefined func.name))
      let v ← init.value.eval reader ⟨coordinates κ func.args index, []⟩
      modify (·.remember f index v)
      return v

def answer (j : Job κ α) (reader : Reader (Run α) α) (f : FuncId) (index : List Int) : Run α α := do
  j.prepare reader f
  j.valueAt reader f index

/-- The value of a func at a point; calls may be nested as deep as the first argument says. Scheduled funcs call only
funcs that come before them, apart from themselves while they are computed. -/
def call (j : Job κ α) : Nat → FuncId → List Int → Run α α
  | 0, f, _ => throw (.graph (.cycle [(j.graph.func f).name]))
  | depth + 1, f, index => j.answer (j.reader (j.call depth)) f index

end Job

/-- The values of a func over a domain. -/
def Graph.realize {κ α : Type} [Extended κ] [Scalar α] [Embed κ α] (g : Graph κ) (f : FuncId) (domain : Domain)
    (bindings : Bindings α) : Except EvalError (Tensor α) := do
  let schedule ← (g.schedule f).mapError .graph
  let regions ← (g.inferRegions schedule f domain).mapError .shape
  let job : Job κ α := ⟨g, bindings, regions⟩
  let (values, _) ← (domain.points.mapM (job.call (schedule.funcs.length + 1) f)).run {}
  domain.tensor (g.func f).name values

end ArrayDiff
