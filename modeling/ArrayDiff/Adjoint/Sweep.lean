import ArrayDiff.Adjoint.Slot
import ArrayDiff.Expr.Derivative
import ArrayDiff.Progress
import ArrayDiff.Recurrence
import ArrayDiff.Region

/-!
# The backward sweep

Stages are processed consumers first. Every key has an ordered list of terms; once all contributions to it have arrived
the terms become funcs, and the definition behind the key sends contributions on to everything it reads.
-/

namespace ArrayDiff

variable {κ : Type} [Extended κ]

/-- The variables in which the adjoint of a target is expressed. -/
def Graph.argsOf (g : Graph κ) : Target → List Name
  | .func f => (g.func f).args
  | .buffer b => (List.range (g.buffer b).domain.dims).map fun i => s!"i{i}"
  | .param _ => []

/-- The name that adjoint funcs are made up from. -/
def adjointName (name : Name) : Stage → Name
  | .initial => s!"{name}_d"
  | .update i => s!"{name}_{i}_d"

/-- What is differentiated, the funcs made so far, and the terms that are waiting to become funcs. -/
structure Sweep (κ : Type) where
  source : Graph κ
  regions : Regions
  extension : Extension κ
  terms : Table Key (List (Term κ)) := {}
  slots : Table Key Slot := {}
  progress : Progress := {}

namespace Sweep

/-- Nothing contributed and nothing processed yet. -/
def start (source : Graph κ) (regions : Regions) : Sweep κ := { source, regions, extension := { graph := source } }

/-- The domain outside which the adjoint of a target is 0. -/
def regionOf (s : Sweep κ) : Target → Domain
  | .func f => s.regions.of s.source f
  | .buffer b => (s.source.buffer b).domain
  | .param _ => .scalar

def site (s : Sweep κ) (key : Key) : Site :=
  ⟨key, adjointName (s.source.nameOf key.target) key.stage, s.source.argsOf key.target, s.regionOf key.target⟩

def addTerm (s : Sweep κ) (key : Key) (term : Term κ) : Sweep κ :=
  { s with terms := s.terms.insert key ((s.terms.get? key).getD [] ++ [term]) }

/-- Turns the terms of a key into funcs. -/
def settle (s : Sweep κ) (key : Key) : Slot × Sweep κ :=
  let (slot, extension) := (s.site key).materialize s.extension ((s.terms.get? key).getD [])
  (slot, { s with extension, terms := s.terms.erase key, slots := s.slots.insert key slot })

def snapshot (s : Sweep κ) (f : FuncId) (stage : Stage) : FuncId × Sweep κ :=
  let (copy, extension) := s.extension.snapshot f stage
  (copy, { s with extension })

/-- Adds the contribution of a read at `args` in a definition of `f`. -/
def contribute (s : Sweep κ) (key : Key) (f : FuncId) (d : Definition κ) (args : List (Expr κ)) (value : Expr κ) :
    Sweep κ :=
  match contribution? (s.source.func f) (s.regionOf (.func f)) d (s.source.argsOf key.target) args value with
  | some term => s.addTerm key term
  | none => s

/-- The key that a read by another func contributes to. -/
def keyRead (s : Sweep κ) : Target → Except DiffError Key
  | .func f => do
    s.progress.accept s.source f
    return ⟨.func f, (s.source.func f).lastStage⟩
  | target => return ⟨target, .initial⟩

/-- Contributions to everything that a definition of `f` reads apart from `f` itself; values of `f` in the derivatives
are taken from `copy`. -/
def contributeReads (s : Sweep κ) (f : FuncId) (d : Definition κ) (partials : List (Partial κ)) (adjoint : Expr κ)
    (copy : FuncId) : Except DiffError (Sweep κ) :=
  partials.foldlM (fun s p =>
    if p.read.target = .func f then return s
    else do
      let key ← s.keyRead p.read.target
      return s.contribute key f d p.read.args (Smart.mul (p.slope.redirect f copy) adjoint)) s

structure Step (κ : Type) where
  func : FuncId
  stage : Stage
  prior : Stage
  definition : Definition κ
  adjoint : FuncId

namespace Step

variable (t : Step κ)

def priorKey : Key := ⟨.func t.func, t.prior⟩

def partials : List (Partial κ) := t.definition.value.partials

/-- The derivatives with respect to the func itself. -/
def selfPartials : List (Partial κ) := t.partials.filter (·.read.target = .func t.func)

def unsupported (s : Sweep κ) (obstacle : Obstacle) : DiffError :=
  .unsupported (s.source.func t.func).name t.stage obstacle

end Step

/-- Written positions lose their adjoint, and self-reads send it to the stage before. -/
def overwrite (s : Sweep κ) (t : Step κ) : Except DiffError (Sweep κ) := do
  let d := t.definition
  if d.rdom.isSome && !d.writesOnce then throw (t.unsupported s .overwrittenRepeatedly)
  let (before, s) := s.snapshot t.func t.prior
  let vars := (s.source.func t.func).argExprs
  let kept :=
    if d.rdom.isSome || !Expr.sameList d.lhs vars then
      (s.addTerm t.priorKey (.gather (.call t.adjoint vars))).addTerm t.priorKey (.mask d.lhs d.rdom)
    else s
  let atLhs := Expr.call t.adjoint d.lhs
  let passed := t.selfPartials.foldl (fun s p =>
    s.contribute t.priorKey t.func d p.read.args (Smart.mul (p.slope.redirect t.func before) atLhs)) kept
  passed.contributeReads t.func d t.partials atLhs before

/-- The adjoint passes through unchanged, provided that the old value enters with slope 1. -/
def accumulate (s : Sweep κ) (t : Step κ) : Except DiffError (Sweep κ) := do
  let self := Target.func t.func
  if !t.selfPartials.all (·.slope.simplify.isOne) then throw (t.unsupported s .notAdditive)
  if t.partials.any fun p => p.read.target ≠ self && p.slope.readsTarget self then
    throw (t.unsupported s .accumulatedValueReadsSelf)
  let passed := s.addTerm t.priorKey (.gather (.call t.adjoint (s.source.func t.func).argExprs))
  passed.contributeReads t.func t.definition t.partials (.call t.adjoint t.definition.lhs) t.func

/-- The slope of a scan along the position of an earlier iteration; the written position has to have slope 1. -/
def scanSlope (s : Sweep κ) (t : Step κ) (read : List (Expr κ)) (after : FuncId) : Except DiffError (Expr κ) :=
  t.selfPartials.foldlM (fun slope p =>
    if Expr.sameList p.read.args read then return p.slope.redirect t.func after
    else if p.slope.simplify.isOne then return slope
    else throw (t.unsupported s .scanNotInPlace)) .zero

/-- What reduction variables are replaced by so that the domain is run through backwards. -/
def flipped (rdom : ReductionDomain) : Table Name (Expr κ) :=
  Table.ofList (rdom.dims.map fun (x, i) => (x, Smart.sub (Expr.ofInt i.endSum) (.rvar x)))

/-- An expression of a reduction domain that is run through backwards. -/
def reflect (rdom : ReductionDomain) (e : Expr κ) : Expr κ := (e.substituteRVars (flipped rdom).get?).simplify

/-- The update of the func `v` that runs a scan backwards: each read position gets its share of what was written. -/
def scanUpdate (d : Definition κ) (v : FuncId) (read : List (Expr κ)) (slope : Expr κ) (rdom : ReductionDomain) :
    Definition κ :=
  let read := read.map (reflect rdom)
  let lhs := d.lhs.map (reflect rdom)
  ⟨read, Smart.add (.call v read) (Smart.mul (reflect rdom slope) (.call v lhs)), some rdom⟩

/-- The func that runs a scan backwards from the adjoint of its stage, under the id `v`. -/
def scanFunc (s : Sweep κ) (t : Step κ) (v : FuncId) (read : List (Expr κ)) (slope : Expr κ)
    (rdom : ReductionDomain) : Func κ :=
  let f := s.source.func t.func
  let name := adjointName (s.source.nameOf (.func t.func)) t.stage ++ "_scan"
  let start : Func κ := { name, args := f.args, origin := .scan t.func t.stage }
  (start.withInit (.call t.adjoint f.argExprs)).addUpdate (scanUpdate t.definition v read slope rdom)

/-- The transposed recurrence runs first; positions that are not accumulated into lose their adjoint after it. -/
def scan (s : Sweep κ) (t : Step κ) (read : List (Expr κ)) (accumulates : Bool) : Except DiffError (Sweep κ) := do
  let d := t.definition
  let some rdom := d.rdom | throw (t.unsupported s .scanWithoutReduction)
  let (after, s) := s.snapshot t.func t.stage
  let slope ← s.scanSlope t read after
  let (v, extension) := s.extension.push (s.scanFunc t s.extension.nextId read slope rdom)
  let s := { s with extension }
  let passed := s.addTerm t.priorKey (.gather (.call v (s.source.func t.func).argExprs))
  let kept := if accumulates then passed else passed.addTerm t.priorKey (.mask d.lhs (some rdom))
  kept.contributeReads t.func d t.partials (.call v d.lhs) after

def process (s : Sweep κ) (f : FuncId) (stage : Stage) : Except DiffError (Sweep κ) := do
  let progress ← s.progress.begin s.source f stage
  let (slot, s) := { s with progress }.settle ⟨.func f, stage⟩
  let some d := (s.source.func f).definition? stage | return s
  let some prior := stage.prev?
    | s.contributeReads f d d.value.partials (.call slot.bounded d.lhs) f
  let t : Step κ := ⟨f, stage, prior, d, slot.bounded⟩
  match ← s.source.classify f stage d with
  | .overwrite => s.overwrite t
  | .inPlace => s.accumulate t
  | .scan read accumulates => s.scan t read accumulates

end Sweep

end ArrayDiff
