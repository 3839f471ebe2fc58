import ArrayDiff.Domain
import ArrayDiff.Expr.Substitution
import ArrayDiff.Table

/-!
# Graphs

A graph holds funcs, buffer declarations and scalar params. A func maps integer coordinates to values: it has an
initial definition and updates, each possibly iterated over a reduction domain. Ids are positions; an id of another
graph stands for a func or buffer about which nothing is known.
-/

namespace ArrayDiff

variable {κ : Type}

/-- One assignment rule of a func: `value` goes to the position `lhs`. -/
structure Definition (κ : Type) where
  lhs : List (Expr κ)
  value : Expr κ
  rdom : Option ReductionDomain

/-- The position first, then the value. -/
def Definition.exprs (d : Definition κ) : List (Expr κ) := d.lhs ++ [d.value]

def Definition.reads (d : Definition κ) : List (Read κ) := d.exprs.flatMap Expr.reads

/-- Changes all expressions of a definition. -/
def Definition.map (g : Expr κ → Expr κ) (d : Definition κ) : Definition κ :=
  { d with lhs := d.lhs.map g, value := g d.value }

/-- Why a func exists. -/
inductive Origin where
  | user
  /-- Adjoint of a target after a stage; a bounded one is 0 outside the region of the target. -/
  | adjoint (target : Target) (stage : Stage) (bounded : Bool)
  /-- Reverse accumulator of a scan. -/
  | scan (func : FuncId) (stage : Stage)
  /-- The func as it is after a stage. -/
  | primal (func : FuncId) (stage : Stage)
  | tangent (target : Target)
  deriving DecidableEq

/-- Made by differentiation, and not a copy of an existing func. -/
def Origin.isDerivative : Origin → Bool
  | adjoint .. | scan .. | tangent _ => true
  | user | primal .. => false

/-- A function of integer coordinates, with the names of its arguments and its definitions. -/
structure Func (κ : Type) where
  name : Name
  args : List Name
  origin : Origin := .user
  init : Option (Definition κ) := none
  updates : List (Definition κ) := []
  /-- The domain that the func is expected to be evaluated over. -/
  estimate : Option Domain := none

instance : Inhabited (Func κ) := ⟨{ name := "", args := [] }⟩

namespace Func

def dims (f : Func κ) : Nat := f.args.length

def argExprs (f : Func κ) : List (Expr κ) := f.args.map .var

def lastStage (f : Func κ) : Stage := .last f.updates.length

def definition? (f : Func κ) : Stage → Option (Definition κ)
  | .initial => f.init
  | .update i => f.updates[i]?

/-- All definitions in execution order. -/
def definitions (f : Func κ) : List (Stage × Definition κ) :=
  (f.init.toList.map fun d => (Stage.initial, d)) ++ f.updates.zipIdx.map fun (d, i) => (Stage.update i, d)

/-- The dimension that a pure variable runs along. -/
def dimOf? (f : Func κ) (x : Name) : Option Nat := f.args.findIdx? (· = x)

/-- The func with an initial definition at its own arguments. -/
def withInit (f : Func κ) (value : Expr κ) : Func κ := { f with init := some ⟨f.argExprs, value, none⟩ }

def addUpdate (f : Func κ) (d : Definition κ) : Func κ := { f with updates := f.updates ++ [d] }

/-- The func with the updates that come after `stage` left out. -/
def truncate (f : Func κ) : Stage → Func κ
  | .initial => { f with updates := [] }
  | .update i => { f with updates := f.updates.take (i + 1) }

def mapExprs (g : Expr κ → Expr κ) (f : Func κ) : Func κ :=
  { f with init := f.init.map (·.map g), updates := f.updates.map (·.map g) }

/-- The other funcs that are called in some definition, in order of discovery. -/
def callees (f : Func κ) (self : FuncId) : List FuncId :=
  let calls := (f.definitions.flatMap fun (_, d) => d.reads).filterMap fun r =>
    match r.target with
    | .func g => if g = self then none else some g
    | _ => none
  calls.eraseDups

end Func

/-- Declared data: a name and the domain that it covers. -/
structure Buffer where
  name : Name
  domain : Domain
  deriving DecidableEq

instance : Inhabited Buffer := ⟨⟨"", .scalar⟩⟩

/-- The funcs, buffers and params of a pipeline, each addressed by its position. -/
structure Graph (κ : Type) where
  funcs : Array (Func κ) := #[]
  buffers : Array Buffer := #[]
  params : Array Name := #[]
  /-- The last number that was put into a made-up name. -/
  counter : Nat := 0

namespace Graph

instance : Inhabited (Graph κ) := ⟨{}⟩

def size (g : Graph κ) : Nat := g.funcs.size

def func (g : Graph κ) (f : FuncId) : Func κ := g.funcs.getD f.index default

def buffer (g : Graph κ) (b : BufferId) : Buffer := g.buffers.getD b.index default

def param (g : Graph κ) (p : ParamId) : Name := g.params.getD p.index ""

def funcIds (g : Graph κ) : List FuncId := (List.range g.size).map FuncId.mk

/-- Nothing is known about a func of another graph. -/
theorem func_of_unknown {g : Graph κ} {f : FuncId} (unknown : ¬f.index < g.size) : g.func f = default := by
  unfold func
  rw [Array.getD_eq_getD_getElem?, Array.getElem?_eq_none (Nat.not_lt.mp unknown)]
  rfl

theorem mem_funcIds {g : Graph κ} {f : FuncId} : f ∈ g.funcIds ↔ f.index < g.size := by
  simp only [funcIds, List.mem_map, List.mem_range]
  exact ⟨fun ⟨_, h, e⟩ => e ▸ h, fun h => ⟨f.index, h, rfl⟩⟩

/-- The target that a name stands for: funcs come before buffers, and buffers before params. -/
def lookup? (g : Graph κ) (name : Name) : Option Target :=
  match g.funcs.findIdx? (·.name = name) with
  | some i => some (.func ⟨i⟩)
  | none =>
    match g.buffers.findIdx? (·.name = name) with
    | some i => some (.buffer ⟨i⟩)
    | none => (g.params.findIdx? (· = name)).map fun i => .param ⟨i⟩

/-- The name of a target of this graph. -/
def nameOf? (g : Graph κ) : Target → Option Name
  | .func f => g.funcs[f.index]?.map (·.name)
  | .buffer b => g.buffers[b.index]?.map (·.name)
  | .param p => g.params[p.index]?

/-- The name of a target, or the text of its id. -/
def nameOf (g : Graph κ) (t : Target) : Name := (g.nameOf? t).getD t.idText

/-- The number of coordinates that a target is read with. -/
def dimsOf (g : Graph κ) : Target → Nat
  | .func f => (g.func f).dims
  | .buffer b => (g.buffer b).domain.dims
  | .param _ => 0

/-- The number of names in use. -/
def nameCount (g : Graph κ) : Nat := g.funcs.size + g.buffers.size + g.params.size

/-- Adds a func and gives its id. -/
def push (g : Graph κ) (f : Func κ) : FuncId × Graph κ := (⟨g.size⟩, { g with funcs := g.funcs.push f })

def modifyFunc (g : Graph κ) (f : FuncId) (change : Func κ → Func κ) : Graph κ :=
  { g with funcs := g.funcs.modify f.index change }

/-- The first unused one of `candidate` and `base$n` for the numbers after `counter`, with the last number tried. -/
def unusedName (g : Graph κ) (base : Name) : Nat → Nat → Name → Name × Nat
  | 0, counter, candidate => (candidate, counter)
  | tries + 1, counter, candidate =>
    if (g.lookup? candidate).isNone then (candidate, counter)
    else g.unusedName base tries (counter + 1) s!"{base}${counter + 1}"

/-- `base` if no target has that name, otherwise `base` with a fresh number. As many tries as there are names are enough
to find an unused one. -/
def freshName (g : Graph κ) (base : Name) : Name × Graph κ :=
  let (name, counter) := g.unusedName base g.nameCount g.counter base
  (name, { g with counter })

/-- Adds a func under a fresh name made from the name it comes with. -/
def pushFresh (g : Graph κ) (f : Func κ) : FuncId × Graph κ :=
  let (name, g) := g.freshName f.name
  g.push { f with name }

end Graph

end ArrayDiff
