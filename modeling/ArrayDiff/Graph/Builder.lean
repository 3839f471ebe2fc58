import ArrayDiff.Graph.Basic

/-!
# Building graphs

Declarations and definitions, with the checks that a graph is put together properly: names are used once, funcs are
defined once and before their updates, and a pure variable stands in the position of an update only alone and at its
own dimension.
-/

namespace ArrayDiff

/-- Misuse of the building operations. -/
inductive BuildError where
  | nameInUse (name : Name)
  | alreadyDefined (func : Name)
  | updateBeforeDefinition (func : Name)
  | updateArity (func : Name) (given expected : Nat)
  | estimateRank (func : Name) (given expected : Nat)
  | misplacedVariable (x func : Name)
  deriving DecidableEq

/-- Two numbers that should have been equal. -/
def unequalText (what : String) (given expected : Nat) : String :=
  s!"assertion \x60left == right\x60 failed: {what}\n  left: {given}\n right: {expected}"

def BuildError.message : BuildError → String
  | nameInUse name => s!"name \x60{name}\x60 is already used in this graph"
  | alreadyDefined func => s!"func \x60{func}\x60 is already defined"
  | updateBeforeDefinition func => s!"func \x60{func}\x60 needs a definition before updates"
  | updateArity func given expected => unequalText s!"update arity of \x60{func}\x60" given expected
  | estimateRank func given expected => unequalText s!"estimate rank of \x60{func}\x60" given expected
  | misplacedVariable x func => s!"pure variable \x60{x}\x60 of \x60{func}\x60 must appear alone at its own dimension"

namespace Graph

variable {κ : Type}

def checkUnused (g : Graph κ) (name : Name) : Except BuildError Unit :=
  if (g.lookup? name).isSome then throw (.nameInUse name) else pure ()

/-- Declares a func with named pure arguments. -/
def addFunc (g : Graph κ) (name : Name) (args : List Name) : Except BuildError (FuncId × Graph κ) := do
  g.checkUnused name
  return g.push { name, args }

def addBuffer (g : Graph κ) (name : Name) (domain : Domain) : Except BuildError (BufferId × Graph κ) := do
  g.checkUnused name
  return (⟨g.buffers.size⟩, { g with buffers := g.buffers.push ⟨name, domain⟩ })

def addParam (g : Graph κ) (name : Name) : Except BuildError (ParamId × Graph κ) := do
  g.checkUnused name
  return (⟨g.params.size⟩, { g with params := g.params.push name })

/-- Gives a func its initial definition. -/
def define (g : Graph κ) (f : FuncId) (value : Expr κ) : Except BuildError (Graph κ) :=
  if (g.func f).init.isSome then throw (.alreadyDefined (g.func f).name)
  else return g.modifyFunc f (·.withInit value)

/-- The first pure variable of an update position that does not stand alone at its own dimension. -/
def misplaced? (f : Func κ) (lhs : List (Expr κ)) : Option Name :=
  lhs.zipIdx.findSome? fun (e, i) =>
    e.freeVars.find? fun x => !(e.varName? = some x && f.dimOf? x = some i)

/-- Appends an update, iterated over `rdom` if there is one. -/
def update (g : Graph κ) (f : FuncId) (d : Definition κ) : Except BuildError (Graph κ) := do
  let func := g.func f
  if func.init.isNone then throw (.updateBeforeDefinition func.name)
  if d.lhs.length ≠ func.dims then throw (.updateArity func.name d.lhs.length func.dims)
  if let some x := misplaced? func d.lhs then throw (.misplacedVariable x func.name)
  return g.modifyFunc f (·.addUpdate d)

/-- Declares the domain that a func is expected to be evaluated over. -/
def setEstimate (g : Graph κ) (f : FuncId) (domain : Domain) : Except BuildError (Graph κ) :=
  let func := g.func f
  if domain.dims ≠ func.dims then throw (.estimateRank func.name domain.dims func.dims)
  else return g.modifyFunc f fun func => { func with estimate := some domain }

end Graph

end ArrayDiff
