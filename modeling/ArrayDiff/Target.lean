/-!
# Targets and stages

Ids of the funcs, buffers and params of a graph, what an expression can read, and the stages of a func: its initial
definition and its updates, in the order in which they run.
-/

namespace ArrayDiff

abbrev Name := String

structure FuncId where
  index : Nat
  deriving DecidableEq, Ord

structure BufferId where
  index : Nat
  deriving DecidableEq, Ord

structure ParamId where
  index : Nat
  deriving DecidableEq, Ord

/-- What an expression can read, and what can receive an adjoint. -/
inductive Target where
  | func (f : FuncId)
  | buffer (b : BufferId)
  | param (p : ParamId)
  deriving DecidableEq, Ord

/-- The id as it is shown when a target has no name. -/
def Target.idText : Target → String
  | func f => s!"f{f.index}"
  | buffer b => s!"b{b.index}"
  | param p => s!"p{p.index}"

/-- A definition of a func: the initial one, or an update by its position. -/
inductive Stage where
  | initial
  | update (i : Nat)
  deriving DecidableEq, Ord

namespace Stage

/-- The initial definition counts as -1, updates from 0. -/
def index : Stage → Int
  | initial => -1
  | update i => i

def ofIndex? : Int → Option Stage
  | .negSucc 0 => some initial
  | .ofNat i => some (update i)
  | _ => none

def prev? : Stage → Option Stage
  | initial => none
  | update 0 => some initial
  | update (i + 1) => some (update i)

/-- The last stage of a func with the given number of updates. -/
def last : Nat → Stage
  | 0 => initial
  | n + 1 => update n

def text : Stage → String
  | initial => "initial"
  | update i => s!"update {i}"

end Stage

/-- Which value of a target is meant: the one after a stage. Buffers and params have the initial stage only. -/
structure Key where
  target : Target
  stage : Stage
  deriving DecidableEq, Ord

end ArrayDiff
