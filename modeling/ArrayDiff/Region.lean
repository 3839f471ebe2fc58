import ArrayDiff.Schedule
import ArrayDiff.Span.Scope

/-!
# Regions

The domain that every func has to be computed over when a func is wanted over a given domain. Consumers come first; a
func whose updates write or read its own values elsewhere is computed over those positions too.
-/

namespace ArrayDiff

variable {κ : Type} [Extended κ]

/-- The domain that every func has to be computed over. -/
abbrev Regions := Table FuncId Domain

/-- The region of a func; what nobody asks for is empty. -/
def Regions.of (r : Regions) (g : Graph κ) (f : FuncId) : Domain := (r.get? f).getD (.empty (g.func f).dims)

namespace Graph

/-- The positions that index arguments with the given ranges can address. -/
def request (g : Graph κ) (consumer : FuncId) (target : Target) (spans : List (Span κ)) :
    Except ShapeError Domain := do
  let intervals ← spans.zipIdx.mapM fun (s, dim) =>
    match s.toInterval? with
    | some i => pure i
    | none => throw (.unboundedAccess (g.nameOf (.func consumer)) (g.nameOf target) dim)
  return ⟨intervals⟩

/-- Adds the positions of `f` that one of its updates writes and reads. -/
def growByUpdate (g : Graph κ) (f : FuncId) (region extra : Domain) (d : Definition κ) :
    Except ShapeError Domain := do
  let scope := Scope.ofDefinition (g.func f) d region
  if !scope.isReachable then return extra
  let written ← g.request f (.func f) (d.lhs.map (·.span scope))
  (d.value.accesses scope).foldlM (fun extra access => do
    if access.read.target = .func f then
      return extra.union (← g.request f (.func f) access.spans)
    else return extra) (extra.union written)

/-- A wanted region of `f` together with the positions that the updates of `f` write and read. -/
def grownRegion (g : Graph κ) (f : FuncId) (region : Domain) : Except ShapeError Domain :=
  if region.isEmpty then return region
  else do
    let extra ← (g.func f).updates.foldlM (g.growByUpdate f region) (.empty (g.func f).dims)
    return region.union extra

/-- Adds what a definition of `f` reads of other funcs. -/
def requestReads (g : Graph κ) (f : FuncId) (region : Domain) (regions : Regions) (d : Definition κ) :
    Except ShapeError Regions :=
  let scope := Scope.ofDefinition (g.func f) d region
  if !scope.isReachable then return regions
  else
    (d.exprs.flatMap (·.accesses scope)).foldlM (fun regions access =>
      match access.read.target with
      | .func h =>
        if h = f then return regions
        else do
          let wanted ← g.request f (.func h) access.spans
          return regions.insert h (((regions.get? h).map (·.union wanted)).getD wanted)
      | _ => return regions) regions

/-- Settles the region of `f` and passes its reads on to the funcs it reads. -/
def inferRegion (g : Graph κ) (regions : Regions) (f : FuncId) : Except ShapeError Regions := do
  let region ← g.grownRegion f (regions.of g f)
  (g.func f).definitions.foldlM (fun regions (_, d) => g.requestReads f region regions d) (regions.insert f region)

/-- The regions of all scheduled funcs when `root` is wanted over `domain`. -/
def inferRegions (g : Graph κ) (s : Schedule) (root : FuncId) (domain : Domain) : Except ShapeError Regions :=
  s.funcs.reverse.foldlM g.inferRegion (Table.empty.insert root domain)

end Graph

end ArrayDiff
