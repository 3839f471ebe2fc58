import ArrayDiff.Graph.Printer

/-!
# Outlines

The definitions of a func and of everything it calls, as text. The walk is depth first, ends on cyclic graphs, and shows
every func once.
-/

namespace ArrayDiff

/-- What is left out of an outline, and how far it goes. -/
structure OutlineOptions (κ : Type) where
  /-- Leave out the definitions of funcs that differentiation did not make. -/
  derivativesOnly : Bool := false
  /-- Show bounded adjoints without the guard around them. -/
  hideBounds : Bool := false
  /-- How many levels of calls to follow; without a number all of them. -/
  depth : Option Nat := none
  /-- Pure variables that are shown as expressions. -/
  shown : Name → Option (Expr κ) := fun _ => none

variable {κ : Type} [Literal κ] [Scalar κ]

/-- The value of a bounded adjoint without its guard. -/
def Func.withoutBounds (f : Func κ) (value : Expr κ) : Expr κ :=
  match f.origin, value with
  | .adjoint _ _ true, .select _ body otherwise => if otherwise.isZero then body else value
  | _, _ => value

/-- The lines of one func. -/
def OutlineOptions.funcText (o : OutlineOptions κ) (g : Graph κ) (f : Func κ) : String :=
  if o.derivativesOnly && !f.origin.isDerivative then ""
  else
    String.join (f.definitions.map fun (stage, d) =>
      let value := if o.hideBounds && stage = .initial then f.withoutBounds d.value else d.value
      ({ d with value }.map (·.substitute o.shown)).text g.nameOf f.name)

/-- A func that is seen for the first time leaves fewer unseen ones. -/
theorem length_unseen_lt (ids seen : List FuncId) (f : FuncId) (hf : f ∈ ids) (hs : f ∉ seen) :
    (ids.filter (· ∉ f :: seen)).length < (ids.filter (· ∉ seen)).length := by
  have split : ids.filter (· ∉ f :: seen) = (ids.filter (· ∉ seen)).filter (· ≠ f) := by
    simp [List.filter_filter]
  rw [split, List.length_filter_lt_length_iff_exists]
  exact ⟨f, by simp [hf, hs], by simp⟩

/-- The funcs that an outline visits, depth first: `pending` holds what is still to be looked at, each with its level of
calls. A func is visited once, at the level at which it is met first. -/
def Graph.visitOrder (g : Graph κ) (depth : Option Nat) (seen : List FuncId) (pending : List (FuncId × Nat)) :
    List FuncId :=
  match pending with
  | [] => []
  | (f, level) :: rest =>
    if f ∈ seen then g.visitOrder depth seen rest
    else if _ : f.index < g.size then
      let next :=
        if depth.any (· ≤ level) then [] else ((g.func f).callees f).map fun c => (c, level + 1)
      f :: g.visitOrder depth (f :: seen) (next ++ rest)
    else g.visitOrder depth seen rest
termination_by ((g.funcIds.filter (· ∉ seen)).length, pending.length)
decreasing_by
  · exact Prod.Lex.right _ (by simp)
  · exact Prod.Lex.left _ _ (length_unseen_lt _ _ _ (Graph.mem_funcIds.mpr ‹_›) ‹_›)
  · exact Prod.Lex.right _ (by simp)

/-- A func and everything it calls, callers first. -/
def Graph.outline (g : Graph κ) (f : FuncId) (o : OutlineOptions κ) : String :=
  String.join ((g.visitOrder o.depth [] [(f, 0)]).map fun f => o.funcText g (g.func f))

end ArrayDiff
