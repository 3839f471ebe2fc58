import ArrayDiff.Graph.Basic
import ArrayDiff.Proofs.Agreement

/-!
# Updates over dual numbers

A dual number is a value together with its change. `Definition.dualStep` runs one iteration of an update over them;
what an iteration stores depends only on what its func holds at the positions where it reads itself (`dual_congr`).
-/

open ArrayDiff.Expr

namespace ArrayDiff

variable {K : Type} [Field K] [LinearOrder K] [FloorRing K] [Transcendental K]

/-- Changes of all targets, those of `f` given by `F`. -/
def moving (f : FuncId) (τ : Target → List Int → K) (F : List Int → K) : Target → List Int → K :=
  fun u => if u = .func f then F else τ u

omit [Field K] [LinearOrder K] [FloorRing K] [Transcendental K] in
@[simp] theorem moving_self (f : FuncId) (τ : Target → List Int → K) (F : List Int → K) : moving f τ F (.func f) = F :=
  if_pos rfl

omit [Field K] [LinearOrder K] [FloorRing K] [Transcendental K] in
theorem moving_of_ne {f : FuncId} {u : Target} (other : u ≠ .func f) (τ : Target → List Int → K) (F : List Int → K) :
    moving f τ F u = τ u := if_neg other

namespace Definition

variable (d : Definition (Exact K)) (f : FuncId) (ρ : Valuation K) (τ : Target → List Int → K)

/-- The new value and its change, for a func `f` that holds `S`. -/
def dual (S : List Int → K × K) (env : Env K) : K × K :=
  (d.value.value (ρ.set f fun q => (S q).1) env,
    d.value.derivative (ρ.set f fun q => (S q).1) env (moving f τ fun q => (S q).2))

/-- One iteration of an update of `f`. Reads of `f` are answered from what the update has stored so far, or from what
there was before it if it has no reduction domain. -/
def dualStep (start S : List Int → K × K) (env : Env K) : List Int → K × K :=
  let seen := if d.rdom.isSome then S else start
  Function.update S (position (ρ.set f fun q => (seen q).1) env d.lhs) (d.dual f ρ τ seen env)

variable {d f ρ τ}

theorem dual_congr {S S' : List Int → K × K} {env : Env K} (same : ∀ r ∈ d.value.reads, r.target = .func f →
    S (position (ρ.set f fun q => (S q).1) env r.args) = S' (position (ρ.set f fun q => (S q).1) env r.args)) :
    d.dual f ρ τ S env = d.dual f ρ τ S' env := by
  have values : ∀ a ∈ d.value.nodes,
      a.value (ρ.set f fun q => (S q).1) env = a.value (ρ.set f fun q => (S' q).1) env :=
    values_set fun args node => congrArg Prod.fst (same ⟨.func f, args⟩ (List.mem_filterMap.mpr ⟨_, node, rfl⟩) rfl)
  refine Prod.ext (values d.value (mem_nodes_self _)) (derivative_congr values fun r mem => ?_)
  by_cases own : r.target = .func f
  · rw [own, moving_self, moving_self]
    exact congrArg Prod.snd (same r mem own)
  · rw [moving_of_ne own, moving_of_ne own]

end Definition

end ArrayDiff
