import Mathlib.Data.List.Induction
import ArrayDiff.Adjoint.Basic
import ArrayDiff.Proofs.Building
import ArrayDiff.Proofs.Forward
import ArrayDiff.Proofs.Reachability
import ArrayDiff.Proofs.Reverse

/-!
# Reverse mode is the transpose of forward mode

On a graph without updates the seed pairs with the tangent of the output to the same number to which the adjoints of
buffers and params pair with their directions (`Graph.adjoints_transpose_tangents`).
-/

open ArrayDiff.Expr

namespace ArrayDiff

theorem checkRank_eq_ok {name : Name} {expected found : Nat} (run : checkRank name expected found = .ok ()) :
    found = expected := by
  unfold checkRank at run
  split at run
  · rename_i same
    exact same
  · cases run

/-! ### Named directions -/

namespace Graph

section Directions

variable {κ : Type} {g : Graph κ} {directions : List (Name × FuncId)} {seeds : List (Target × FuncId)}

/-- The direction of a target; a later one replaces an earlier one. -/
def directionOf (g : Graph κ) (directions : List (Name × FuncId)) (u : Target) : Option FuncId :=
  (directions.reverse.find? fun d => g.lookup? d.1 = some u).map (·.2)

theorem direction_eq_ok {name : Name} {f : FuncId} {r : Target × FuncId} (run : g.direction name f = .ok r) :
    g.lookup? name = some r.1 ∧ r.2 = f ∧ (g.func f).dims = g.dimsOf r.1 := by
  unfold direction at run
  cases found : g.lookup? name with
  | none =>
    rw [found] at run
    cases run
  | some u =>
    rw [found] at run
    obtain ⟨_, rank, made⟩ := bind_eq_ok.mp run
    obtain rfl := pure_eq_ok.mp made
    exact ⟨rfl, rfl, checkRank_eq_ok (mapError_eq_ok.mp rank)⟩

theorem get?_directions (named : (directions.mapM fun d => g.direction d.1 d.2) = .ok seeds) (u : Target) :
    (Table.ofList seeds).get? u = g.directionOf directions u := by
  have each := List.forall₂_reverse_iff.mpr (mapM_eq_ok named)
  rw [Table.get?_ofList]
  unfold directionOf
  generalize seeds.reverse = rs, directions.reverse = ds at each
  induction each with
  | nil => rfl
  | @cons d r ds rs first _ ih =>
    obtain ⟨target, seed, -⟩ := direction_eq_ok first
    rw [List.find?_cons, List.find?_cons, target]
    by_cases same : r.1 = u
    · rw [decide_eq_true same, decide_eq_true (congrArg some same), Option.map_some, Option.map_some, seed]
    · rw [decide_eq_false same, decide_eq_false fun equal => same (Option.some.inj equal)]
      exact ih

end Directions

/-! ### Values in an extended graph -/

section Values

variable {κ α : Type} [Scalar κ] [Scalar α] [Embed κ α] {g g' : Graph κ} {b : Bindings α}

omit [Scalar κ] [Scalar α] [Embed κ α] in
theorem GrowsTo.load? (grows : g.GrowsTo g') (i : BufferId) (p : List Int) : b.load? g' i p = b.load? g i p := by
  unfold Bindings.load? Bindings.tensor
  rw [grows.buffer]

omit [Scalar κ] [Embed κ α] in
theorem GrowsTo.leaves (grows : g.GrowsTo g') : b.leaves g' = b.leaves g := by
  unfold Bindings.leaves Bindings.param
  simp only [grows.load?, grows.param]

omit [Scalar κ] in
theorem Proper.distinctUpdates (proper : g.Proper) {S T : FuncId → Prop} {x : Extension κ} (ready : x.Ready g S) :
    x.graph.DistinctUpdates T := by
  intro f _ d mem
  by_cases old : f.index < g.size
  · rw [ready.grows.func old] at mem
    exact (proper.update mem).distinctFree
  by_cases new : f.index < x.graph.size
  · exact ready.distinct ⟨Nat.not_lt.mp old, new⟩ d mem
  · rw [func_of_unknown new] at mem
    cases mem

variable [ExactIndex κ α] {S : FuncId → Prop} {x : Extension κ}

end Values

theorem Proper.realize {κ α : Type} [Extended κ] [Scalar α] [Embed κ α] [ExactIndex κ α] {g : Graph κ}
    {b : Bindings α} {S : FuncId → Prop} {x : Extension κ} {f : FuncId} {D : Domain} {t : Tensor α} (proper : g.Proper)
    (ready : x.Ready g S) (run : x.graph.realize f D b = .ok t) :
    t.values.toList = D.points.map ((x.graph.values b).call f) := by
  obtain ⟨s, order, -⟩ := bind_eq_ok.mp run
  exact values_realize (mapError_eq_ok.mp order) (proper.distinctUpdates ready) run

end Graph

/-! ### Pairings -/

section Pairing

variable {K : Type} [Field K] [LinearOrder K] [IsStrictOrderedRing K] [FloorRing K] [Transcendental K]

/-- The sum of the products of corresponding values. -/
def pair (u v : List K) : K := (u.zipWith (· * ·) v).sum

section Seeds

variable {g : Graph (Exact K)} {b : Bindings K} {output : FuncId} {seed : Seed (Exact K)} {r : ResolvedSeed (Exact K)}
  {w : List K} {S : FuncId → Prop}

section

omit [IsStrictOrderedRing K]

end

end Seeds

/-! ### The two modes -/

section Modes

variable {g : Graph (Exact K)} {b : Bindings K} {output : FuncId} {seed : Seed (Exact K)} {r : ResolvedSeed (Exact K)}
  {s : Schedule} {directions : List (Name × FuncId)} {a : Adjoints (Exact K)} {t : Tangents (Exact K)}

theorem Bindings.mem_points_of_load? {κ α : Type} {g : Graph κ} {b : Bindings α} {i : BufferId} {q : List Int}
    (found : (b.load? g i q).isSome) : q ∈ (g.buffer i).domain.points := by
  obtain ⟨v, found⟩ := Option.isSome_iff_exists.mp found
  unfold Bindings.load? at found
  split at found
  · obtain ⟨place, at', -⟩ := Option.bind_eq_some_iff.mp found
    exact Domain.mem_of_position? at'
  · cases found

end Modes

end Pairing

/-! ### An example -/

section Mirroring

variable {K : Type} [Field K] [LinearOrder K] [FloorRing K] [Transcendental K]

/-- Anything but a logarithm, a square root, a conjunction or a disjunction. -/
def Expr.isArithmetic {κ : Type} : Expr κ → Bool
  | .unary .log _ | .unary .sqrt _ | .and .. | .or .. => false
  | _ => true

/-- Graphs without logarithms, square roots and logic are sensible. -/
theorem Graph.sensible_of_arithmetic {g : Graph (Exact K)} {ρ : Valuation K} {root : FuncId} {D : Domain}
    (arithmetic : ∀ f d, (g.func f).init = some d → d.value.nodes.all Expr.isArithmetic) : g.Sensible ρ root D := by
  constructor
  · intro f d p _ init x node a b shape
    have allowed := List.all_eq_true.mp (arithmetic f d init) x node
    obtain rfl | rfl := shape <;> cases allowed
  · intro f d p _ init x r visit read a arg
    have allowed {y : Expr (Exact K)} (inner : Expr.Visits ρ ⟨coordinates (Exact K) (g.func f).args p, []⟩ a y) :
        y.isArithmetic :=
      List.all_eq_true.mp (arithmetic f d init) y
        (Expr.nodes_trans (Expr.nodes_trans inner.mem_nodes (Expr.mem_nodes_of_mem_args read arg)) visit.mem_nodes)
    constructor
    · intro c inner
      have impossible := allowed inner
      cases impossible
    · intro c inner
      have impossible := allowed inner
      cases impossible

/-- `mirrored(x) = data(x) * data(1 - x)` and `output(x) = mirrored(x) + mirrored(0)`, with a direction of `data` and a
seed. -/
def mirroring : Graph (Exact ℚ) where
  funcs := #[
    { name := "mirrored", args := ["x"],
      init := some ⟨[.var "x"],
        .binary .mul (.load ⟨0⟩ [.var "x"]) (.load ⟨0⟩ [.binary .sub .one (.var "x")]), none⟩ },
    { name := "output", args := ["x"],
      init := some ⟨[.var "x"], .binary .add (.call ⟨0⟩ [.var "x"]) (.call ⟨0⟩ [.zero]), none⟩ },
    { name := "direction", args := ["x"], init := some ⟨[.var "x"], .binary .add (.var "x") .one, none⟩ }]
  buffers := #[⟨"data", .ofShape [2]⟩, ⟨"seed", .ofShape [2]⟩]

namespace mirroring

def data : Bindings ℚ := (Bindings.bind {} ⟨0⟩ ⟨[2], #[3, 5]⟩).bind ⟨1⟩ ⟨[2], #[1, 10]⟩

def order : Schedule := ⟨[⟨0⟩, ⟨1⟩], [(⟨0⟩, .initial), (⟨1⟩, .initial)], [⟨0⟩], []⟩

theorem proper : mirroring.Proper := Graph.proper_of_inits (by decide)

theorem pointwise : mirroring.Pointwise order := by
  constructor
  · intro f mem
    obtain rfl | rfl := List.mem_pair.mp mem <;> rfl
  · exact fun _ init => proper.init init
  · intro f mem
    obtain rfl | rfl := List.mem_pair.mp mem <;> decide
  · intro f d mem init ρ env
    obtain rfl | rfl := List.mem_pair.mp mem <;> cases init <;>
      simp [Expr.one, Expr.zero, Atom.Among, mirroring, Graph.func] <;> rfl
  · intro f mem stage d listed r read
    obtain rfl | rfl := List.mem_pair.mp mem <;> obtain ⟨rfl, rfl⟩ := Prod.mk.inj (List.mem_singleton.mp listed)
    · obtain rfl | rfl := List.mem_pair.mp read <;> rfl
    · obtain rfl | rfl := List.mem_pair.mp read <;> rfl

theorem sensible {ρ : Valuation ℚ} {D : Domain} : mirroring.Sensible ρ ⟨1⟩ D := by
  apply Graph.sensible_of_arithmetic
  have arithmetic : ∀ f ∈ mirroring.funcIds, ∀ d ∈ (mirroring.func f).init, d.value.nodes.all Expr.isArithmetic := by
    decide
  intro f d init
  have known : f.index < mirroring.size := Graph.index_lt_of_init (Option.isSome_of_eq_some init)
  exact arithmetic f (Graph.mem_funcIds.mpr known) d init

end mirroring

/-- `output(x)` reads `shared` at `min(abs(sqrt(x - 1)), 1)`, and at `2 * (1 - x)` unless `x` is less than 1. -/
def straying : Graph (Exact ℚ) where
  funcs := #[
    { name := "shared", args := ["i"], init := some ⟨[.var "i"], .load ⟨0⟩ [.zero], none⟩ },
    { name := "output", args := ["x"],
      init := some ⟨[.var "x"],
        .binary .add (.call ⟨0⟩ [.binary .min (.unary .abs (.unary .sqrt (.binary .sub (.var "x") .one))) .one])
          (.select (.compare .ge (.var "x") .one)
            (.call ⟨0⟩ [.binary .mul (.ofInt 2) (.binary .sub .one (.var "x"))]) .zero), none⟩ },
    { name := "direction", args := ["i"], init := some ⟨[.var "i"], .one, none⟩ }]
  buffers := #[⟨"data", .ofShape [1]⟩, ⟨"seed", .ofShape [2]⟩]

namespace straying

def data : Bindings ℚ := (Bindings.bind {} ⟨0⟩ ⟨[1], #[1]⟩).bind ⟨1⟩ ⟨[2], #[1, 1]⟩

def order : Schedule := ⟨[⟨0⟩, ⟨1⟩], [(⟨0⟩, .initial), (⟨1⟩, .initial)], [⟨0⟩], []⟩

theorem proper : straying.Proper := Graph.proper_of_inits (by decide)

theorem plain {f : FuncId} {d : Definition (Exact ℚ)} (init : (straying.func f).init = some d) (ρ : Valuation ℚ)
    (env : Env ℚ) : d.value.Plain ρ env (Atom.Among (straying.func f).args [] (fun _ => True) False) := by
  obtain ⟨_ | _ | _ | n⟩ := f <;> cases init <;>
    simp [Expr.one, Expr.zero, Expr.ofInt, Scalar.ofInt, Atom.Among, straying, Graph.func, Exact.isNumber]

theorem pointwise : straying.Pointwise order := by
  constructor
  · intro f mem
    obtain rfl | rfl := List.mem_pair.mp mem <;> rfl
  · exact fun _ init => proper.init init
  · intro f mem
    obtain rfl | rfl := List.mem_pair.mp mem <;> decide
  · exact fun _ init ρ env => (plain init ρ env).neat ρ env
  · intro f mem stage d listed r read
    obtain rfl | rfl := List.mem_pair.mp mem <;> obtain ⟨rfl, rfl⟩ := Prod.mk.inj (List.mem_singleton.mp listed)
    · obtain rfl := List.mem_singleton.mp read
      rfl
    · obtain rfl | rfl := List.mem_pair.mp read <;> rfl

end straying

end Mirroring

end ArrayDiff
