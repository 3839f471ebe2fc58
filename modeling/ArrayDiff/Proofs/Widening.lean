import ArrayDiff.Proofs.Confinement

/-!
# Updates that stay inside their region

The region of a func is widened once, by what its updates write and read of the func over the region that is wanted of
it; the updates then run over the widened region. They stay inside it if widening it once more adds nothing, and if no
position that they write depends on the func (`Job.Inferred.not_overruns`). Where that holds of every func, a
realization fails at a position only because of its data (`Graph.realize_settled`).
-/

open ArrayDiff.Expr

namespace ArrayDiff

variable {K : Type} [Field K] [LinearOrder K] [IsStrictOrderedRing K] [FloorRing K] [Transcendental K]

namespace Graph

section Update

variable {g : Graph (Exact K)} {f : FuncId} {region grown : Domain} {d : Definition (Exact K)} {ρ : Valuation K}
  {env : Env K} {Q : Atom → Prop}

theorem Widened.mem_of_written (widened : g.Widened f region d grown)
    (binds : (Scope.ofDefinition (g.func f) d region).Binds env) (plain : ∀ e ∈ d.lhs, e.Plain ρ env Q)
    (regular : ∀ e ∈ d.lhs, e.Regular ρ env) : position ρ env d.lhs ∈ grown.points := by
  obtain ⟨wanted, request, inside⟩ := widened.written binds.isReachable
  refine inside _ (mem_of_request request ?_)
  rw [List.forall₂_map_left_iff, List.forall₂_same]
  exact fun e mem => holds_span binds (plain e mem) (regular e mem)

theorem Widened.mem_of_reread (widened : g.Widened f region d grown)
    (binds : (Scope.ofDefinition (g.func f) d region).Binds env) (plain : d.value.Plain ρ env Q) {x : Expr (Exact K)}
    {r : Read (Exact K)} (visit : Visits ρ env d.value x) (read : x.read? = some r) (target : r.target = .func f)
    (regular : ∀ a ∈ r.args, a.Regular ρ env) : position ρ env r.args ∈ grown.points := by
  obtain ⟨access, listed, same, held⟩ := covers_of_visits binds plain regular visit read
  have self : access.read.target = .func f := by rw [same, target]
  obtain ⟨wanted, request, inside⟩ := widened.reread binds.isReachable listed self
  exact inside _ (mem_of_request request held)

end Update

/-- Widening the region of `f` adds nothing to it, and the positions that updates of `f` write do not depend on `f`. -/
structure Settled (g : Graph (Exact K)) (f : FuncId) (region : Domain) : Prop where
  widened : g.grownRegion f region = .ok region
  apart {d : Definition (Exact K)} {e : Expr (Exact K)} {r : Read (Exact K)} :
    d ∈ (g.func f).updates → e ∈ d.lhs → r ∈ e.reads → r.target ≠ .func f

end Graph

namespace Job

variable {j : Job (Exact K) K} {o : Results K} {s : Schedule} {f : FuncId} {q : List Int}

/-- A position that an update of `f` writes takes a logarithm of a number that is not positive, or a root of a negative
one. -/
def Erratic (j : Job (Exact K) K) (o : Results K) (f : FuncId) : Prop :=
  ∃ d reader env, j.Evaluates o f d reader env ∧ ∃ e ∈ d.lhs, ¬e.Regular reader.valuation env

/-- Over what was wanted of a func, its updates stay inside the region. -/
theorem Inferred.stays_inside (inferred : j.Inferred s) (mem : f ∈ s.funcs) {region grown : Domain}
    (run : j.graph.grownRegion f region = .ok grown) (dims : region.dims = (j.graph.func f).dims)
    {d : Definition (Exact K)} (update : d ∈ (j.graph.func f).updates) {p r : List Int} (inside : p ∈ region.points)
    (inner : r ∈ pointsOf d.rdom) (ρ : Valuation K) :
    ((∀ e ∈ d.lhs, e.Regular ρ ((j.graph.func f).env d p r)) →
      position ρ ((j.graph.func f).env d p r) d.lhs ∈ grown.points) ∧
    ∀ args, Visits ρ ((j.graph.func f).env d p r) d.value (.call f args) →
      (∀ a ∈ args, a.Regular ρ ((j.graph.func f).env d p r)) →
      position ρ ((j.graph.func f).env d p r) args ∈ grown.points := by
  obtain ⟨i, listed⟩ := Func.mem_definitions_update update
  have fits := inferred.distinct.fits f mem
  have binds : (Scope.ofDefinition (j.graph.func f) d region).Binds ((j.graph.func f).env d p r : Env K) :=
    Scope.binds_env fits.1 (inferred.distinct.reduction mem listed) inside inner
  have plain {e : Expr (Exact K)} (own : e ∈ d.exprs) : e.Plain ρ ((j.graph.func f).env d p r) fun _ => True :=
    plain_of_constants fun _ node => inferred.distinct.constants mem listed own node
  obtain ⟨-, -, widened⟩ := Graph.widened_of_grownRegion (fun _ _ listed => (fits.2 _ listed).2)
    (fun _ update => (inferred.proper.update update).length) dims run
  have widened := widened (Domain.not_isEmpty_of_mem inside) d update
  exact ⟨fun regular => widened.mem_of_written binds (fun e own => plain (List.mem_append_left _ own)) regular,
    fun args visit regular => widened.mem_of_reread binds
      (plain (List.mem_append_right _ (List.mem_singleton_self _))) visit rfl rfl regular⟩

/-- An update leaves a settled region only by way of a number that is none. -/
theorem Inferred.not_overruns (inferred : j.Inferred s) (mem : f ∈ s.funcs)
    (settled : j.graph.Settled f (j.regions.of j.graph f)) (irregular : ¬j.Irregular o f) (erratic : ¬j.Erratic o f) :
    ¬j.Overruns o f q := by
  rintro ⟨off, d, update, t, stored, p, inside, r, inner, place⟩
  have evaluates : j.Evaluates o f d (j.during o f t) ((j.graph.func f).env d p r) := .update update stored inside inner
  obtain ⟨written, reread⟩ := inferred.stays_inside mem settled.widened (inferred.shaped.dims_of f) update inside inner
    (j.during o f t).valuation
  rcases place with rfl | ⟨e, own, x, read, visit, is, target, rfl⟩
  · refine off (written fun e own => ?_)
    by_contra wild
    exact erratic ⟨d, _, _, evaluates, e, own, wild⟩
  rcases List.mem_append.mp own with position | value
  · exact settled.apart update position (List.mem_filterMap.mpr ⟨x, visit.mem_nodes, is⟩) target
  obtain rfl := List.mem_singleton.mp value
  obtain rfl := eq_call_of_read? is target
  refine off (reread _ visit fun a listed => ?_)
  by_contra wild
  exact irregular ⟨d, _, _, evaluates, d.value, own, fun regular => wild (regular _ _ visit is a listed)⟩

end Job

namespace Graph

variable {g : Graph (Exact K)} {s : Schedule} {root : FuncId} {domain : Domain} {regions : Regions}

/-- Where widening a region once more adds nothing, and where no update looks up in its func where to write, a
realization that fails at a position was asked for data that is not there, or a position was computed from a
logarithm or a root that has no value. -/
theorem realize_settled (proper : g.Proper) (distinct : g.Distinct s) (dims : domain.dims = (g.func root).dims)
    (order : g.schedule root = .ok s) (inferred : g.inferRegions s root domain = .ok regions)
    (settled : ∀ f ∈ s.funcs, g.Settled f (regions.of g f)) {b : Bindings K} {name : Name} {index : List Int}
    (run : g.realize root domain b = .error (.outOfBounds name index)) :
    (∃ i ∈ s.buffers, (g.buffer i).name = name ∧ b.load? g i index = none) ∨
    ∃ f ∈ s.funcs, (⟨g, b, regions⟩ : Job (Exact K) K).Irregular
        ((⟨g, b, regions⟩ : Job (Exact K) K).results s.funcs.idxOf) f ∨
      (⟨g, b, regions⟩ : Job (Exact K) K).Erratic
        ((⟨g, b, regions⟩ : Job (Exact K) K).results s.funcs.idxOf) f := by
  obtain ⟨job, -⟩ := inferred_of_inferRegions proper distinct dims (ordered_schedule order).1 inferred b
  by_contra none
  rw [not_or] at none
  have regular {f : FuncId} (mem : f ∈ s.funcs) := fun wild => none.2 ⟨f, mem, wild⟩
  cases blames_of_realize proper distinct dims order inferred run with
  | data mem same off => exact none.1 ⟨_, mem, same, off⟩
  | own mem same overruns =>
    exact job.not_overruns mem (settled _ mem) (fun wild => regular mem (Or.inl wild))
      (fun wild => regular mem (Or.inr wild)) overruns
  | strays mem wild => exact regular mem (Or.inl wild.irregular)

end Graph

/-- What a fold along a reduction domain writes and reads is wanted anyway, while a pointwise update that reads to its
left widens every region further. -/
example : (tallying.grownRegion ⟨1⟩ ⟨[⟨0, 2⟩]⟩).toOption = some ⟨[⟨0, 2⟩]⟩ ∧
    (sliding.grownRegion ⟨0⟩ ⟨[⟨0, 1⟩]⟩).toOption = some ⟨[⟨-1, 1⟩]⟩ ∧
    (sliding.grownRegion ⟨0⟩ ⟨[⟨-1, 1⟩]⟩).toOption = some ⟨[⟨-2, 1⟩]⟩ := by decide +kernel

end ArrayDiff
