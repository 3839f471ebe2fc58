import Mathlib.Algebra.BigOperators.Ring.List
import ArrayDiff.Proofs.Agreement
import ArrayDiff.Proofs.Demand
import ArrayDiff.Proofs.Settlement

/-!
# The reverse walk over a graph without updates

Consumers come first. What has been collected for the targets that are still to come, paired with their tangents, stays
the same when a func is settled and sends its adjoint on to what it reads (`Walked.process`).
-/

open ArrayDiff.Expr

namespace ArrayDiff

variable {K : Type} [Field K] [LinearOrder K] [FloorRing K] [Transcendental K]

/-- A graph without updates whose output is wanted over `D`, values for it, and tangents: those of funcs follow from
those of what they read. -/
structure Setting (g : Graph (Exact K)) (s : Schedule) (regions : Regions) (root : FuncId) (D : Domain)
    (S : FuncId → Prop) (base : Valuation K) (τ : Target → List Int → K) : Prop where
  order : g.schedule root = .ok s
  pointwise : g.Pointwise s
  sensible : g.Sensible base root D
  dims : D.dims = (g.func root).dims
  inferred : g.inferRegions s root D = .ok regions
  loads {i : BufferId} {q : List Int} : g.Demanded base root D (.buffer i) q → q ∈ (g.buffer i).domain.points
  below {f : FuncId} : S f → f.index < g.size
  scheduled {f : FuncId} : f ∈ s.funcs → S f
  moves {f : FuncId} {d : Definition (Exact K)} {p : List Int} : g.Demanded base root D (.func f) p →
    (g.func f).init = some d →
    τ (.func f) p = d.value.derivative base ⟨coordinates (Exact K) (g.func f).args p, []⟩ τ

omit [Field K] [LinearOrder K] [FloorRing K] [Transcendental K] in
theorem Sweep.regionOf_func {x : Sweep (Exact K)} {g : Graph (Exact K)} {regions : Regions} (source : x.source = g)
    (same : x.regions = regions) (f : FuncId) : x.regionOf (.func f) = regions.of g f := by
  unfold regionOf
  rw [source, same]

namespace Setting

variable {g : Graph (Exact K)} {s : Schedule} {regions : Regions} {root : FuncId} {D : Domain} {S : FuncId → Prop}
  {base : Valuation K} {τ : Target → List Int → K} {f adj : FuncId} {d : Definition (Exact K)} {ρ : Valuation K}
  {T : Target → Prop} {p : List Int}

theorem ordered (h : Setting g s regions root D S base τ) : s.Ordered g :=
  (Graph.ordered_schedule h.order).1

theorem shaped (h : Setting g s regions root D S base τ) : regions.Shaped g := by
  have writes : ∀ f ∈ s.funcs, g.WritesFit f := by
    intro f mem d listed
    rw [h.pointwise.updates mem] at listed
    cases listed
  exact (Graph.requested_of_inferRegions h.ordered h.dims (fun f mem => h.pointwise.fit mem) writes h.inferred).1

theorem based (h : Setting g s regions root D S base τ) {t : Target} (listed : s.Lists t) : Based S t :=
  listed.based fun _ => h.scheduled

theorem nodup_argsOf (h : Setting g s regions root D S base τ) {t : Target} (listed : s.Lists t) :
    (g.argsOf t).Nodup := by
  cases t with
  | func f => exact h.pointwise.distinct listed
  | buffer b => exact g.nodup_argsOf_buffer b
  | param _ => exact List.nodup_nil

theorem keyOf_func (h : Setting g s regions root D S base τ) (mem : f ∈ s.funcs) :
    g.keyOf (.func f) = ⟨.func f, .initial⟩ := by
  change (⟨.func f, .last (g.func f).updates.length⟩ : Key) = _
  rw [h.pointwise.updates mem]
  rfl

variable [IsStrictOrderedRing K] in
theorem mem_regionOf (h : Setting g s regions root D S base τ) {x : Sweep (Exact K)} (source : x.source = g)
    (same : x.regions = regions) {t : Target} {q : List Int} (demanded : g.Demanded base root D t q) :
    q ∈ (x.regionOf t).points := by
  unfold Sweep.regionOf
  rw [source, same]
  cases t with
  | func f => exact Graph.mem_region_of_demanded h.order h.pointwise h.sensible h.dims h.inferred demanded
  | buffer i => exact h.loads demanded
  | param i =>
    have length : q.length = 0 := demanded.length h.order h.pointwise h.dims
    rw [List.length_eq_zero_iff.mp length]
    exact List.mem_singleton.mpr rfl

theorem dims_regionOf (h : Setting g s regions root D S base τ) {x : Sweep (Exact K)} (source : x.source = g)
    (same : x.regions = regions) (t : Target) : (x.regionOf t).dims = (x.source.argsOf t).length := by
  refine Sweep.dims_regionOf ?_ t
  rw [source, same]
  exact h.shaped

theorem known (h : Setting g s regions root D S base τ) {x : Extension (Exact K)} :
    ∀ t, s.Lists t → x.Known g S t := by
  intro t inside
  cases t with
  | func k => exact Or.inl (h.scheduled inside)
  | buffer _ | param _ => trivial

theorem length_of_mem_points (h : Setting g s regions root D S base τ) (mem : p ∈ (regions.of g f).points) :
    p.length = (g.func f).args.length :=
  (Domain.length_of_mem_points mem).trans (h.shaped.dims_of f)

theorem iterations (h : Setting g s regions root D S base τ) (mem : f ∈ s.funcs) (init : (g.func f).init = some d) :
    (d.iterations (regions.of g f) : List (Env K)) =
      (regions.of g f).points.map fun p => ⟨coordinates (Exact K) (g.func f).args p, []⟩ :=
  iterations_args (h.pointwise.init mem init).1 (h.pointwise.init mem init).2 (h.shaped.dims_of f)

variable [IsStrictOrderedRing K] in
theorem value_call_lhs (h : Setting g s regions root D S base τ) (mem : f ∈ s.funcs)
    (init : (g.func f).init = some d) (length : p.length = (g.func f).args.length) :
    (Expr.call adj d.lhs).value ρ ⟨coordinates (Exact K) (g.func f).args p, []⟩ = ρ.call adj p := by
  rw [value_call, (h.pointwise.init mem init).1]
  exact congrArg (ρ.call adj) (position_args (h.pointwise.distinct mem) length [])

theorem pureVars_eq (h : Setting g s regions root D S base τ) (mem : f ∈ s.funcs) (init : (g.func f).init = some d) :
    d.pureVars = (g.func f).args := by
  unfold Definition.pureVars
  rw [(h.pointwise.init mem init).1]
  unfold Func.argExprs
  rw [List.filterMap_map]
  exact List.filterMap_some

theorem namesOf_eq (h : Setting g s regions root D S base τ) (mem : f ∈ s.funcs) (init : (g.func f).init = some d) :
    namesOf d.rdom = [] := by
  rw [(h.pointwise.init mem init).2]
  rfl

/-- What a definition sends along one of its reads. -/
def sent (d : Definition (Exact K)) (f adj : FuncId) (pr : Partial (Exact K)) : Expr (Exact K) :=
  Smart.mul (pr.slope.redirect f f) (.call adj d.lhs)

theorem neat_slope (h : Setting g s regions root D S base τ) (mem : f ∈ s.funcs) (init : (g.func f).init = some d)
    {pr : Partial (Exact K)} (listed : pr ∈ d.value.partials) :
    (pr.slope.redirect f f).Neat (g.func f).args [] s.Lists := by
  rw [redirect_self]
  exact (h.pointwise.neat_lists h.ordered mem init).partials pr listed

theorem neat_lhs (h : Setting g s regions root D S base τ) (mem : f ∈ s.funcs) (init : (g.func f).init = some d) :
    ∀ e ∈ d.lhs, e.Neat (g.func f).args [] T := by
  rw [(h.pointwise.init mem init).1]
  exact neat_argExprs

theorem outlined (h : Setting g s regions root D S base τ) (mem : f ∈ s.funcs) (init : (g.func f).init = some d)
    (known : ∀ t, s.Lists t → T t) (made : T (.func adj)) {pr : Partial (Exact K)} (listed : pr ∈ d.value.partials) :
    Outlined (g.func f) (regions.of g f) d T (g.argsOf pr.read.target) pr.read.args (sent d f adj pr) := by
  have read := read_mem_of_mem_partials listed
  have neat := h.pointwise.neat_lists h.ordered mem init
  have target : s.Lists pr.read.target := neat.target_of_read read
  refine ⟨?_, h.pointwise.distinct mem, h.shaped.dims_of f, ?_, ?_, h.nodup_argsOf target, ?_, ?_⟩
  · rw [(h.pointwise.init mem init).1]
    exact List.forall₂_map_right_iff.mpr (List.forall₂_same.mpr fun x _ => Or.inl rfl)
  · rw [h.namesOf_eq mem init]
    exact fun _ => List.not_mem_nil
  · rw [g.length_argsOf]
    exact h.pointwise.fit mem .initial d (Func.mem_definitions_init init) _ (Definition.mem_reads_value read)
  · rw [h.pureVars_eq mem init, h.namesOf_eq mem init]
    exact fun a inside => (neat.of_mem_reads read a inside).mono (fun _ m => m) (fun _ m => m) known
  · rw [h.pureVars_eq mem init, h.namesOf_eq mem init]
    exact ((h.neat_slope mem init listed).mono (fun _ m => m) (fun _ m => m) known).mul
      (Expr.Neat.call made (h.neat_lhs mem init))

theorem strict (h : Setting g s regions root D S base τ) (init : (g.func f).init = some d)
    (demanded : g.Demanded base root D (.func f) p) :
    d.value.Plain base ⟨coordinates (Exact K) (g.func f).args p, []⟩ (Atom.Among (g.func f).args [] s.Lists False) :=
  (h.pointwise.neat_lists h.ordered (demanded.lists h.order) init).strict (h.sensible.logical demanded init)

/-- At a demanded position the slopes pair with the tangents of the reads to the tangent of the func. -/
theorem partials (h : Setting g s regions root D S base τ) (init : (g.func f).init = some d)
    (demanded : g.Demanded base root D (.func f) p) :
    Collected base ⟨coordinates (Exact K) (g.func f).args p, []⟩ τ (Atom.Among (g.func f).args [] s.Lists False)
      (d.value.Performs base ⟨coordinates (Exact K) (g.func f).args p, []⟩) d.value.partials (τ (.func f) p) := by
  rw [h.moves demanded init]
  exact collected_partials τ (fun logic => logic) (h.strict init demanded)

theorem agree_lists (h : Setting g s regions root D S base τ) (agree : ρ.Agree base (Based S)) :
    ρ.Agree base s.Lists := agree.mono fun _ => h.based

variable [IsStrictOrderedRing K] in
theorem value_sent (h : Setting g s regions root D S base τ) (agree : ρ.Agree base (Based S)) (mem : f ∈ s.funcs)
    (init : (g.func f).init = some d) (length : p.length = (g.func f).args.length) {pr : Partial (Exact K)}
    (listed : pr ∈ d.value.partials) : (sent d f adj pr).value ρ ⟨coordinates (Exact K) (g.func f).args p, []⟩ =
      pr.slope.value base ⟨coordinates (Exact K) (g.func f).args p, []⟩ * ρ.call adj p := by
  let T (t : Target) : Prop := s.Lists t ∨ t = .func adj
  have slope := h.neat_slope mem init listed
  have neat : (pr.slope.redirect f f).Neat (g.func f).args [] T :=
    slope.mono (fun _ m => m) (fun _ m => m) fun _ => Or.inl
  have call : (Expr.call adj d.lhs).Neat (g.func f).args [] T := Expr.Neat.call (Or.inr rfl) (h.neat_lhs mem init)
  unfold sent
  rw [neat.value_mul call, h.value_call_lhs mem init length, slope.value_agree (h.agree_lists agree), redirect_self]

theorem position_read (h : Setting g s regions root D S base τ) (agree : ρ.Agree base (Based S)) (mem : f ∈ s.funcs)
    (init : (g.func f).init = some d) {env : Env K} {pr : Partial (Exact K)} (listed : pr ∈ d.value.partials) :
    position ρ env pr.read.args = position base env pr.read.args :=
  position_agree ((h.pointwise.neat_lists h.ordered mem init).of_mem_reads (read_mem_of_mem_partials listed))
    (h.agree_lists agree)

variable [IsStrictOrderedRing K] in
theorem demanded_of_sent (h : Setting g s regions root D S base τ) (agree : ρ.Agree base (Based S)) (mem : f ∈ s.funcs)
    (init : (g.func f).init = some d) (length : p.length = (g.func f).args.length)
    (support : ρ.call adj p ≠ 0 → g.Demanded base root D (.func f) p) {pr : Partial (Exact K)}
    (listed : pr ∈ d.value.partials)
    (nonzero : (sent d f adj pr).value ρ ⟨coordinates (Exact K) (g.func f).args p, []⟩ ≠ 0) :
    g.Demanded base root D pr.read.target
      (position ρ ⟨coordinates (Exact K) (g.func f).args p, []⟩ pr.read.args) := by
  rw [h.value_sent agree mem init length listed] at nonzero
  have demanded := support (right_ne_zero_of_mul nonzero)
  rw [h.position_read agree mem init listed]
  exact demanded.read init ((h.partials init demanded).justified pr listed (left_ne_zero_of_mul nonzero))

variable [IsStrictOrderedRing K] in
theorem carried (h : Setting g s regions root D S base τ) (agree : ρ.Agree base (Based S)) (mem : f ∈ s.funcs)
    (init : (g.func f).init = some d) (known : ∀ t, s.Lists t → T t) (made : T (.func adj))
    (support : ∀ p ∈ (regions.of g f).points, ρ.call adj p ≠ 0 → g.Demanded base root D (.func f) p)
    {pr : Partial (Exact K)} (listed : pr ∈ d.value.partials) :
    Carried ρ (regions.of g f) d T adj pr.read.args (sent d f adj pr) := by
  have bound : Atom.Among (g.func f).args [] T False = d.Bound T := by
    unfold Definition.Bound
    rw [h.pureVars_eq mem init, h.namesOf_eq mem init]
  have lhs {env : Env K} : ∀ e ∈ d.lhs, e.Plain ρ env (d.Bound T) := by
    rw [(h.pointwise.init mem init).1, ← bound]
    intro e inside
    obtain ⟨x, own, rfl⟩ := List.mem_map.mp inside
    exact (plain_var ρ env _ x).mpr own
  have wider : ∀ a, Atom.Among (g.func f).args [] s.Lists False a → d.Bound T a := by
    rw [← bound]
    exact Atom.Among.mono (fun _ m => m) (fun _ m => m) known id
  refine ⟨Multiple.mul _, fun _ => lhs, fun {env} inside alive => ?_⟩
  rw [h.iterations mem init] at inside
  obtain ⟨p, inRegion, rfl⟩ := List.mem_map.mp inside
  rw [h.value_call_lhs mem init (h.length_of_mem_points inRegion)] at alive
  have demanded := support p inRegion alive
  have collected := h.partials init demanded
  have neat := h.pointwise.neat_lists h.ordered mem init
  have agree := (h.agree_lists agree).symm
  constructor
  · have slope : pr.slope.Plain ρ ⟨coordinates (Exact K) (g.func f).args p, []⟩ (d.Bound T) :=
      (plain_congr ((neat.partials pr listed).values_agree agree) (collected.slope pr listed)).mono wider
    have call : (Expr.call adj d.lhs).Plain ρ ⟨coordinates (Exact K) (g.func f).args p, []⟩ (d.Bound T) :=
      (plain_call _ _ _ _ _).mpr ⟨made, lhs⟩
    unfold sent
    rw [redirect_self]
    exact (Smart.represents_mul (Represents.of_plain slope) (Represents.of_plain call)).plain
  · intro a inArgs
    have arg := neat.of_mem_reads (read_mem_of_mem_partials listed) a inArgs
    exact (plain_congr (arg.values_agree agree) (collected.args pr listed a inArgs)).mono wider

end Setting

/-! ### One step of the walk -/

/-- The sweep when the targets of `rest` are still to come: their adjoints are collected where they are demanded, and
pair with the tangents to `total`. -/
structure Walked (g : Graph (Exact K)) (regions : Regions) (root : FuncId) (D : Domain) (S : FuncId → Prop)
    (base : Valuation K) (τ : Target → List Int → K) (total : K) (rest : List Target) (x : Sweep (Exact K)) : Prop where
  source : x.source = g
  regions : x.regions = regions
  ready : x.extension.Ready g S
  tidy : x.Tidy S
  support {ρ : Valuation K} {t : Target} {q : List Int} : x.extension.Settled g ρ → ρ.Agree base (Based S) → t ∈ rest →
    q.length = g.dimsOf t → x.collected ρ (g.keyOf t) q ≠ 0 → g.Demanded base root D t q
  balance {ρ : Valuation K} : x.extension.Settled g ρ → ρ.Agree base (Based S) → x.balance ρ τ rest = total

/-- The sweep when `f` has been settled as `adj` and has not sent anything on: what `adj` and the targets of `rest` have
pairs with their tangents to `total`. -/
structure Served (g : Graph (Exact K)) (regions : Regions) (root : FuncId) (D : Domain) (S : FuncId → Prop)
    (base : Valuation K) (τ : Target → List Int → K) (total : K) (rest : List Target) (f adj : FuncId)
    (x : Sweep (Exact K)) : Prop where
  source : x.source = g
  inferred : x.regions = regions
  ready : x.extension.Ready g S
  tidy : x.Tidy S
  made : x.extension.Known g S (.func adj)
  support {ρ : Valuation K} {t : Target} {q : List Int} : x.extension.Settled g ρ → ρ.Agree base (Based S) → t ∈ rest →
    q.length = g.dimsOf t → x.collected ρ (g.keyOf t) q ≠ 0 → g.Demanded base root D t q
  adjoint {ρ : Valuation K} : x.extension.Settled g ρ → ρ.Agree base (Based S) → ∀ p ∈ (regions.of g f).points,
    ρ.call adj p ≠ 0 → g.Demanded base root D (.func f) p
  balance {ρ : Valuation K} : x.extension.Settled g ρ → ρ.Agree base (Based S) →
    x.balance ρ τ rest + ((regions.of g f).points.map fun p => ρ.call adj p * τ (.func f) p).sum = total

namespace Walked

variable {g : Graph (Exact K)} {s : Schedule} {regions : Regions} {root : FuncId} {D : Domain} {S : FuncId → Prop}
  {base : Valuation K} {τ : Target → List Int → K} {total : K} {rest : List Target} {x x' : Sweep (Exact K)} {f : FuncId}
  {d : Definition (Exact K)} {ρ : Valuation K}

section

variable [IsStrictOrderedRing K]

theorem sent (set : Setting g s regions root D S base τ) (mem : f ∈ s.funcs) (init : (g.func f).init = some d)
    {x₁ : Sweep (Exact K)} (source : x₁.source = g) (same : x₁.regions = regions) {adj : FuncId}
    (made : x₁.extension.Known g S (.func adj)) (agree : ρ.Agree base (Based S))
    (support : ∀ p ∈ (regions.of g f).points, ρ.call adj p ≠ 0 → g.Demanded base root D (.func f) p)
    {pr : Partial (Exact K)} (listed : pr ∈ d.value.partials) :
    x₁.Sent ρ (x₁.extension.Known g S) f d adj pr.read.target pr.read.args (Setting.sent d f adj pr) := by
  have region : x₁.regionOf (.func f) = regions.of g f := Sweep.regionOf_func source same f
  refine ⟨?_, ?_, set.dims_regionOf source same _, fun {env} inside nonzero => ?_⟩
  · rw [source, region]
    exact set.outlined mem init set.known made listed
  · rw [region]
    exact set.carried agree mem init set.known made support listed
  · rw [region, set.iterations mem init] at inside
    obtain ⟨p, inRegion, rfl⟩ := List.mem_map.mp inside
    exact set.mem_regionOf source same
      (set.demanded_of_sent agree mem init (set.length_of_mem_points inRegion) (support p inRegion) listed nonzero)

/-- What a func sends along its reads pairs like what has been collected for it. -/
theorem pairing_sent (set : Setting g s regions root D S base τ) (mem : f ∈ s.funcs) (init : (g.func f).init = some d)
    {x₁ : Sweep (Exact K)} (source : x₁.source = g) (same : x₁.regions = regions) {adj : FuncId}
    (agree : ρ.Agree base (Based S))
    (support : ∀ p ∈ (regions.of g f).points, ρ.call adj p ≠ 0 → g.Demanded base root D (.func f) p) :
    (d.value.partials.map fun pr => if pr.read.target = .func f then 0
      else x₁.sentPairing ρ τ f d pr.read.target pr.read.args (Setting.sent d f adj pr)).sum =
      ((regions.of g f).points.map fun p => ρ.call adj p * τ (.func f) p).sum := by
  have others : ∀ pr ∈ d.value.partials, pr.read.target ≠ .func f := by
    intro pr listed self
    exact set.ordered.layered.initial mem (self ▸ Func.reads_initial init (read_mem_of_mem_partials listed))
  have swapped : (d.value.partials.map fun pr => if pr.read.target = .func f then 0
      else x₁.sentPairing ρ τ f d pr.read.target pr.read.args (Setting.sent d f adj pr)).sum =
      (d.value.partials.map fun pr => ((regions.of g f).points.map fun p =>
        (Setting.sent d f adj pr).value ρ ⟨coordinates (Exact K) (g.func f).args p, []⟩ *
          τ pr.read.target (position ρ ⟨coordinates (Exact K) (g.func f).args p, []⟩ pr.read.args)).sum).sum := by
    refine congrArg List.sum (List.map_congr_left fun pr listed => ?_)
    rw [if_neg (others pr listed), Sweep.sentPairing, Sweep.regionOf_func source same, set.iterations mem init,
      List.map_map]
    rfl
  rw [swapped, sum_exchange]
  refine congrArg List.sum (List.map_congr_left fun p inRegion => ?_)
  have length := set.length_of_mem_points inRegion
  by_cases zero : ρ.call adj p = 0
  · rw [zero, zero_mul]
    refine List.sum_eq_zero fun y inside => ?_
    obtain ⟨pr, listed, rfl⟩ := List.mem_map.mp inside
    rw [set.value_sent agree mem init length listed, zero, mul_zero, zero_mul]
  · have paired := (set.partials init (support p inRegion zero)).pairing
    rw [← paired, pairing, ← List.sum_map_mul_left]
    refine congrArg List.sum (List.map_congr_left fun pr listed => ?_)
    rw [set.value_sent agree mem init length listed, set.position_read agree mem init listed]
    ring

theorem serve (h : Walked g regions root D S base τ total (.func f :: rest) x)
    (set : Setting g s regions root D S base τ) (mem : f ∈ s.funcs) (fresh : .func f ∉ rest)
    (init : (g.func f).init = some d) (run : x.process f .initial = .ok x') :
    ∃ adj x₁, Served g regions root D S base τ total rest f adj x₁ ∧
      x' = x₁.passOn f d d.value.partials (.call adj d.lhs) f := by
  obtain ⟨progress, rfl⟩ := Sweep.process_initial (h.source ▸ init) run
  have key := set.keyOf_func mem
  let x₀ : Sweep (Exact K) := { x with progress }
  have source : x₀.source = g := h.source
  have settling : x₀.Settling S ⟨.func f, .initial⟩ (x₀.settle ⟨.func f, .initial⟩).1
      (x₀.settle ⟨.func f, .initial⟩).2 := by
    refine Sweep.settle_spec ?_ ?_ h.tidy ?_ (set.dims_regionOf source h.regions _)
    · rw [source]
      exact h.ready
    · rw [source]
      exact fun _ => set.below
    · rw [source]
      exact set.pointwise.distinct mem
  refine ⟨_, _, ?_, rfl⟩
  generalize (x₀.settle ⟨.func f, .initial⟩).1 = slot at settling
  generalize (x₀.settle ⟨.func f, .initial⟩).2 = x₁ at settling
  have others : ∀ t ∈ rest, (⟨.func f, .initial⟩ : Key) ≠ g.keyOf t := by
    intro t inside equal
    rw [← key] at equal
    exact fresh (Graph.keyOf_inj equal ▸ inside)
  have value {ρ : Valuation K} (settled : x₁.extension.Settled g ρ) {p : List Int}
      (inside : p ∈ (regions.of g f).points) : ρ.call slot.bounded p = x.collected ρ (g.keyOf (.func f)) p := by
    have held := settling.value (ρ := ρ) (q := p) (by rw [source]; exact settled)
      (by rw [source]; exact set.length_of_mem_points inside)
    rw [held, Sweep.regionOf_func source h.regions, if_pos inside, key]
    rfl
  refine ⟨settling.source.trans source, settling.regions.trans h.regions, ?_, settling.tidy h.tidy, ?_, ?_, ?_, ?_⟩
  · rw [← source]
    exact settling.ready
  · rw [← source]
    exact Or.inr settling.added
  · intro ρ t q settled agree inside length nonzero
    rw [settling.collected (others t inside)] at nonzero
    exact h.support (settled.before settling.grows) agree (List.mem_cons_of_mem _ inside) length nonzero
  · intro ρ settled agree p inside nonzero
    rw [value settled inside] at nonzero
    exact h.support (settled.before settling.grows) agree List.mem_cons_self (set.length_of_mem_points inside) nonzero
  · intro ρ settled agree
    rw [settling.balance (by rw [source]; exact others), ← h.balance (settled.before settling.grows) agree, add_comm]
    unfold Sweep.balance
    rw [List.map_cons, List.sum_cons, Sweep.regionOf_func h.source h.regions, h.source]
    congr 1
    refine congrArg List.sum (List.map_congr_left fun p inside => ?_)
    rw [value settled inside]

theorem of_served {adj : FuncId} {x₁ : Sweep (Exact K)}
    (h : Served g regions root D S base τ total rest f adj x₁) (set : Setting g s regions root D S base τ)
    (mem : f ∈ s.funcs) (distinct : rest.Nodup) (init : (g.func f).init = some d)
    (reads : ∀ t, (g.func f).Reads .initial t → t ∈ rest) :
    Walked g regions root D S base τ total rest (x₁.passOn f d d.value.partials (.call adj d.lhs) f) := by
  have beside : x₁.Beside (x₁.passOn f d d.value.partials (.call adj d.lhs) f) := Sweep.beside_passOn
  have region : x₁.regionOf (.func f) = regions.of g f := Sweep.regionOf_func h.source h.inferred f
  have complete {ρ : Valuation K} (settled : x₁.extension.Settled g ρ) (agree : ρ.Agree base (Based S)) :
      ∀ pr ∈ d.value.partials, pr.read.target ≠ .func f → x₁.Sent ρ (x₁.extension.Known g S) f d adj pr.read.target
        pr.read.args (Setting.sent d f adj pr) :=
    fun pr listed _ => Walked.sent set mem init h.source h.inferred h.made agree (h.adjoint settled agree) listed
  refine ⟨beside.source.trans h.source, beside.regions.trans h.inferred, ?_, h.tidy.passOn ?_, ?_, ?_⟩
  · rw [beside.extension]
    exact h.ready
  · intro pr listed _
    rw [h.source, region]
    exact set.outlined mem init set.known h.made listed
  -- whatever is collected afterwards was there before, or comes from a demanded position of `f`
  · intro ρ t q settled agree inside length nonzero
    rw [beside.extension] at settled
    rw [← h.source] at nonzero
    rcases Sweep.exists_of_collected_passOn (complete settled agree)
        (by rw [h.source, g.length_argsOf]; exact length) nonzero with before | ⟨pr, listed, -, rfl, env, iterated, rfl, sent⟩
    · rw [h.source] at before
      exact h.support settled agree inside length before
    · rw [region, set.iterations mem init] at iterated
      obtain ⟨p, inRegion, rfl⟩ := List.mem_map.mp iterated
      exact set.demanded_of_sent agree mem init (set.length_of_mem_points inRegion)
        (h.adjoint settled agree p inRegion) listed sent
  · intro ρ settled agree
    rw [beside.extension] at settled
    have inRest : ∀ pr ∈ d.value.partials, pr.read.target ∈ rest :=
      fun pr listed => reads _ (Func.reads_initial init (read_mem_of_mem_partials listed))
    have total : (x₁.passOn f d d.value.partials (.call adj d.lhs) f).balance ρ τ rest = x₁.balance ρ τ rest + _ :=
      Sweep.balance_passOn (fun pr listed other => ⟨inRest pr listed, complete settled agree pr listed other⟩) distinct
    rw [total, ← h.balance settled agree]
    exact congrArg (x₁.balance ρ τ rest + ·)
      (Walked.pairing_sent set mem init h.source h.inferred agree (h.adjoint settled agree))

/-- Processing a func keeps the balance: its share goes over to what it reads. -/
theorem process (h : Walked g regions root D S base τ total (.func f :: rest) x)
    (set : Setting g s regions root D S base τ) (mem : f ∈ s.funcs) (distinct : (Target.func f :: rest).Nodup)
    (reads : ∀ t, (g.func f).Reads .initial t → t ∈ rest) (run : x.process f .initial = .ok x') :
    Walked g regions root D S base τ total rest x' := by
  obtain ⟨d, init⟩ := Option.isSome_iff_exists.mp (set.ordered.defined f mem)
  obtain ⟨fresh, distinctRest⟩ := List.nodup_cons.mp distinct
  obtain ⟨adj, x₁, served, rfl⟩ := h.serve set mem fresh init run
  exact of_served served set mem distinctRest init reads

end

end Walked

/-! ### The whole walk -/

omit [FloorRing K] [Transcendental K] in
theorem sum_subdomain {D R : Domain} (inside : ∀ p ∈ D.points, p ∈ R.points) (w : List Int → K) :
    (R.points.map fun q => if q ∈ D.points then w q else 0).sum = (D.points.map w).sum := by
  have spread : (R.points.map fun q => (D.points.map fun p => if id p = q then w p else 0).sum * 1).sum =
      (D.points.map fun p => w p * 1).sum :=
    sum_spread R.nodup_points (fun p mem _ => inside p mem) fun _ => 1
  simp only [mul_one, id] at spread
  rw [← spread]
  refine congrArg List.sum (List.map_congr_left fun q _ => ?_)
  by_cases mem : q ∈ D.points
  · rw [if_pos mem, sum_map_single D.nodup_points mem fun p other _ => if_neg other, if_pos rfl]
  · rw [if_neg mem, List.sum_eq_zero]
    intro y listed
    obtain ⟨p, inside, rfl⟩ := List.mem_map.mp listed
    exact if_neg fun same : p = q => mem (same ▸ inside)

/-- All targets, consumers before what they read. -/
def Schedule.consumersFirst (s : Schedule) : List Target := s.funcs.reverse.map .func ++ s.leaves

theorem Schedule.Ordered.nodup_consumersFirst {κ : Type} {g : Graph κ} {s : Schedule} (h : s.Ordered g) :
    s.consumersFirst.Nodup := by
  refine List.Nodup.append ((List.nodup_reverse.mpr h.nodup).map fun _ _ => Target.func.inj) h.nodup_leaves ?_
  intro t left right
  obtain ⟨f, -, rfl⟩ := List.mem_map.mp left
  rcases List.mem_append.mp right with right | right
  · obtain ⟨b, -, same⟩ := List.mem_map.mp right
    cases same
  · obtain ⟨p, -, same⟩ := List.mem_map.mp right
    cases same

namespace Walked

variable {g : Graph (Exact K)} {s : Schedule} {regions : Regions} {root : FuncId} {D : Domain} {S : FuncId → Prop}
  {base : Valuation K} {τ : Target → List Int → K} {total : K} {rest : List Target} {x x' : Sweep (Exact K)}
  {seed : ResolvedSeed (Exact K)}

/-- What the seed gives to the output. -/
def seedTotal (g : Graph (Exact K)) (root : FuncId) (D : Domain) (base : Valuation K) (τ : Target → List Int → K)
    (seed : ResolvedSeed (Exact K)) : K :=
  (D.points.map fun p =>
    seed.value.value base ⟨coordinates (Exact K) (g.func root).args p, []⟩ * τ (.func root) p).sum

variable [IsStrictOrderedRing K] in
theorem value_seed (set : Setting g s regions root D S base τ) (neat : seed.value.Neat (g.func root).args [] (Based S))
    (domain : seed.domain = D) {ρ : Valuation K} (agree : ρ.Agree base (Based S)) {q : List Int}
    (length : q.length = g.dimsOf (.func root)) :
    (Smart.select (seed.domain.containsExpr (g.func root).argExprs) seed.value .zero).value ρ
      ⟨coordinates (Exact K) (g.func root).args q, []⟩ =
      if q ∈ D.points then seed.value.value base ⟨coordinates (Exact K) (g.func root).args q, []⟩ else 0 := by
  have mem := (Graph.ordered_schedule set.order).2
  have position : List.Forall₂ (fun a (v : Int) => a.Represents ρ ⟨coordinates (Exact K) (g.func root).args q, []⟩
      (Atom.Among (g.func root).args [] (Based S) True) (v : K)) (g.func root).argExprs q := by
    refine List.forall₂_map_left_iff.mpr (List.forall₂_iff_get.mpr ⟨length.symm, fun i less less' => ?_⟩)
    exact represents_coordinate (set.pointwise.distinct mem) (fun _ own => own)
      (List.getElem?_eq_getElem less) (List.getElem?_eq_getElem less')
  have inside := represents_containsExpr (d := D) position (set.dims.trans (List.length_map _).symm)
  have selected := Smart.represents_select inside (neat.represents ρ _) Represents.zero
  rw [← domain] at selected
  refine selected.value.trans ?_
  rw [domain, neat.value_agree agree]
  by_cases at' : q ∈ D.points
  · rw [if_pos at', if_neg one_ne_zero, if_pos at']
  · rw [if_neg at', if_pos rfl, if_neg at']

theorem pending_seed (k : Key) : ((Sweep.start g regions).addSeed root seed).pending k =
    if g.keyOf (.func root) = k then
      [.gather (Smart.select (seed.domain.containsExpr (g.func root).argExprs) seed.value .zero)] else [] :=
  Sweep.pending_addTerm

variable [IsStrictOrderedRing K] in
theorem collected_seed (set : Setting g s regions root D S base τ) (neat : seed.value.Neat (g.func root).args [] (Based S))
    (domain : seed.domain = D) {ρ : Valuation K} (agree : ρ.Agree base (Based S)) {t : Target} {q : List Int}
    (length : q.length = g.dimsOf t) : ((Sweep.start g regions).addSeed root seed).collected ρ (g.keyOf t) q =
      if t = .func root ∧ q ∈ D.points
      then seed.value.value base ⟨coordinates (Exact K) (g.func root).args q, []⟩ else 0 := by
  unfold Sweep.collected
  rw [pending_seed]
  by_cases own : t = .func root
  · subst own
    rw [if_pos rfl]
    refine (zero_add _).trans ((value_seed set neat domain agree length).trans ?_)
    exact if_congr (and_iff_right rfl).symm rfl rfl
  · rw [if_neg fun equal => own (Graph.keyOf_inj equal).symm, if_neg fun both => own both.1]
    rfl

theorem tidy_seed (neat : seed.value.Neat (g.func root).args [] (Based S)) :
    ((Sweep.start g regions).addSeed root seed).Tidy S := by
  intro k t listed
  rw [pending_seed] at listed
  split at listed
  · rename_i same
    rw [List.mem_singleton.mp listed, ← same]
    have contained : (seed.domain.containsExpr (g.func root).argExprs).Neat (g.func root).args []
        (Extension.Known { graph := g } g S) :=
      fun ρ env => plain_containsExpr trivial fun a inside => neat_argExprs a inside ρ env
    have neat : seed.value.Neat (g.func root).args [] (Extension.Known { graph := g } g S) :=
      neat.mono (fun _ m => m) (fun _ m => m) fun _ => Extension.Known.of_based
    intro ρ env
    exact (Smart.represents_select (contained.represents ρ env) (neat.represents ρ env) Represents.zero).plain
  · cases listed

variable [IsStrictOrderedRing K] in
theorem start (set : Setting g s regions root D S base τ) (sorted : g.Sorted S) (domain : seed.domain = D)
    (neat : seed.value.Neat (g.func root).args [] (Based S)) :
    Walked g regions root D S base τ (seedTotal g root D base τ seed) s.consumersFirst
      ((Sweep.start g regions).addSeed root seed) := by
  obtain ⟨ordered, mem⟩ := Graph.ordered_schedule set.order
  refine ⟨rfl, rfl, Extension.Ready.start sorted, tidy_seed neat, ?_, ?_⟩
  · intro ρ t q _ agree _ length nonzero
    rw [collected_seed set neat domain agree length] at nonzero
    by_cases inside : t = .func root ∧ q ∈ D.points
    · rw [inside.1]
      exact Graph.Demanded.start inside.2
    · exact absurd (if_neg inside) nonzero
  · intro ρ _ agree
    have collected (t : Target) : ∀ q ∈ (((Sweep.start g regions).addSeed root seed).regionOf t).points,
        ((Sweep.start g regions).addSeed root seed).collected ρ (g.keyOf t) q = if t = .func root ∧ q ∈ D.points
        then seed.value.value base ⟨coordinates (Exact K) (g.func root).args q, []⟩ else 0 := by
      intro q inside
      refine collected_seed set neat domain agree ((Domain.length_of_mem_points inside).trans ?_)
      exact (set.dims_regionOf rfl rfl t).trans (g.length_argsOf t)
    have listed : Target.func root ∈ s.consumersFirst :=
      List.mem_append_left _ (List.mem_map_of_mem (List.mem_reverse.mpr mem))
    refine (sum_map_single ordered.nodup_consumersFirst listed fun t other _ => ?_).trans ?_
    · refine List.sum_eq_zero fun y product => ?_
      obtain ⟨q, inside, rfl⟩ := List.mem_map.mp product
      have zero := (collected t q inside).trans (if_neg fun both => other both.1)
      exact (congrArg (· * τ t q) zero).trans (zero_mul _)
    · unfold seedTotal
      rw [← sum_subdomain (R := regions.of g root) fun p inside =>
        set.mem_regionOf (x := (Sweep.start g regions).addSeed root seed) rfl rfl (Graph.Demanded.start inside)]
      refine congrArg List.sum (List.map_congr_left fun q inside => ?_)
      refine (congrArg (· * τ (.func root) q) (collected (.func root) q inside)).trans ?_
      rw [ite_mul, zero_mul]
      exact if_congr (and_iff_right rfl) rfl rfl

variable [IsStrictOrderedRing K] in
/-- The walk over all funcs leaves the adjoints of buffers and params. -/
theorem run (set : Setting g s regions root D S base τ) {funcs : List FuncId} {done : List FuncId}
    (split : s.funcs = funcs.reverse ++ done)
    (h : Walked g regions root D S base τ total (funcs.map .func ++ s.leaves) x)
    (run : (funcs.map fun f => (f, Stage.initial)).foldlM (fun x (f, stage) => x.process f stage) x = .ok x') :
    Walked g regions root D S base τ total s.leaves x' := by
  induction funcs generalizing x done with
  | nil =>
    obtain rfl := pure_eq_ok.mp run
    exact h
  | cons f funcs ih =>
    rw [List.map_cons, List.foldlM_cons] at run
    obtain ⟨x₁, first, later⟩ := bind_eq_ok.mp run
    rw [List.reverse_cons, List.append_assoc] at split
    have mem : f ∈ s.funcs := by
      rw [split]
      exact List.mem_append_right _ List.mem_cons_self
    have distinct : (Target.func f :: (funcs.map .func ++ s.leaves)).Nodup := by
      refine set.ordered.nodup_consumersFirst.sublist ?_
      unfold Schedule.consumersFirst
      rw [split, List.reverse_append, List.reverse_reverse, List.map_append, List.singleton_append, List.reverse_cons,
        List.map_append, List.append_assoc, List.append_assoc]
      exact List.sublist_append_right _ _
    refine ih split (h.process set mem distinct (fun t reads => ?_) first) later
    have allowed := set.ordered.before funcs.reverse f done split .initial t reads
    cases t with
    | func k =>
      rcases allowed with earlier | ⟨-, other⟩
      · exact List.mem_append_left _ (List.mem_map_of_mem (List.mem_reverse.mp earlier))
      · exact absurd rfl other
    | buffer b => exact List.mem_append_right _ (List.mem_append_left _ (List.mem_map_of_mem allowed))
    | param p => exact List.mem_append_right _ (List.mem_append_right _ (List.mem_map_of_mem allowed))

end Walked

theorem Graph.Pointwise.definitions {g : Graph (Exact K)} {s : Schedule} (h : g.Pointwise s) (ordered : s.Ordered g)
    {f : FuncId} (mem : f ∈ s.funcs) : ∃ d, (g.func f).definitions = [(.initial, d)] := by
  obtain ⟨d, init⟩ := Option.isSome_iff_exists.mp (ordered.defined f mem)
  refine ⟨d, ?_⟩
  unfold Func.definitions
  rw [init, h.updates mem]
  rfl

theorem Graph.Pointwise.reversed {g : Graph (Exact K)} {s : Schedule} (h : g.Pointwise s) (ordered : s.Ordered g) :
    s.reversed = s.funcs.reverse.map fun f => (f, .initial) := by
  have stages : s.stages = s.funcs.map fun f => (f, .initial) := by
    rw [ordered.stages, List.map_eq_flatMap]
    refine List.flatMap_congr fun f mem => ?_
    obtain ⟨d, single⟩ := h.definitions ordered mem
    rw [single]
    rfl
  unfold Schedule.reversed
  rw [stages, List.map_reverse]

end ArrayDiff
