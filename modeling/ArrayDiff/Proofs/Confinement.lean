import ArrayDiff.Proofs.Discipline
import ArrayDiff.Proofs.Lawful
import ArrayDiff.Proofs.Terms

/-!
# Only updates leave a region

Inferred regions contain what is wanted of the root and every position that a func reads of another one, at each point
of its region and of the reduction domain. A realization that asks for a position outside of a region therefore does so
in an update of that very func (`Graph.reads_confined`).
-/

open ArrayDiff.Expr

namespace ArrayDiff

variable {K : Type} [Field K] [LinearOrder K] [FloorRing K] [Transcendental K]

/-- The variables of a definition of `func` at a point of the func and one of the reduction domain. -/
def Func.env (func : Func (Exact K)) (d : Definition (Exact K)) (p r : List Int) : Env K :=
  ⟨coordinates (Exact K) func.args p, coordinates (Exact K) (namesOf d.rdom) r⟩

/-- The arguments of scheduled funcs have names of their own, and positions and reads have as many coordinates as the
func and the target have dimensions. -/
def Graph.Fits (g : Graph (Exact K)) (s : Schedule) : Prop :=
  ∀ f ∈ s.funcs, (g.func f).args.Nodup ∧ ∀ entry ∈ (g.func f).definitions,
    entry.2.lhs.length = (g.func f).dims ∧ ∀ r ∈ entry.2.reads, r.args.length = g.dimsOf r.target

/-- Reduction variables have names of their own too, and constants are numbers. -/
structure Graph.Distinct (g : Graph (Exact K)) (s : Schedule) : Prop where
  fits : g.Fits s
  reduction {f : FuncId} {stage : Stage} {d : Definition (Exact K)} : f ∈ s.funcs →
    (stage, d) ∈ (g.func f).definitions → (namesOf d.rdom).Nodup
  constants {f : FuncId} {stage : Stage} {d : Definition (Exact K)} {e : Expr (Exact K)} {c : Exact K} : f ∈ s.funcs →
    (stage, d) ∈ (g.func f).definitions → e ∈ d.exprs → .const c ∈ e.nodes → c.isNumber

theorem Expr.eq_call_of_read? {κ : Type} {x : Expr κ} {r : Read κ} {h : FuncId} (is : x.read? = some r)
    (target : r.target = .func h) : x = .call h r.args := by
  cases x with
  | call f args =>
    cases is
    cases target
    rfl
  | load b args | param i =>
    cases is
    cases target
  | _ => cases is

section Evaluation

variable {func : Func (Exact K)} {d : Definition (Exact K)} {R : Domain} {ρ : Valuation K} {env : Env K}
  {p r : List Int}

variable [IsStrictOrderedRing K]

theorem Scope.binds_env (distinct : func.args.Nodup) (reduced : (namesOf d.rdom).Nodup) (mem : p ∈ R.points)
    (inner : r ∈ pointsOf d.rdom) : (Scope.ofDefinition func d R).Binds (func.env d p r : Env K) := by
  have bound {vars : List (Name × K)} {x : Name} {i : Interval}
      (found : ∃ n : Int, vars.lookup x = some (n : K) ∧ i.min ≤ n ∧ n ≤ i.max) :
      ∃ n : Int, (vars.lookup x).getD Scalar.zero = n ∧ i.min ≤ n ∧ n ≤ i.max := by
    obtain ⟨n, value, within⟩ := found
    exact ⟨n, by rw [value]; rfl, within⟩
  refine Scope.binds_ofDefinition (fun x i listed => ?_) fun rdom found x i listed => ?_
  · exact bound (bound_coordinates distinct (Domain.mem_points.mp mem) listed)
  · unfold Func.env
    rw [found] at reduced inner ⊢
    have zipped : rdom.names.zip (rdom.dims.map (·.2)) = rdom.dims := by
      unfold ReductionDomain.names
      rw [List.zip_map', List.map_id'']
      exact fun _ => rfl
    exact bound (bound_coordinates reduced (ReductionDomain.mem_points.mp inner) (zipped.symm ▸ listed))

omit [IsStrictOrderedRing K] in
theorem Func.Accepts.extends_of_mem_iterations (accepts : func.Accepts d.lhs) (distinct : func.args.Nodup)
    (dims : R.dims = func.dims) {p₀ : List Int} (filled : p₀ ∈ R.points)
    (mem : env ∈ (d.iterations R : List (Env K))) :
    ∃ p ∈ R.points, ∃ r ∈ pointsOf d.rdom, env.Extends (func.env d p r) := by
  have length : d.lhs.length = R.dims := accepts.length.trans dims.symm
  obtain ⟨p, inside, r, inner, rfl⟩ := exists_of_mem_iterations length filled mem
  refine ⟨p, inside, r, inner, fun {x v} found => ?_, id⟩
  dsimp only at found
  have named : x ∈ d.lhs.filterMap varName? := by
    obtain ⟨before, after, parts, -⟩ := List.lookup_eq_some_iff.mp found
    have listed : (x, v) ∈ (coordinates (Exact K) (d.lhs.filterMap varName?) (pick d.lhs p) : List (Name × K)) := by
      rw [parts]
      exact List.mem_append_right _ List.mem_cons_self
    exact (List.of_mem_zip listed).1
  obtain ⟨e, own, name⟩ := List.mem_filterMap.mp named
  obtain ⟨i, at'⟩ := List.mem_iff_getElem?.mp own
  obtain ⟨rfl, dim⟩ := accepts.placed at' (mem_freeVars_of_varName? name)
  obtain ⟨less, arg⟩ := List.findIdx?_eq_some_iff_getElem.mp dim
  have lessPoint : i < p.length := (Domain.length_of_mem_points inside).trans dims ▸ less
  have value : p[i]? = some p[i] := List.getElem?_eq_getElem lessPoint
  rw [lookup_pick accepts.distinctFree at' value] at found
  rw [← found]
  have name : func.args[i]? = some x := (List.getElem?_eq_getElem less).trans (congrArg some (of_decide_eq_true arg.1))
  exact lookup_coordinates distinct name value

end Evaluation

/-! ### Where errors come from -/

namespace Job

variable (j : Job (Exact K) K) (o : Results K) (f : FuncId)

/-- Evaluations of definitions of `f` at points of its region and of the reduction domain, with the values that `f` has
at that time. -/
inductive Evaluates : Definition (Exact K) → Reader (Except EvalError) K → Env K → Prop where
  | initial {d : Definition (Exact K)} {p : List Int} : (j.graph.func f).init = some d →
    p ∈ (j.regions.of j.graph f).points → Evaluates d (j.source o) ((j.graph.func f).env d p [])
  | update {d : Definition (Exact K)} {s : Storage K} {p r : List Int} : d ∈ (j.graph.func f).updates →
    j.Storing o f s → p ∈ (j.regions.of j.graph f).points → r ∈ pointsOf d.rdom →
    Evaluates d (j.during o f s) ((j.graph.func f).env d p r)

/-- An index argument takes a logarithm of a number that is not positive, or a root of a negative one. -/
def Irregular : Prop :=
  ∃ d reader env, j.Evaluates o f d reader env ∧ ∃ e ∈ d.exprs, ¬e.RegularIndices reader.valuation env

/-- A read of another func ends in an error, at a position outside of the region of that func. One of its index
arguments takes a logarithm of a number that is not positive, or a root of a negative one. -/
def Strays (e : EvalError) : Prop :=
  ∃ d reader env, j.Evaluates o f d reader env ∧ ∃ y ∈ d.exprs, ∃ h args, h ≠ f ∧
    Visits reader.valuation env y (.call h args) ∧ (∃ a ∈ args, ¬a.Regular reader.valuation env) ∧
    position reader.valuation env args ∉ (j.regions.of j.graph h).points ∧
    reader.call h (position reader.valuation env args) = .error e

/-- An update of `f` writes or reads `f` at a position outside the region. -/
def Overruns (q : List Int) : Prop :=
  q ∉ (j.regions.of j.graph f).points ∧ ∃ d ∈ (j.graph.func f).updates, ∃ s, j.Storing o f s ∧
    ∃ p ∈ (j.regions.of j.graph f).points, ∃ r ∈ pointsOf d.rdom,
      position (j.during o f s).valuation ((j.graph.func f).env d p r) d.lhs = q ∨
      ∃ e ∈ d.exprs, e.Performs (j.during o f s).valuation ((j.graph.func f).env d p r) (.func f) q

/-- Where an error about a position comes from. -/
inductive Blames (s : Schedule) (name : Name) (q : List Int) : Prop where
  | data {i : BufferId} : i ∈ s.buffers → (j.graph.buffer i).name = name → j.bindings.load? j.graph i q = none →
    Blames s name q
  | own {h : FuncId} : h ∈ s.funcs → (j.graph.func h).name = name → j.Overruns o h q → Blames s name q
  | strays {h : FuncId} : h ∈ s.funcs → j.Strays o h (.outOfBounds name q) → Blames s name q

variable {j o f} {s : Schedule} {name : Name} {index p : List Int} {rank : FuncId → Nat}

theorem Strays.irregular {e : EvalError} (strays : j.Strays o f e) : j.Irregular o f := by
  obtain ⟨d, reader, env, evaluates, y, own, h, args, -, visit, ⟨a, listed, wild⟩, -, -⟩ := strays
  exact ⟨d, reader, env, evaluates, y, own, fun regular => wild (regular _ _ visit rfl a listed)⟩

section Blame

variable [IsStrictOrderedRing K]

/-- What holds of a job when the regions of the scheduled funcs are inferred. -/
structure Inferred (j : Job (Exact K) K) (s : Schedule) : Prop where
  proper : j.graph.Proper
  distinct : j.graph.Distinct s
  ordered : s.Ordered j.graph
  shaped : j.regions.Shaped j.graph
  requested {f : FuncId} {stage : Stage} {d : Definition (Exact K)} : f ∈ s.funcs →
    (stage, d) ∈ (j.graph.func f).definitions → j.graph.Requested f (j.regions.of j.graph f) d j.regions

theorem Inferred.covers (inferred : j.Inferred s) (mem : f ∈ s.funcs) {stage : Stage} {d : Definition (Exact K)}
    (listed : (stage, d) ∈ (j.graph.func f).definitions) (inside : p ∈ (j.regions.of j.graph f).points) {r : List Int}
    (inner : r ∈ pointsOf d.rdom) {ρ : Valuation K} {e x : Expr (Exact K)} (own : e ∈ d.exprs)
    (visit : Visits ρ ((j.graph.func f).env d p r) e x) {read : Read (Exact K)} (is : x.read? = some read) {h : FuncId}
    (other : h ≠ f) (target : read.target = .func h)
    (regular : ∀ a ∈ read.args, a.Regular ρ ((j.graph.func f).env d p r)) :
    position ρ ((j.graph.func f).env d p r) read.args ∈ (j.regions.of j.graph h).points := by
  have binds : (Scope.ofDefinition (j.graph.func f) d (j.regions.of j.graph f)).Binds
      ((j.graph.func f).env d p r : Env K) :=
    Scope.binds_env (inferred.distinct.fits f mem).1 (inferred.distinct.reduction mem listed) inside inner
  exact (inferred.requested mem listed).covers binds own
    (plain_of_constants fun _ node => inferred.distinct.constants mem listed own node) other visit is target regular

/-- An evaluation that fails at a position does so where a func was called inside its region, unless the index arguments
of that call or the data are to blame. -/
theorem Inferred.blames_of_fails (inferred : j.Inferred s) (mem : f ∈ s.funcs) {stage : Stage}
    {d : Definition (Exact K)} (listed : (stage, d) ∈ (j.graph.func f).definitions) {c : Results K} {r : List Int}
    (evaluates : j.Evaluates o f d (j.source c) ((j.graph.func f).env d p r))
    (inside : p ∈ (j.regions.of j.graph f).points) (inner : r ∈ pointsOf d.rdom) {e : Expr (Exact K)}
    (own : e ∈ d.exprs) (fails : e.Fails (j.source c) ((j.graph.func f).env d p r) (.outOfBounds name index))
    (calls : ∀ h q, e.Performs (j.source c).valuation ((j.graph.func f).env d p r) (.func h) q →
      (h ≠ f → q ∈ (j.regions.of j.graph h).points) → c h q = .error (.outOfBounds name index) →
      j.Blames o s name index) : j.Blames o s name index := by
  obtain ⟨x, unbound⟩ | ⟨t, q, performs, failed⟩ := fails
  · cases unbound
  obtain ⟨x, read, visit, is, target, rfl⟩ := performs
  cases t with
  | func h =>
    by_cases covered : h ≠ f →
        position (j.source c).valuation ((j.graph.func f).env d p r) read.args ∈ (j.regions.of j.graph h).points
    · exact calls h _ ⟨x, read, visit, is, target, rfl⟩ covered failed
    obtain ⟨other, off⟩ := Classical.not_imp.mp covered
    obtain rfl := eq_call_of_read? is target
    refine .strays mem ⟨d, _, _, evaluates, e, own, h, read.args, other, visit, ?_, off, failed⟩
    by_contra regular
    push Not at regular
    exact off (inferred.covers mem listed inside inner own visit rfl other rfl regular)
  | buffer i =>
    have reads : (j.graph.func f).Reads stage (.buffer i) := by
      refine ⟨d, listed, read, List.mem_flatMap.mpr ⟨e, own, ?_⟩, target⟩
      exact List.mem_filterMap.mpr ⟨x, visit.mem_nodes, is⟩
    rcases data_error failed with same | ⟨_, _, same⟩ | ⟨same, off⟩
    · cases same
    · cases same
    · obtain ⟨rfl, rfl⟩ := EvalError.outOfBounds.inj same
      exact .data (inferred.ordered.lists mem reads) rfl off
  | param i => cases param_error failed

/-- A call inside the region of its func fails at a position only where somebody is to blame. -/
theorem Inferred.blames (inferred : j.Inferred s) (mem : f ∈ s.funcs) (inside : p ∈ (j.regions.of j.graph f).points)
    (run : j.results s.funcs.idxOf f p = .error (.outOfBounds name index)) :
    j.Blames (j.results s.funcs.idxOf) s name index := by
  have layers := inferred.ordered.layered
  -- induction on the place in the schedule: the funcs that are read come earlier
  generalize bound : s.funcs.idxOf f = n
  induction n using Nat.strong_induction_on generalizing f p with
  | _ n ih =>
    subst bound
    rw [results_eq layers mem] at run
    have earlier {stage : Stage} {h : FuncId} {q : List Int} (reads : (j.graph.func f).Reads stage (.func h))
        (other : h ≠ f ∨ stage = .initial) (at' : q ∈ (j.regions.of j.graph h).points)
        (failed : j.results s.funcs.idxOf h q = .error (.outOfBounds name index)) :
        j.Blames (j.results s.funcs.idxOf) s name index := by
      obtain ⟨listed, less⟩ := layers.reads_below mem reads other
      exact ih _ less listed at' failed rfl
    cases fault_of_resultOf run with
    | undefined none => exact absurd (layers.defined mem) (by rw [none]; exact Bool.false_ne_true)
    | shape same => cases same
    | @initial d q init place failed =>
      have at' : q ∈ (j.regions.of j.graph f).points := place.elim (fun same => same.2 ▸ inside) id
      have listed := Func.mem_definitions_init init
      have own : d.value ∈ d.exprs := List.mem_append_right _ (List.mem_singleton.mpr rfl)
      have env : (⟨coordinates (Exact K) (j.graph.func f).args q, []⟩ : Env K) = (j.graph.func f).env d q [] := by
        unfold Func.env
        rw [(inferred.proper.init init).2]
        rfl
      have inner : [] ∈ pointsOf d.rdom := by
        rw [(inferred.proper.init init).2]
        exact List.mem_singleton.mpr rfl
      unfold Job.initial at failed
      rw [env] at failed
      have fails := failure_of_eval source_strict (.refl _) failed
      refine inferred.blames_of_fails mem listed (.initial init at') at' inner own fails fun h r performs covered => ?_
      obtain ⟨read, is, target, -⟩ := performs.mem_reads
      have reads : (j.graph.func f).Reads .initial (.func h) := target ▸ Func.reads_initial init is
      refine earlier reads (Or.inr rfl) (covered ?_)
      rintro rfl
      exact layers.initial mem reads
    | @update d t env x update stored iterates own failed =>
      obtain ⟨i, listed⟩ := Func.mem_definitions_update update
      obtain ⟨q, at', r, inner, wide⟩ := (inferred.proper.update update).extends_of_mem_iterations
        (inferred.distinct.fits f mem).1 (inferred.shaped.dims_of f) inside iterates
      have fails := failure_of_eval source_strict wide failed
      refine inferred.blames_of_fails mem listed (.update update stored at' inner) at' inner own fails
        fun h q' performs covered failed => ?_
      by_cases self : h = f
      · subst self
        rw [Function.update_self] at failed
        obtain ⟨off, same⟩ := fetch_error stored.holds failed
        obtain ⟨rfl, rfl⟩ := EvalError.outOfBounds.inj same
        exact .own mem rfl ⟨off, d, update, t, stored, q, at', r, inner, Or.inr ⟨x, own, performs⟩⟩
      · rw [Function.update_of_ne self] at failed
        obtain ⟨read, is, target, -⟩ := performs.mem_reads
        exact earlier ⟨d, listed, read, List.mem_flatMap.mpr ⟨x, own, is⟩, target⟩ (Or.inl self) (covered self) failed
    | @write d t env q update stored iterates written off same =>
      obtain ⟨p', at', r, inner, wide⟩ := (inferred.proper.update update).extends_of_mem_iterations
        (inferred.distinct.fits f mem).1 (inferred.shaped.dims_of f) inside iterates
      obtain ⟨rfl, rfl⟩ := EvalError.outOfBounds.inj same
      have position := position_of_evalIndex source_strict wide written
      exact .own mem rfl ⟨off, d, update, t, stored, p', at', r, inner, Or.inl position.symm⟩
    | outside _ off _ => exact absurd inside off

end Blame

end Job

namespace Graph

variable [IsStrictOrderedRing K] {g : Graph (Exact K)} {s : Schedule} {root : FuncId} {domain : Domain}
  {regions : Regions}

omit [IsStrictOrderedRing K] in
theorem inferred_of_inferRegions (proper : g.Proper) (distinct : g.Distinct s) (dims : domain.dims = (g.func root).dims)
    (ordered : s.Ordered g) (inferred : g.inferRegions s root domain = .ok regions) (b : Bindings K) :
    (⟨g, b, regions⟩ : Job (Exact K) K).Inferred s ∧ ∀ p ∈ domain.points, p ∈ (regions.of g root).points := by
  obtain ⟨shaped, wanted, requested⟩ := requested_of_inferRegions ordered dims
    (fun f mem _ _ listed => ((distinct.fits f mem).2 _ listed).2) (fun f _ d update => (proper.update update).length)
    inferred
  exact ⟨⟨proper, distinct, ordered, shaped, fun mem listed => requested _ mem _ _ listed⟩, wanted⟩

theorem blames_of_realize (proper : g.Proper) (distinct : g.Distinct s) (dims : domain.dims = (g.func root).dims)
    (order : g.schedule root = .ok s) (inferred : g.inferRegions s root domain = .ok regions) {b : Bindings K}
    {name : Name} {index : List Int} (run : g.realize root domain b = .error (.outOfBounds name index)) :
    (⟨g, b, regions⟩ : Job (Exact K) K).Blames ((⟨g, b, regions⟩ : Job (Exact K) K).results s.funcs.idxOf) s name
      index := by
  obtain ⟨ordered, mem⟩ := ordered_schedule order
  obtain ⟨job, wanted⟩ := inferred_of_inferRegions proper distinct dims ordered inferred b
  rcases error_of_realize order run with ⟨_, same⟩ | ⟨_, same⟩ | ⟨regions', again, p, inside, failed⟩
  · cases same
  · cases same
  obtain rfl := Except.ok.inj (inferred.symm.trans again)
  exact job.blames mem (wanted p inside) failed

/-- The region of the root contains the domain, and in exact arithmetic every read of another func that a definition
performs, at a point of its func's region and of its reduction domain and with any values of what is read, is inside the
region of the func that is read, as long as its index arguments take logarithms of positive numbers and roots of numbers
that are not negative. A realization that fails at a position outside of a func does so because of an update of that
func. -/
theorem reads_confined (proper : g.Proper) (distinct : g.Distinct s) (dims : domain.dims = (g.func root).dims)
    (order : g.schedule root = .ok s) (inferred : g.inferRegions s root domain = .ok regions) :
    (∀ p ∈ domain.points, p ∈ (regions.of g root).points) ∧
    (∀ f ∈ s.funcs, ∀ stage d, (stage, d) ∈ (g.func f).definitions → ∀ p ∈ (regions.of g f).points,
      ∀ r ∈ pointsOf d.rdom, ∀ (ρ : Valuation K), ∀ e ∈ d.exprs, ∀ h args, h ≠ f →
        Visits ρ ((g.func f).env d p r) e (.call h args) → (∀ a ∈ args, a.Regular ρ ((g.func f).env d p r)) →
        position ρ ((g.func f).env d p r) args ∈ (regions.of g h).points) ∧
    ∀ (b : Bindings K) name index, g.realize root domain b = .error (.outOfBounds name index) →
      (⟨g, b, regions⟩ : Job (Exact K) K).Blames ((⟨g, b, regions⟩ : Job (Exact K) K).results s.funcs.idxOf) s name
        index := by
  obtain ⟨job, wanted⟩ := inferred_of_inferRegions proper distinct dims (ordered_schedule order).1 inferred {}
  refine ⟨wanted, fun f mem stage d listed p inside r inner ρ e own h args other visit regular => ?_,
    fun b name index run => blames_of_realize proper distinct dims order inferred run⟩
  exact job.covers mem listed inside inner own visit rfl other rfl regular

end Graph

/-! ### Updates that leave their region, and reads that nobody foresees -/

theorem exists_regions (g : Graph (Exact ℚ)) (root : FuncId) (D : Domain) (funcs : List FuncId) (R R' : Domain)
    (made : ((g.schedule root).toOption.bind fun s => (g.inferRegions s root D).toOption.map fun regions =>
      (s.funcs, regions.of g ⟨0⟩, regions.of g ⟨1⟩)) = some (funcs, R, R')) :
    ∃ s regions, g.schedule root = .ok s ∧ g.inferRegions s root D = .ok regions ∧ s.funcs = funcs ∧
      regions.of g ⟨0⟩ = R ∧ regions.of g ⟨1⟩ = R' := by
  obtain ⟨s, order, made⟩ := Option.bind_eq_some_iff.mp made
  obtain ⟨regions, inferred, same⟩ := Option.map_eq_some_iff.mp made
  obtain ⟨funcs, same⟩ := Prod.mk.inj same
  obtain ⟨first, second⟩ := Prod.mk.inj same
  exact ⟨s, regions, toOption_eq_some.mp order, toOption_eq_some.mp inferred, funcs, first, second⟩

/-- `shifted` becomes its own left neighbour, and reads squares further to the right. -/
def sliding : Graph (Exact ℚ) where
  funcs := #[
    { name := "shifted", args := ["x"],
      init := some ⟨[.var "x"], .call ⟨1⟩ [.binary .add (.var "x") .one], none⟩,
      updates := [⟨[.var "x"], .binary .add (.call ⟨0⟩ [.binary .sub (.var "x") .one]) (.call ⟨1⟩ [.var "x"]), none⟩] },
    { name := "squares", args := ["x"], init := some ⟨[.var "x"], .binary .mul (.var "x") (.var "x"), none⟩ }]

namespace sliding

/-- The squares first, then what reads them. -/
def order : Schedule := ⟨[⟨1⟩, ⟨0⟩], [(⟨1⟩, .initial), (⟨0⟩, .initial), (⟨0⟩, .update 0)], [], []⟩

theorem definitions {f : FuncId} {stage : Stage} {d : Definition (Exact ℚ)}
    (listed : (stage, d) ∈ (sliding.func f).definitions) : f = ⟨0⟩ ∨ f = ⟨1⟩ := by
  obtain ⟨_ | _ | n⟩ := f
  · exact .inl rfl
  · exact .inr rfl
  · cases listed

theorem proper : sliding.Proper := by
  refine ⟨fun {f d} init => ?_, fun {f d} update => ?_, fun {f D} estimate => ?_⟩
  · obtain rfl | rfl := definitions (Func.mem_definitions_init init)
    · cases init
      exact ⟨rfl, rfl⟩
    · cases init
      exact ⟨rfl, rfl⟩
  · obtain ⟨i, listed⟩ := Func.mem_definitions_update update
    obtain rfl | rfl := definitions listed
    · obtain rfl := List.mem_singleton.mp update
      exact Func.accepts_args (List.nodup_singleton _)
    · cases update
  · obtain ⟨_ | _ | n⟩ := f <;> cases estimate

theorem distinct : sliding.Distinct order := by
  have reduction : ∀ f ∈ order.funcs, ∀ entry ∈ (sliding.func f).definitions, (namesOf entry.2.rdom).Nodup := by decide
  have numbers : ∀ f ∈ order.funcs, ∀ entry ∈ (sliding.func f).definitions, ∀ e ∈ entry.2.exprs, ∀ x ∈ e.nodes,
      x.const?.all Exact.isNumber = true := by decide
  exact ⟨by unfold Graph.Fits; decide, fun mem listed => reduction _ mem _ listed,
    fun mem listed own node => by simpa [const?] using numbers _ mem _ listed _ own _ node⟩

/-- The squares that are read from -1 to 1 and one further are there, while the values to the left of -1 are not. -/
theorem confined : ∃ regions, sliding.inferRegions order ⟨0⟩ ⟨[⟨0, 1⟩]⟩ = .ok regions ∧
    (∀ p ∈ (⟨[⟨0, 1⟩]⟩ : Domain).points, p ∈ (regions.of sliding ⟨0⟩).points) ∧
    (regions.of sliding ⟨0⟩ = ⟨[⟨-1, 1⟩]⟩ ∧ regions.of sliding ⟨1⟩ = ⟨[⟨-1, 2⟩]⟩) ∧
    sliding.realize ⟨0⟩ ⟨[⟨0, 1⟩]⟩ ({} : Bindings ℚ) = .error (.outOfBounds "shifted" [-2]) ∧
    (⟨sliding, {}, regions⟩ : Job (Exact ℚ) ℚ).Blames
      ((⟨sliding, {}, regions⟩ : Job (Exact ℚ) ℚ).results order.funcs.idxOf) order "shifted" [-2] := by
  have order : sliding.schedule ⟨0⟩ = .ok order := by decide +kernel
  have made : ((sliding.inferRegions sliding.order ⟨0⟩ ⟨[⟨0, 1⟩]⟩).toOption.map fun regions =>
      (regions.of sliding ⟨0⟩, regions.of sliding ⟨1⟩)) = some (⟨[⟨-1, 1⟩]⟩, ⟨[⟨-1, 2⟩]⟩) := by decide +kernel
  have run : sliding.realize ⟨0⟩ ⟨[⟨0, 1⟩]⟩ ({} : Bindings ℚ) = .error (.outOfBounds "shifted" [-2]) := by
    decide +kernel
  obtain ⟨regions, inferred, same⟩ := Option.map_eq_some_iff.mp made
  have inferred := toOption_eq_some.mp inferred
  obtain ⟨wanted, -, blame⟩ := Graph.reads_confined proper distinct rfl order inferred
  exact ⟨regions, inferred, wanted, Prod.mk.inj same, run, blame {} _ _ run⟩

end sliding

/-- A definition of a scheduled func reads another func outside of the region of that one, whatever the values are. -/
def Graph.Strays (g : Graph (Exact K)) (s : Schedule) (regions : Regions) : Prop :=
  ∃ f ∈ s.funcs, ∃ stage d, (stage, d) ∈ (g.func f).definitions ∧ ∃ p ∈ (regions.of g f).points,
    ∃ r ∈ pointsOf d.rdom, ∃ e ∈ d.exprs, ∃ h args, h ≠ f ∧ ∀ ρ : Valuation K,
      Visits ρ ((g.func f).env d p r) e (.call h args) ∧
      position ρ ((g.func f).env d p r) args ∉ (regions.of g h).points

/-- `total` adds up `values` along two reduction variables of the same name. -/
def repeating : Graph (Exact ℚ) where
  funcs := #[
    { name := "total", args := [], init := some ⟨[], .zero, none⟩,
      updates := [⟨[], .binary .add (.call ⟨0⟩ []) (.call ⟨1⟩ [.rvar "r"]), some ⟨[("r", ⟨0, 1⟩), ("r", ⟨5, 5⟩)]⟩⟩] },
    { name := "values", args := ["i"], init := some ⟨[.var "i"], .var "i", none⟩,
      updates := [⟨[.var "i"], .binary .add (.call ⟨1⟩ [.var "i"]) .one, none⟩] }]

/-- `distance` reads `values` at a root. -/
def rooting : Graph (Exact ℚ) where
  funcs := #[
    { name := "distance", args := ["i"], init := some ⟨[.var "i"], .call ⟨1⟩ [.unary .sqrt (.var "i")], none⟩ },
    { name := "values", args := ["i"], init := some ⟨[.var "i"], .var "i", none⟩,
      updates := [⟨[.var "i"], .binary .add (.call ⟨1⟩ [.var "i"]) .one, none⟩] }]

/-- The last one of two reduction variables of one name decides about the region and the first one about the position, a
root of a negative number can be anywhere, and in a domain with too many dimensions there are points that no region of
the root has. -/
theorem uncovered :
    (∃ s regions, repeating.schedule ⟨0⟩ = .ok s ∧ repeating.inferRegions s ⟨0⟩ .scalar = .ok regions ∧
      repeating.Fits s ∧ repeating.Strays s regions ∧
      repeating.realize ⟨0⟩ .scalar ({} : Bindings ℚ) = .error (.outOfBounds "values" [0])) ∧
    (∃ s regions, rooting.schedule ⟨0⟩ = .ok s ∧ rooting.inferRegions s ⟨0⟩ ⟨[⟨-3, -3⟩]⟩ = .ok regions ∧
      rooting.Fits s ∧ rooting.Strays s regions ∧
      rooting.realize ⟨0⟩ ⟨[⟨-3, -3⟩]⟩ ({} : Bindings ℚ) = .error (.outOfBounds "values" [-3])) ∧
    ∃ s regions, sliding.schedule ⟨0⟩ = .ok s ∧ sliding.inferRegions s ⟨0⟩ ⟨[⟨0, 1⟩, ⟨0, 1⟩]⟩ = .ok regions ∧
      sliding.Fits s ∧ ∃ p ∈ (⟨[⟨0, 1⟩, ⟨0, 1⟩]⟩ : Domain).points, p ∉ (regions.of sliding ⟨0⟩).points := by
  have floor {ρ : Valuation ℚ} {env : Env ℚ} {a : Expr (Exact ℚ)} {v : ℚ} (value : a.value ρ env = v) :
      position ρ env [a] = [⌊v⌋] := by rw [← value]; rfl
  refine ⟨?_, ?_, ?_⟩
  · obtain ⟨s, regions, order, inferred, funcs, total, values⟩ := exists_regions repeating ⟨0⟩ .scalar
      [⟨1⟩, ⟨0⟩] .scalar ⟨[⟨5, 5⟩]⟩ (by decide +kernel)
    refine ⟨s, regions, order, inferred, by unfold Graph.Fits; rw [funcs]; decide, ?_, by decide +kernel⟩
    refine ⟨⟨0⟩, by rw [funcs]; decide, .update 0, _, List.mem_cons_of_mem _ List.mem_cons_self, [],
      by rw [total]; decide, [0, 5], by decide, _, List.mem_singleton_self _, ⟨1⟩, [.rvar "r"], by decide, fun ρ => ?_⟩
    refine ⟨.binaryRight (.self _), ?_⟩
    rw [values, floor (v := 0) rfl]
    decide
  · obtain ⟨s, regions, order, inferred, funcs, distance, values⟩ := exists_regions rooting ⟨0⟩ ⟨[⟨-3, -3⟩]⟩
      [⟨1⟩, ⟨0⟩] ⟨[⟨-3, -3⟩]⟩ ⟨[⟨0, 0⟩]⟩ (by decide +kernel)
    refine ⟨s, regions, order, inferred, by unfold Graph.Fits; rw [funcs]; decide, ?_, by decide +kernel⟩
    refine ⟨⟨0⟩, by rw [funcs]; decide, .initial, _, List.mem_singleton_self _, [-3], by rw [distance]; decide, [],
      by decide, _, List.mem_cons_of_mem _ (List.mem_singleton_self _), ⟨1⟩, _, by decide, fun ρ => ⟨.self _, ?_⟩⟩
    rw [values, floor (v := ((-3 : ℤ) : ℚ)) rfl]
    decide
  · obtain ⟨s, regions, order, inferred, funcs, shifted, -⟩ := exists_regions sliding ⟨0⟩
      ⟨[⟨0, 1⟩, ⟨0, 1⟩]⟩ [⟨1⟩, ⟨0⟩] ⟨[⟨-1, 1⟩]⟩ ⟨[⟨-1, 2⟩]⟩ (by decide +kernel)
    refine ⟨s, regions, order, inferred, by unfold Graph.Fits; rw [funcs]; decide, [0, 0], by decide, ?_⟩
    rw [shifted]
    decide

end ArrayDiff
