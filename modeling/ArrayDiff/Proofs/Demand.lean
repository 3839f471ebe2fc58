import Mathlib.Logic.Relation
import ArrayDiff.Proofs.Growth
import ArrayDiff.Proofs.Interpreter
import ArrayDiff.Proofs.Terms

/-!
# What a realization asks for

`Graph.values` is what funcs, buffers and params hold for given data. In a graph without updates `Graph.Demanded` lists
the reads that a realization performs, starting from the points of the output: buffers are only read inside their
domains (`isSome_load_of_demanded`), and funcs only inside their regions (`mem_region_of_demanded`).
-/

namespace ArrayDiff

variable {κ α : Type} [Scalar κ] [Scalar α] [Embed κ α]

/-! ### The values of a graph -/

/-- The data of buffers and params, 0 where there is none. -/
def Bindings.leaves (b : Bindings α) (g : Graph κ) : Valuation α where
  call _ _ := Scalar.zero
  load i p := (b.load? g i p).getD Scalar.zero
  param i := (b.param g i).toOption.getD Scalar.zero

/-- What everything in a graph holds for the given data. -/
noncomputable def Graph.values (g : Graph κ) (b : Bindings α) : Valuation α := g.meaning (b.leaves g)

namespace Graph

variable {g : Graph κ} {b : Bindings α} {s : Schedule} {f root : FuncId} {D : Domain} {t : Tensor α}

theorem values_load {i : BufferId} {p : List Int} {v : α} (found : b.load? g i p = some v) :
    (g.values b).load i p = v := by
  change (b.load? g i p).getD Scalar.zero = v
  rw [found]
  rfl

theorem values_param {i : ParamId} {v : α} (found : b.param g i = .ok v) : (g.values b).param i = v := by
  change (b.param g i).toOption.getD Scalar.zero = v
  rw [found]
  rfl

/-- Updates of scheduled funcs use every pure variable in one place only. -/
def DistinctUpdates (g : Graph κ) (S : FuncId → Prop) : Prop := ∀ f, S f → ∀ d ∈ (g.func f).updates, d.DistinctFree

theorem sound_values [ExactIndex κ α] (ordered : s.Ordered g) (distinct : g.DistinctUpdates (· ∈ s.funcs)) :
    (g.values b).answers.Sound g b (· ∈ s.funcs) := by
  refine ⟨fun found => ?_, fun found => ?_, fun {f p v} mem held => ?_⟩
  · exact congrArg some (values_load found)
  · exact congrArg some (values_param found)
  · exact congrArg some (meaning_settles ordered.layered mem (distinct f mem) p v held)

theorem values_realize {κ : Type} [Extended κ] [Embed κ α] [ExactIndex κ α] {g : Graph κ}
    (order : g.schedule f = .ok s) (distinct : g.DistinctUpdates (· ∈ s.funcs)) (run : g.realize f D b = .ok t) :
    t.values.toList = D.points.map ((g.values b).call f) := by
  have held := (realize_sound order (sound_values (ordered_schedule order).1 distinct) run).2
  exact eq_map_of_forall₂ (held.imp fun p v same => Option.some.inj same)

end Graph

/-! ### Reads that are answered -/

namespace Answers

/-- Whether there is an answer for a position of a target. -/
def has (P : Answers α) : Target → List Int → Prop
  | .func f, p => (P.call f p).isSome
  | .buffer b, p => (P.load b p).isSome
  | .param i, _ => (P.param i).isSome

end Answers

namespace Expr

variable {P : Answers α} {ρ : Valuation α} {env : Env α} {e x : Expr κ} {v : α}

section

omit [Scalar κ]

theorem position_of_position? (ext : P.ExtendedBy ρ) {es : List (Expr κ)} {p : List Int}
    (found : position? P env es = some p) : position ρ env es = p := by
  induction es generalizing p with
  | nil => exact Option.some.inj found
  | cons e es ih =>
    obtain ⟨y, first, found⟩ := Option.bind_eq_some_iff.mp found
    obtain ⟨rest, others, found⟩ := Option.bind_eq_some_iff.mp found
    obtain rfl := Option.some.inj found
    have value : e.value ρ env = y := value_of_value? ext first
    rw [position_cons, value, ih others]

theorem value?_of_mem_args {es : List (Expr κ)} {p : List Int} (found : position? P env es = some p) {a : Expr κ}
    (mem : a ∈ es) : ∃ y, a.value? P env = some y := by
  induction es generalizing p with
  | nil => cases mem
  | cons e es ih =>
    obtain ⟨y, first, found⟩ := Option.bind_eq_some_iff.mp found
    obtain ⟨rest, others, -⟩ := Option.bind_eq_some_iff.mp found
    rcases List.mem_cons.mp mem with rfl | mem
    · exact ⟨y, first⟩
    · exact ih others mem

theorem value?_of_visits (ext : P.ExtendedBy ρ) (visit : Visits ρ env e x) (value : e.value? P env = some v) :
    ∃ w, x.value? P env = some w := by
  induction visit generalizing v with
  | self e => exact ⟨v, value⟩
  | call mem _ ih =>
    obtain ⟨p, found, -⟩ := Option.bind_eq_some_iff.mp value
    obtain ⟨y, value⟩ := value?_of_mem_args found mem
    exact ih value
  | load mem _ ih =>
    obtain ⟨p, found, -⟩ := Option.bind_eq_some_iff.mp value
    obtain ⟨y, value⟩ := value?_of_mem_args found mem
    exact ih value
  | unary _ ih | not _ ih | binaryLeft _ ih | compareLeft _ ih | andLeft _ ih | orLeft _ ih | condition _ ih =>
    obtain ⟨y, value, -⟩ := Option.bind_eq_some_iff.mp value
    exact ih value
  | binaryRight _ ih | compareRight _ ih =>
    obtain ⟨y, -, value⟩ := Option.bind_eq_some_iff.mp value
    obtain ⟨z, value, -⟩ := Option.bind_eq_some_iff.mp value
    exact ih value
  | andRight holds _ ih =>
    obtain ⟨y, first, value⟩ := Option.bind_eq_some_iff.mp value
    rw [value_of_value? ext first] at holds
    rw [if_neg (by rw [holds]; exact Bool.false_ne_true)] at value
    obtain ⟨z, value, -⟩ := Option.bind_eq_some_iff.mp value
    exact ih value
  | orRight fails _ ih =>
    obtain ⟨y, first, value⟩ := Option.bind_eq_some_iff.mp value
    rw [value_of_value? ext first] at fails
    rw [if_pos fails] at value
    obtain ⟨z, value, -⟩ := Option.bind_eq_some_iff.mp value
    exact ih value
  | onTrue holds _ ih =>
    obtain ⟨y, first, value⟩ := Option.bind_eq_some_iff.mp value
    rw [value_of_value? ext first] at holds
    rw [if_neg (by rw [holds]; exact Bool.false_ne_true)] at value
    exact ih value
  | onFalse fails _ ih =>
    obtain ⟨y, first, value⟩ := Option.bind_eq_some_iff.mp value
    rw [value_of_value? ext first] at fails
    rw [if_pos fails] at value
    exact ih value

theorem has_of_performs (ext : P.ExtendedBy ρ) (value : e.value? P env = some v) {t : Target} {q : List Int}
    (performs : e.Performs ρ env t q) : P.has t q := by
  obtain ⟨x, r, visit, read, rfl, rfl⟩ := performs
  obtain ⟨w, value⟩ := value?_of_visits ext visit value
  cases x with
  | call f args =>
    obtain rfl := Option.some.inj read
    obtain ⟨p, found, answer⟩ := Option.bind_eq_some_iff.mp value
    unfold Answers.has
    rw [position_of_position? ext found]
    exact Option.isSome_of_mem answer
  | load b args =>
    obtain rfl := Option.some.inj read
    obtain ⟨p, found, answer⟩ := Option.bind_eq_some_iff.mp value
    unfold Answers.has
    rw [position_of_position? ext found]
    exact Option.isSome_of_mem answer
  | param i =>
    obtain rfl := Option.some.inj read
    exact Option.isSome_of_mem value
  | _ => cases read

end

end Expr

/-! ### Demanded positions -/

namespace Graph

variable {g : Graph κ} {b : Bindings α} {ρ : Valuation α} {s : Schedule} {f root : FuncId} {D : Domain} {d : Definition κ}

/-- The initial definition at the first position performs a read of the second one. -/
def Needs (g : Graph κ) (ρ : Valuation α) (x y : Target × List Int) : Prop :=
  ∃ f d, x.1 = .func f ∧ (g.func f).init = some d ∧
    d.value.Performs ρ ⟨coordinates κ (g.func f).args x.2, []⟩ y.1 y.2

/-- The positions that are read, directly or indirectly, for the values of `root` over `D`. -/
def Demanded (g : Graph κ) (ρ : Valuation α) (root : FuncId) (D : Domain) (t : Target) (q : List Int) : Prop :=
  ∃ p ∈ D.points, Relation.ReflTransGen (g.Needs ρ) (.func root, p) (t, q)

theorem Demanded.start {p : List Int} (mem : p ∈ D.points) : g.Demanded ρ root D (.func root) p :=
  ⟨p, mem, Relation.ReflTransGen.refl⟩

theorem Demanded.read {p q : List Int} {t : Target} (h : g.Demanded ρ root D (.func f) p)
    (init : (g.func f).init = some d)
    (performs : d.value.Performs ρ ⟨coordinates κ (g.func f).args p, []⟩ t q) : g.Demanded ρ root D t q := by
  obtain ⟨p₀, mem, path⟩ := h
  exact ⟨p₀, mem, path.tail ⟨f, d, rfl, init, performs⟩⟩

/-- What holds at the output and is passed on by every read holds at all demanded positions. -/
theorem Demanded.invariant {t : Target} {q : List Int} (h : g.Demanded ρ root D t q)
    (inv : Target → List Int → Prop) (start : ∀ p ∈ D.points, inv (.func root) p)
    (step : ∀ f d p t q, g.Demanded ρ root D (.func f) p → inv (.func f) p → (g.func f).init = some d →
      d.value.Performs ρ ⟨coordinates κ (g.func f).args p, []⟩ t q → inv t q) : inv t q := by
  obtain ⟨p₀, mem, path⟩ := h
  have both : ∀ y : Target × List Int, Relation.ReflTransGen (g.Needs ρ) (.func root, p₀) y →
      g.Demanded ρ root D y.1 y.2 ∧ inv y.1 y.2 := by
    intro y path
    induction path with
    | refl => exact ⟨Demanded.start mem, start p₀ mem⟩
    | tail _ edge ih =>
      obtain ⟨f, d, target, init, performs⟩ := edge
      obtain ⟨demanded, held⟩ := ih
      rw [target] at demanded held
      exact ⟨demanded.read init performs, step f d _ _ _ demanded held init performs⟩
  exact (both (t, q) path).2

end Graph

omit [Scalar κ] in
theorem Expr.Performs.read_mem {ρ : Valuation α} {env : Env α} {e : Expr κ} {t : Target} {q : List Int}
    (h : e.Performs ρ env t q) : ∃ r ∈ e.reads, r.target = t ∧ position ρ env r.args = q := by
  obtain ⟨x, r, visit, read, target, at'⟩ := h
  exact ⟨r, List.mem_filterMap.mpr ⟨x, visit.mem_nodes, read⟩, target, at'⟩

theorem Schedule.Lists.based {s : Schedule} {S : FuncId → Prop} (scheduled : ∀ f ∈ s.funcs, S f) {t : Target}
    (h : s.Lists t) : Based S t := by
  cases t with
  | func f => exact scheduled f h
  | _ => trivial

namespace Graph

section Bounds

variable {κ : Type} [Extended κ] [Embed κ α] {g : Graph κ} {b : Bindings α} {s : Schedule} {f root : FuncId} {D : Domain}
  {d : Definition κ}

omit [Extended κ] in
theorem reads_of_performs {ρ : Valuation α} {env : Env α} (init : (g.func f).init = some d) {t : Target} {q : List Int}
    (performs : d.value.Performs ρ env t q) : (g.func f).Reads .initial t := by
  obtain ⟨r, mem, target, -⟩ := performs.read_mem
  exact target ▸ Func.reads_initial init mem

theorem Demanded.lists {ρ : Valuation α} (order : g.schedule root = .ok s) {t : Target} {q : List Int}
    (h : g.Demanded ρ root D t q) : s.Lists t := by
  obtain ⟨ordered, mem⟩ := ordered_schedule order
  exact h.invariant (fun t _ => s.Lists t) (fun _ _ => mem) fun f d p t q _ held init performs =>
    ordered.lists held (reads_of_performs init performs)

end Bounds

end Graph

/-! ### Graphs without updates -/

section Pointwise

variable {K : Type} [Field K] [LinearOrder K] [FloorRing K] [Transcendental K]

/-- Every operand of logic is a truth value. -/
def Expr.Logical (ρ : Valuation K) (env : Env K) (e : Expr (Exact K)) : Prop :=
  ∀ x ∈ e.nodes, ∀ a b, x = .and a b ∨ x = .or a b → IsTruth (a.value ρ env) ∧ IsTruth (b.value ρ env)

theorem Expr.Neat.strict {vars rvars : List Name} {T : Target → Prop} {ρ : Valuation K} {env : Env K}
    {e : Expr (Exact K)} (neat : e.Neat vars rvars T) (logical : e.Logical ρ env) :
    e.Plain ρ env (Atom.Among vars rvars T False) := by
  intro x mem
  have plain := neat ρ env x mem
  cases x with
  | and a b => exact Or.inr (logical _ mem a b (Or.inl rfl))
  | or a b => exact Or.inr (logical _ mem a b (Or.inr rfl))
  | _ => exact plain

theorem Expr.Plain.logical {vars rvars : List Name} {T : Target → Prop} {ρ : Valuation K} {env : Env K}
    {e : Expr (Exact K)} (plain : e.Plain ρ env (Atom.Among vars rvars T False)) : e.Logical ρ env := by
  rintro x mem a b (rfl | rfl)
  · exact (plain _ mem).resolve_left id
  · exact (plain _ mem).resolve_left id

namespace Graph

variable {g : Graph (Exact K)} {ρ : Valuation K} {s : Schedule} {f root : FuncId} {D : Domain}
  {d : Definition (Exact K)} {t : Target} {p q : List Int}

/-- No scheduled func has updates; values are made of numbers, the distinct arguments of their func, and reads with as
many index arguments as their target has dimensions. -/
structure Pointwise (g : Graph (Exact K)) (s : Schedule) : Prop where
  updates {f : FuncId} : f ∈ s.funcs → (g.func f).updates = []
  init {f : FuncId} {d : Definition (Exact K)} : f ∈ s.funcs → (g.func f).init = some d →
    d.lhs = (g.func f).argExprs ∧ d.rdom = none
  distinct {f : FuncId} : f ∈ s.funcs → (g.func f).args.Nodup
  neat {f : FuncId} {d : Definition (Exact K)} : f ∈ s.funcs → (g.func f).init = some d →
    d.value.Neat (g.func f).args [] fun _ => True
  fit {f : FuncId} : f ∈ s.funcs → g.ReadsFit f

/-- Wherever a value is demanded, operands of logic are truth values, and index arguments take logarithms of positive
numbers and square roots of numbers that are not negative. -/
structure Sensible (g : Graph (Exact K)) (ρ : Valuation K) (root : FuncId) (D : Domain) : Prop where
  logical {f : FuncId} {d : Definition (Exact K)} {p : List Int} : g.Demanded ρ root D (.func f) p →
    (g.func f).init = some d → d.value.Logical ρ ⟨coordinates (Exact K) (g.func f).args p, []⟩
  regular {f : FuncId} {d : Definition (Exact K)} {p : List Int} : g.Demanded ρ root D (.func f) p →
    (g.func f).init = some d → d.value.RegularIndices ρ ⟨coordinates (Exact K) (g.func f).args p, []⟩

theorem Demanded.length (order : g.schedule root = .ok s) (pointwise : g.Pointwise s)
    (dims : D.dims = (g.func root).dims) (h : g.Demanded ρ root D t q) : q.length = g.dimsOf t := by
  refine h.invariant (fun t q => q.length = g.dimsOf t)
    (fun p mem => (Domain.length_of_mem_points mem).trans dims) fun f d p t q demanded _ init performs => ?_
  obtain ⟨r, mem, rfl, rfl⟩ := performs.read_mem
  refine (List.length_map _).trans ?_
  exact pointwise.fit (demanded.lists order) .initial d (Func.mem_definitions_init init) r (Definition.mem_reads_value mem)

theorem Pointwise.neat_lists (pointwise : g.Pointwise s) (ordered : s.Ordered g) (mem : f ∈ s.funcs)
    (init : (g.func f).init = some d) : d.value.Neat (g.func f).args [] s.Lists :=
  (pointwise.neat mem init).of_reads fun _ read => ordered.lists mem (Func.reads_initial init read)

variable [IsStrictOrderedRing K] in
theorem mem_region_of_demanded {regions : Regions} (order : g.schedule root = .ok s) (pointwise : g.Pointwise s)
    (sensible : g.Sensible ρ root D) (dims : D.dims = (g.func root).dims)
    (inferred : g.inferRegions s root D = .ok regions) (h : g.Demanded ρ root D (.func f) p) :
    p ∈ (regions.of g f).points := by
  obtain ⟨ordered, -⟩ := ordered_schedule order
  have writes : ∀ f ∈ s.funcs, g.WritesFit f := by
    intro f mem d listed
    rw [pointwise.updates mem] at listed
    cases listed
  obtain ⟨-, wanted, requested⟩ :=
    requested_of_inferRegions ordered dims (fun f mem => pointwise.fit mem) writes inferred
  refine h.invariant (fun t q => ∀ f, t = .func f → q ∈ (regions.of g f).points) ?_ ?_ f rfl
  · rintro p mem _ ⟨⟩
    exact wanted p mem
  rintro f d p _ q demanded inside init performs h rfl
  have mem : f ∈ s.funcs := demanded.lists order
  have other : h ≠ f := by
    rintro rfl
    exact ordered.layered.initial mem (reads_of_performs init performs)
  have binds := Scope.binds_of_mem (pointwise.distinct mem) (pointwise.init mem init).2 (inside f rfl)
  obtain ⟨x, r, visit, read, target, rfl⟩ := performs
  exact (requested f mem .initial d (Func.mem_definitions_init init)).covers binds
    (List.mem_append_right _ (List.mem_singleton.mpr rfl))
    ((pointwise.neat mem init).strict (sensible.logical demanded init)) other visit read target
    (sensible.regular demanded init x r visit read)

end Graph

end Pointwise

end ArrayDiff
