import Mathlib.Algebra.BigOperators.Ring.List
import ArrayDiff.Proofs.Agreement
import ArrayDiff.Proofs.Pending

/-!
# What an update sends along its reads

Along each of its reads an iteration sends the adjoint of the position that it writes, times the slope of the read.
Taken together these pair with the changes of what is read like the adjoint with the derivative of the new value
(`Sweep.Sound.pairing`).
-/

open ArrayDiff.Expr

namespace ArrayDiff

variable {K : Type} [Field K] [LinearOrder K] [FloorRing K] [Transcendental K]

omit [LinearOrder K] [FloorRing K] [Transcendental K] in
theorem sum_filter_add {A : Type} (l : List A) (c : A → Prop) [DecidablePred c] (w : A → K) :
    (l.map w).sum = ((l.filter (c ·)).map w).sum + (l.map fun a => if c a then 0 else w a).sum := by
  induction l with
  | nil => simp
  | cons a l ih =>
    rw [List.map_cons, List.sum_cons, ih]
    by_cases own : c a
    · simp [own, add_assoc]
    · simp [own, add_left_comm]

namespace Sweep

/-- What an iteration sends along one of its reads, with values of the func taken from `copy`. -/
def Step.sent (t : Step (Exact K)) (copy : FuncId) (p : Partial (Exact K)) : Expr (Exact K) :=
  Smart.mul (p.slope.redirect t.func copy) (.call t.adjoint t.definition.lhs)

/-- The values that an update sees: those of `copy` for its own func. -/
def Step.seen (t : Step (Exact K)) (ρ : Valuation K) (copy : FuncId) : Valuation K := ρ.set t.func (ρ.call copy)

/-- The change of the new value that is due to other targets. -/
def Step.others (t : Step (Exact K)) (ρ : Valuation K) (copy : FuncId) (τ : Target → List Int → K) (env : Env K) : K :=
  (t.partials.map fun p => if p.read.target = .func t.func then 0
    else p.slope.value (t.seen ρ copy) env * τ p.read.target (position ρ env p.read.args)).sum

/-- An update with distinct names and right arities that is evaluated without fault over the region of its func. No
position is looked up in the func itself. -/
structure Sound (s : Sweep (Exact K)) (t : Step (Exact K)) (ρ : Valuation K) (copy : FuncId) (T : Target → Prop) :
    Prop where
  args : (s.source.func t.func).args.Nodup
  dims : (s.regionOf (.func t.func)).dims = (s.source.func t.func).args.length
  names : (namesOf t.definition.rdom).Nodup
  placed : Placed (s.source.func t.func).args (namesOf t.definition.rdom) T t.definition.lhs
  fresh : ∀ x ∈ t.definition.pureVars, scatterVar (s.source.func t.func) x ∉ namesOf t.definition.rdom
  neat : t.definition.value.Neat t.definition.pureVars (namesOf t.definition.rdom) T
  made : T (.func t.adjoint)
  copied : T (.func copy)
  arity : ∀ r ∈ t.definition.value.reads, r.args.length = (s.source.argsOf r.target).length
  targets : ∀ r ∈ t.definition.value.reads, (s.source.argsOf r.target).Nodup
  regions : ∀ r ∈ t.definition.value.reads, (s.regionOf r.target).dims = (s.source.argsOf r.target).length
  position : ∀ e ∈ t.definition.lhs, e.readsTarget (.func t.func) = false
  indices : ∀ r ∈ t.definition.value.reads, ∀ a ∈ r.args, a.readsTarget (.func t.func) = false
  plain : ∀ env ∈ (t.definition.iterations (s.regionOf (.func t.func)) : List (Env K)),
    ∀ e ∈ t.definition.value :: t.definition.lhs, e.Plain (t.seen ρ copy) env (t.definition.Bound T)
  inside : ∀ env ∈ (t.definition.iterations (s.regionOf (.func t.func)) : List (Env K)),
    Expr.position ρ env t.definition.lhs ∈ (s.regionOf (.func t.func)).points
  performed : ∀ env ∈ (t.definition.iterations (s.regionOf (.func t.func)) : List (Env K)), ∀ u p,
    t.definition.value.Performs (t.seen ρ copy) env u p → p ∈ (s.regionOf u).points

namespace Sound

variable {s s' : Sweep (Exact K)} {t : Step (Exact K)} {ρ : Valuation K} {copy : FuncId} {T : Target → Prop} {env : Env K}
  {p : Partial (Exact K)} {τ : Target → List Int → K}

theorem transfer (h : s.Sound t ρ copy T) (source : s'.source = s.source) (regions : s'.regions = s.regions) :
    s'.Sound t ρ copy T := by
  obtain ⟨source, regions, extension, terms, slots, progress⟩ := s
  obtain ⟨source', regions', extension', terms', slots', progress'⟩ := s'
  obtain rfl := source
  obtain rfl := regions
  exact ⟨h.args, h.dims, h.names, h.placed, h.fresh, h.neat, h.made, h.copied, h.arity, h.targets, h.regions, h.position,
    h.indices, h.plain, h.inside, h.performed⟩

theorem position_seen {args : List (Expr (Exact K))} (unread : ∀ a ∈ args, a.readsTarget (.func t.func) = false) :
    Expr.position (t.seen ρ copy) env args = Expr.position ρ env args := position_set_of_not_reads unread _

theorem plain_redirect (h : s.Sound t ρ copy T) {e : Expr (Exact K)}
    (plain : e.Plain (t.seen ρ copy) env (t.definition.Bound T)) :
    (e.redirect t.func copy).Plain ρ env (t.definition.Bound T) := by
  have known : ∀ u, t.definition.Bound T (.target u) →
      t.definition.Bound T (.target (if u = .func t.func then .func copy else u)) := by
    intro u known
    split
    · exact h.copied
    · exact known
  exact ((Represents.of_plain plain).redirect (fun _ mem => mem) (fun _ mem => mem) known fun logic => logic).plain

theorem plain_of_seen (h : s.Sound t ρ copy T) {e : Expr (Exact K)} (unread : e.readsTarget (.func t.func) = false)
    (plain : e.Plain (t.seen ρ copy) env (t.definition.Bound T)) : e.Plain ρ env (t.definition.Bound T) := by
  rw [← redirect_of_not_reads (g := copy) unread]
  exact h.plain_redirect plain

theorem read_mem (mem : p ∈ t.partials) : p.read ∈ t.definition.value.reads := read_mem_of_mem_partials mem

theorem unread (h : s.Sound t ρ copy T) (mem : p ∈ t.partials) :
    ∀ a ∈ p.read.args, a.readsTarget (.func t.func) = false := h.indices p.read (read_mem mem)

theorem plain_lhs (h : s.Sound t ρ copy T)
    (listed : env ∈ (t.definition.iterations (s.regionOf (.func t.func)) : List (Env K))) :
    ∀ e ∈ t.definition.lhs, e.Plain ρ env (t.definition.Bound T) := by
  intro e mem
  exact h.plain_of_seen (h.position e mem) (h.plain env listed e (List.mem_cons_of_mem _ mem))

theorem plain_args (h : s.Sound t ρ copy T)
    (listed : env ∈ (t.definition.iterations (s.regionOf (.func t.func)) : List (Env K))) {r : Read (Exact K)}
    (mem : r ∈ t.definition.value.reads) : ∀ a ∈ r.args, a.Plain ρ env (t.definition.Bound T) := by
  intro a arg
  obtain ⟨x, node, read⟩ := List.mem_filterMap.mp mem
  have inner : a ∈ t.definition.value.nodes := nodes_trans (mem_nodes_of_mem_args read arg) node
  exact h.plain_of_seen (h.indices r mem a arg) ((h.plain env listed _ List.mem_cons_self).of_mem_nodes inner)

theorem collected (h : s.Sound t ρ copy T)
    (listed : env ∈ (t.definition.iterations (s.regionOf (.func t.func)) : List (Env K)))
    (τ : Target → List Int → K) :
    Collected (t.seen ρ copy) env τ (t.definition.Bound T) (t.definition.value.Performs (t.seen ρ copy) env) t.partials
      (t.definition.value.derivative (t.seen ρ copy) env τ) :=
  collected_partials τ (fun logic => logic) (h.plain env listed _ List.mem_cons_self)

theorem neat_slope (h : s.Sound t ρ copy T) (mem : p ∈ t.partials) :
    (p.slope.redirect t.func copy).Neat t.definition.pureVars (namesOf t.definition.rdom) T :=
  (h.neat.partials p mem).redirect h.copied

theorem neat_call (h : s.Sound t ρ copy T) : (Expr.call t.adjoint t.definition.lhs).Neat t.definition.pureVars
    (namesOf t.definition.rdom) T := Expr.Neat.call h.made h.placed.neat

theorem value_sent (h : s.Sound t ρ copy T) (mem : p ∈ t.partials) (env : Env K) : (t.sent copy p).value ρ env =
    p.slope.value (t.seen ρ copy) env * ρ.call t.adjoint (Expr.position ρ env t.definition.lhs) := by
  unfold Step.sent
  rw [(h.neat_slope mem).value_mul h.neat_call, value_redirect, value_call]
  rfl

/-- Whatever an iteration sends arrives inside the region of what it reads. -/
theorem sent (h : s.Sound t ρ copy T) (mem : p ∈ t.partials) :
    s.Sent ρ T t.func t.definition t.adjoint p.read.target p.read.args (t.sent copy p) := by
  have read := read_mem mem
  constructor
  · refine ⟨h.placed, h.args, h.dims, fun {x} own => h.fresh x own, h.arity _ read, h.targets _ read, ?_, ?_⟩
    · exact fun a arg => h.neat.of_mem_reads read a arg
    · exact (h.neat_slope mem).mul h.neat_call
  · refine ⟨Multiple.mul _, fun listed => h.plain_lhs listed, fun listed _ => ?_⟩
    have collected := h.collected listed fun _ _ => 0
    constructor
    · have slope := Represents.of_plain (h.plain_redirect (collected.slope p mem))
      have call := (plain_call ρ _ (t.definition.Bound T) t.adjoint t.definition.lhs).mpr ⟨h.made, h.plain_lhs listed⟩
      exact (Smart.represents_mul slope (Represents.of_plain call)).plain
    · exact h.plain_args listed read
  · exact h.regions _ read
  · intro env listed nonzero
    rw [h.value_sent mem] at nonzero
    have performs := (h.collected listed fun _ _ => 0).justified p mem (left_ne_zero_of_mul nonzero)
    have read := h.performed env listed _ _ performs
    rwa [position_seen (h.unread mem)] at read

theorem pairing (h : s.Sound t ρ copy T)
    (listed : env ∈ (t.definition.iterations (s.regionOf (.func t.func)) : List (Env K))) :
    ρ.call t.adjoint (Expr.position ρ env t.definition.lhs) *
        t.definition.value.derivative (t.seen ρ copy) env τ =
      (t.selfPartials.map fun p =>
        (t.sent copy p).value ρ env * τ (.func t.func) (Expr.position ρ env p.read.args)).sum +
      ρ.call t.adjoint (Expr.position ρ env t.definition.lhs) * t.others ρ copy τ env := by
  have paired := (h.collected listed τ).pairing
  unfold Expr.pairing at paired
  rw [← paired, sum_filter_add t.partials (fun p => p.read.target = .func t.func), mul_add]
  congr 1
  · rw [← List.sum_map_mul_left]
    refine congrArg List.sum (List.map_congr_left fun p mem => ?_)
    obtain ⟨mem, self⟩ := List.mem_filter.mp mem
    rw [h.value_sent mem, position_seen (h.unread mem), of_decide_eq_true self]
    ring
  · unfold Step.others
    congr 2
    refine List.map_congr_left fun p mem => ?_
    rw [position_seen (h.unread mem)]

omit [Field K] [LinearOrder K] [FloorRing K] [Transcendental K] in
theorem priorKey_ne_keyOf {targets : List Target} (own : .func t.func ∉ targets) :
    ∀ u ∈ targets, t.priorKey ≠ s.source.keyOf u := by
  intro u mem same
  have target : Target.func t.func = u := by
    rw [← s.source.keyOf_target u, ← same]
    rfl
  exact own (target ▸ mem)

theorem others_congr {τ' : Target → List Int → K} (same : ∀ u, u ≠ .func t.func → τ' u = τ u) (env : Env K) :
    t.others ρ copy τ' env = t.others ρ copy τ env := by
  unfold Step.others
  refine congrArg List.sum (List.map_congr_left fun p _ => ?_)
  split
  · rfl
  · rename_i other
    rw [same _ other]

variable [IsStrictOrderedRing K] in
/-- The contributions to other targets raise the balance by what the written positions make of their changes. -/
theorem balance_passOn (h : s.Sound t ρ copy T) {targets : List Target} (distinct : targets.Nodup)
    (known : ∀ p ∈ t.partials, p.read.target ≠ .func t.func → p.read.target ∈ targets) :
    (s.passOn t.func t.definition t.partials (.call t.adjoint t.definition.lhs) copy).balance ρ τ targets =
      s.balance ρ τ targets + ((t.definition.iterations (s.regionOf (.func t.func))).map fun env =>
        ρ.call t.adjoint (Expr.position ρ env t.definition.lhs) * t.others ρ copy τ env).sum := by
  rw [Sweep.balance_passOn (fun p mem other => ⟨known p mem other, h.sent mem⟩) distinct]
  congr 1
  have swapped : ((t.definition.iterations (s.regionOf (.func t.func)) : List (Env K)).map fun env =>
      ρ.call t.adjoint (Expr.position ρ env t.definition.lhs) * t.others ρ copy τ env) =
      (t.definition.iterations (s.regionOf (.func t.func))).map fun env =>
        (t.partials.map fun p => if p.read.target = .func t.func then 0
          else (t.sent copy p).value ρ env * τ p.read.target (Expr.position ρ env p.read.args)).sum := by
    refine List.map_congr_left fun env _ => ?_
    unfold Step.others
    rw [← List.sum_map_mul_left]
    refine congrArg List.sum (List.map_congr_left fun p mem => ?_)
    rw [h.value_sent mem]
    split
    · exact mul_zero _
    · ring
  rw [swapped, sum_exchange]
  refine congrArg List.sum (List.map_congr_left fun p mem => ?_)
  split
  · simp
  · rfl

end Sound

/-! ### Contributions to one key -/

variable {s s' : Sweep (Exact K)} {ρ : Valuation K} {key k : Key} {f : FuncId} {d : Definition (Exact K)}
  {T : Target → Prop} {adj : FuncId} {q : List Int}

/-- The contributions of some reads of a definition to one key. -/
def passBack (s : Sweep (Exact K)) (key : Key) (f : FuncId) (d : Definition (Exact K)) (ps : List (Partial (Exact K)))
    (v : Partial (Exact K) → Expr (Exact K)) : Sweep (Exact K) :=
  ps.foldl (fun s p => s.contribute key f d p.read.args (v p)) s

theorem beside_passBack {ps : List (Partial (Exact K))} {v : Partial (Exact K) → Expr (Exact K)} :
    s.Beside (s.passBack key f d ps v) := by
  induction ps generalizing s with
  | nil => exact Beside.refl s
  | cons p ps ih => exact beside_contribute.trans ih

theorem pending_passBack {ps : List (Partial (Exact K))} {v : Partial (Exact K) → Expr (Exact K)} (other : key ≠ k) :
    (s.passBack key f d ps v).pending k = s.pending k := by
  induction ps generalizing s with
  | nil => rfl
  | cons p ps ih =>
    refine (ih (s := s.contribute key f d p.read.args (v p))).trans ?_
    rw [pending_contribute, if_neg other, List.append_nil]

variable [IsStrictOrderedRing K] in
theorem collected_passBack {ps : List (Partial (Exact K))} {v : Partial (Exact K) → Expr (Exact K)}
    (sent : ∀ p ∈ ps, s.Sent ρ T f d adj key.target p.read.args (v p))
    (length : q.length = (s.source.argsOf key.target).length) :
    (s.passBack key f d ps v).collected ρ key q = s.collected ρ key q +
      (ps.map fun p => d.spread ρ (s.regionOf (.func f)) p.read.args ((v p).value ρ) q).sum := by
  induction ps generalizing s with
  | nil => exact (add_zero _).symm
  | cons p ps ih =>
    have own := sent p List.mem_cons_self
    have beside : s.Beside (s.contribute key f d p.read.args (v p)) := beside_contribute
    have later := ih (fun p mem => (sent p (List.mem_cons_of_mem _ mem)).beside beside) (by rw [beside.source]; exact length)
    refine later.trans ?_
    rw [collected_contribute own.outlined own.carried length, if_pos rfl, beside.regionOf, List.map_cons, List.sum_cons,
      add_assoc]

theorem pending_passOn {ps : List (Partial (Exact K))} {adjoint : Expr (Exact K)} {copy : FuncId}
    (own : k.target = .func f) : (s.passOn f d ps adjoint copy).pending k = s.pending k := by
  induction ps generalizing s with
  | nil => rfl
  | cons p ps ih =>
    unfold passOn
    rw [List.foldl_cons]
    split
    · exact ih
    rename_i other
    refine ih.trans ?_
    have apart : s.source.keyOf p.read.target ≠ k := by
      intro same
      rw [← same, s.source.keyOf_target] at own
      exact other own
    rw [pending_contribute, if_neg apart, List.append_nil]

theorem collected_congr (source : s'.source = s.source) (pending : s'.pending k = s.pending k) :
    s'.collected ρ k = s.collected ρ k := by
  unfold collected
  rw [source, pending]

theorem balance_congr {τ : Target → List Int → K} {targets : List Target} (source : s'.source = s.source)
    (regions : s'.regions = s.regions)
    (pending : ∀ u ∈ targets, s'.pending (s.source.keyOf u) = s.pending (s.source.keyOf u)) :
    s'.balance ρ τ targets = s.balance ρ τ targets := by
  have region (u : Target) : s'.regionOf u = s.regionOf u := by
    unfold regionOf
    rw [source, regions]
  unfold balance
  rw [source]
  refine congrArg List.sum (List.map_congr_left fun u mem => ?_)
  rw [region, collected_congr source (pending u mem)]

end Sweep

end ArrayDiff
