import ArrayDiff.Proofs.Classification
import ArrayDiff.Proofs.Coordinates
import ArrayDiff.Proofs.Dual
import ArrayDiff.Proofs.Recurrence
import ArrayDiff.Proofs.Sending

/-!
# The adjoint of an update that overwrites

An update that is classified as overwriting writes every position once and reads its own func as it was before. The
adjoint of the values before is that of the values after, cleared at the written positions, plus what the self-reads send
back (`Sweep.Sound.overwrite_conserves`).
-/

open ArrayDiff.Expr

namespace ArrayDiff

variable {K : Type} [Field K] [LinearOrder K] [IsStrictOrderedRing K] [FloorRing K] [Transcendental K]

namespace Sweep

/-- The terms for the values before: the adjoint with the written positions cleared, unless all are written. -/
def keep (s : Sweep (Exact K)) (t : Step (Exact K)) : Sweep (Exact K) :=
  if t.definition.rdom.isSome || !Expr.sameList t.definition.lhs (s.source.func t.func).argExprs then
    (s.addTerm t.priorKey (.gather (.call t.adjoint (s.source.func t.func).argExprs))).addTerm t.priorKey
      (.mask t.definition.lhs t.definition.rdom)
  else s

variable {s s' : Sweep (Exact K)} {t : Step (Exact K)} {ρ : Valuation K} {copy : FuncId} {T : Target → Prop}

section

omit [IsStrictOrderedRing K]

theorem beside_keep : s.Beside (s.keep t) := by
  unfold keep
  split
  · exact beside_addTerm.trans beside_addTerm
  · exact Beside.refl s

theorem pending_keep {k : Key} (other : t.priorKey ≠ k) : (s.keep t).pending k = s.pending k := by
  unfold keep
  split
  · simp only [pending_addTerm, if_neg other, List.append_nil]
  · rfl

theorem overwrite_eq_ok (run : s.overwrite t = .ok s') :
    (t.definition.rdom = none ∨ t.definition.writesOnce = true) ∧
      s' = (((s.snapshot t.func t.prior).2.keep t).passBack t.priorKey t.func t.definition t.selfPartials
        (t.sent (s.snapshot t.func t.prior).1)).passOn t.func t.definition t.partials
        (.call t.adjoint t.definition.lhs) (s.snapshot t.func t.prior).1 := by
  unfold overwrite at run
  simp only at run
  split at run
  · cases run
  rename_i accepted
  constructor
  · cases reduced : t.definition.rdom with
    | none => exact Or.inl rfl
    | some rdom =>
      right
      simpa [reduced] using accepted
  · exact contributeReads_eq run

end

namespace Sound

section

omit [IsStrictOrderedRing K]

theorem length (h : s.Sound t ρ copy T) : t.definition.lhs.length = (s.regionOf (.func t.func)).dims :=
  h.placed.length_eq.symm.trans h.dims.symm

theorem nodup_pureVars (h : s.Sound t ρ copy T) : t.definition.pureVars.Nodup :=
  (sublist_of_aligned h.placed.aligned).nodup h.args

theorem writesOnce (h : s.Sound t ρ copy T) {rdom : ReductionDomain} (reduced : t.definition.rdom = some rdom)
    {written : List Coord} (once : t.definition.distinctPositions? = some written) :
    WritesOnce t.definition rdom written := by
  have names := h.names
  rw [reduced] at names
  exact ⟨reduced, names, once⟩

end

theorem pairwise_position (h : s.Sound t ρ copy T) (accepted : t.definition.rdom = none ∨ t.definition.writesOnce = true) :
    (t.definition.iterations (s.regionOf (.func t.func)) : List (Env K)).Pairwise fun x y =>
      Expr.position ρ x t.definition.lhs ≠ Expr.position ρ y t.definition.lhs := by
  cases reduced : t.definition.rdom with
  | none => exact Definition.pairwise_position_single h.length h.nodup_pureVars reduced _
  | some rdom =>
    have once : t.definition.writesOnce = true := accepted.resolve_left (by rw [reduced]; exact Option.some_ne_none _)
    obtain ⟨written, found⟩ := Option.isSome_iff_exists.mp once
    exact (h.writesOnce reduced found).pairwise_position h.length (fun logic => logic) fun env mem => h.plain_lhs mem

theorem pairwise_selfRead (h : s.Sound t ρ copy T) (kind : t.definition.kindFor t.func = .ok .overwrite)
    (reduced : t.definition.rdom.isSome = true) {r : Read (Exact K)} (mem : r ∈ t.definition.value.reads)
    (self : r.target = .func t.func) :
    (t.definition.iterations (s.regionOf (.func t.func)) : List (Env K)).Pairwise fun x y =>
      Expr.position ρ y r.args ≠ Expr.position ρ x t.definition.lhs := by
  obtain ⟨rdom, reduced⟩ := Option.isSome_iff_exists.mp reduced
  have listed : r.args ∈ selfReads t.func t.definition.value := mem_selfReads mem self
  obtain ⟨-, -, ⟨single | unread, -⟩ | ⟨rdom', same, classified⟩⟩ := kindFor_cases kind
  · rw [reduced] at single
    cases single
  · rw [unread] at listed
    cases listed
  obtain rfl := Option.some.inj (reduced.symm.trans same)
  cases classified with
  | overwrite once old =>
    have arity : r.args.length = t.definition.lhs.length := by
      rw [h.arity _ mem, self]
      exact h.placed.length_eq
    exact (h.writesOnce reduced once).pairwise_before h.length (fun logic => logic) arity
      (fun env inside => List.forall_mem_append.mpr ⟨h.plain_lhs inside, h.plain_args inside mem⟩) (old _ listed)

/-- In an overwriting update over dual numbers every iteration stores what follows from the storage before the update. -/
theorem foldl_dualStep (h : s.Sound t ρ copy T) (kind : t.definition.kindFor t.func = .ok .overwrite)
    (accepted : t.definition.rdom = none ∨ t.definition.writesOnce = true) (τ : Target → List Int → K)
    (S : List Int → K × K) :
    (∀ env ∈ (t.definition.iterations (s.regionOf (.func t.func)) : List (Env K)),
      (t.definition.iterations (s.regionOf (.func t.func))).foldl (t.definition.dualStep t.func ρ τ S) S
        (Expr.position ρ env t.definition.lhs) = t.definition.dual t.func ρ τ S env) ∧
    ∀ q, q ∉ (t.definition.iterations (s.regionOf (.func t.func)) : List (Env K)).map
        (fun env => Expr.position ρ env t.definition.lhs) →
      (t.definition.iterations (s.regionOf (.func t.func))).foldl (t.definition.dualStep t.func ρ τ S) S q = S q := by
  let new (F : List Int → K × K) (env : Env K) : K × K :=
    t.definition.dual t.func ρ τ (if t.definition.rdom.isSome then F else S) env
  have step : t.definition.dualStep t.func ρ τ S = fun F env =>
      Function.update F (Expr.position ρ env t.definition.lhs) (new F env) := by
    funext F env
    have there : Expr.position (ρ.set t.func fun q => ((if t.definition.rdom.isSome then F else S) q).1) env
        t.definition.lhs = Expr.position ρ env t.definition.lhs := position_set_of_not_reads h.position _
    rw [← there]
    rfl
  have old : (t.definition.iterations (s.regionOf (.func t.func)) : List (Env K)).Pairwise fun x y =>
      ∀ F v, new (Function.update F (Expr.position ρ x t.definition.lhs) v) y = new F y := by
    by_cases reduced : t.definition.rdom.isSome = true
    · have apart : (t.definition.iterations (s.regionOf (.func t.func)) : List (Env K)).Pairwise fun x y =>
          ∀ r ∈ t.definition.value.reads, r.target = .func t.func →
            Expr.position ρ y r.args ≠ Expr.position ρ x t.definition.lhs := by
        refine List.pairwise_iff_forall_sublist.mpr fun {x y} sub r mem self => ?_
        exact List.pairwise_iff_forall_sublist.mp (h.pairwise_selfRead kind reduced mem self) sub
      refine apart.imp fun {x y} unseen F v => ?_
      simp only [new, if_pos reduced]
      refine Definition.dual_congr fun r mem self => ?_
      rw [position_set_of_not_reads (h.indices r mem)]
      exact Function.update_of_ne (unseen r mem self) _ _
    · refine List.pairwise_of_forall fun x y F v => ?_
      simp only [new, if_neg reduced]
  rw [step]
  constructor
  · intro env mem
    have stored := foldl_update (h.pairwise_position accepted) old S env mem
    simpa only [new, ite_self] using stored
  · exact fun q off => foldl_update_of_not_mem off S

/-! ### The adjoint of the values before -/

theorem collected_keep (h : s.Sound t ρ copy T) (empty : s.pending t.priorKey = []) {q : List Int}
    (mem : q ∈ (s.regionOf (.func t.func)).points) : (s.keep t).collected ρ t.priorKey q =
      if q ∈ (t.definition.iterations (s.regionOf (.func t.func)) : List (Env K)).map
        (fun env => Expr.position ρ env t.definition.lhs) then 0 else ρ.call t.adjoint q := by
  have length : q.length = (s.source.func t.func).args.length := (Domain.length_of_mem_points mem).trans h.dims
  unfold keep
  split
  · have made : ((s.addTerm t.priorKey (.gather (.call t.adjoint (s.source.func t.func).argExprs))).addTerm t.priorKey
        (.mask t.definition.lhs t.definition.rdom)).pending t.priorKey =
        [.gather (.call t.adjoint (s.source.func t.func).argExprs), .mask t.definition.lhs t.definition.rdom] := by
      rw [pending_addTerm, pending_addTerm, empty, if_pos rfl, if_pos rfl]
      rfl
    unfold Sweep.collected
    rw [made]
    change Term.run ρ (s.source.func t.func).args _ (.mask t.definition.lhs t.definition.rdom) q = _
    rw [Term.run_mask h.placed.aligned h.args h.dims _ mem]
    change (if _ then 0 else Term.run ρ (s.source.func t.func).args (fun _ => 0)
      (.gather (.call t.adjoint (s.source.func t.func).argExprs)) q) = _
    unfold Func.argExprs
    rw [Term.run_gather_call h.args _ _ length, zero_add]
  · rename_i all
    rw [Bool.or_eq_true, not_or, Bool.not_eq_true, Bool.not_eq_true, Bool.not_eq_false'] at all
    obtain ⟨single, same⟩ := all
    have lhs : t.definition.lhs = (s.source.func t.func).args.map .var := eq_args_of_sameList same
    rw [iterations_args lhs (Option.not_isSome_iff_eq_none.mp (by simp [single])) h.dims, if_pos]
    · unfold Sweep.collected
      rw [empty]
      rfl
    · rw [List.map_map]
      refine List.mem_map.mpr ⟨q, mem, ?_⟩
      rw [Function.comp_apply, lhs]
      exact position_args h.args length []

omit [IsStrictOrderedRing K] in
/-- What the self-reads send back pairs with the changes before the update like the part of the new changes that is due
to them. -/
theorem pairing_passBack (h : s.Sound t ρ copy T) (prev : List Int → K) :
    ((s.regionOf (.func t.func)).points.map fun q => (t.selfPartials.map fun p =>
      t.definition.spread ρ (s.regionOf (.func t.func)) p.read.args ((t.sent copy p).value ρ) q).sum * prev q).sum =
      ((t.definition.iterations (s.regionOf (.func t.func))).map fun env => (t.selfPartials.map fun p =>
        (t.sent copy p).value ρ env * prev (Expr.position ρ env p.read.args)).sum).sum := by
  rw [sum_exchange]
  have inside : ∀ p ∈ t.selfPartials, ∀ env ∈ (t.definition.iterations (s.regionOf (.func t.func)) : List (Env K)),
      (t.sent copy p).value ρ env ≠ 0 → Expr.position ρ env p.read.args ∈ (s.regionOf (.func t.func)).points := by
    intro p mem env listed nonzero
    obtain ⟨mem, self⟩ := List.mem_filter.mp mem
    have sent := (h.sent mem).inside listed nonzero
    rwa [of_decide_eq_true self] at sent
  have single : ∀ p ∈ t.selfPartials, _ := fun p mem => sum_spread (Domain.nodup_points _) (inside p mem) prev
  rw [← List.map_congr_left single, ← sum_exchange]
  refine congrArg List.sum (List.map_congr_left fun q _ => ?_)
  rw [← List.sum_map_mul_right]
  rfl

theorem collected_overwrite (h : s.Sound t ρ copy T) (copied : (s.snapshot t.func t.prior).1 = copy)
    (run : s.overwrite t = .ok s') (empty : s.pending t.priorKey = []) {q : List Int}
    (mem : q ∈ (s.regionOf (.func t.func)).points) : s'.collected ρ t.priorKey q =
      (if q ∈ (t.definition.iterations (s.regionOf (.func t.func)) : List (Env K)).map
        (fun env => Expr.position ρ env t.definition.lhs) then 0 else ρ.call t.adjoint q) +
      (t.selfPartials.map fun p =>
        t.definition.spread ρ (s.regionOf (.func t.func)) p.read.args ((t.sent copy p).value ρ) q).sum := by
  obtain ⟨-, rfl⟩ := overwrite_eq_ok run
  rw [copied]
  let s₀ := (s.snapshot t.func t.prior).2
  have h₀ : s₀.Sound t ρ copy T := h.transfer rfl rfl
  have self : ∀ p ∈ t.selfPartials,
      (s₀.keep t).Sent ρ T t.func t.definition t.adjoint t.priorKey.target p.read.args (t.sent copy p) := by
    intro p mem
    obtain ⟨mem, self⟩ := List.mem_filter.mp mem
    have sent := (h₀.transfer (beside_keep (t := t)).source beside_keep.regions).sent mem
    rwa [of_decide_eq_true self] at sent
  rw [collected_congr beside_passOn.source (pending_passOn rfl), collected_passBack self, h₀.collected_keep empty mem,
    beside_keep.regionOf]
  · rfl
  · rw [beside_keep.source]
    exact (Domain.length_of_mem_points mem).trans h.dims

omit [IsStrictOrderedRing K] in
/-- What the written positions make of the new changes: a part that is due to the values before, and one that is due to
other targets. -/
theorem pairing_dual (h : s.Sound t ρ copy T) (τ : Target → List Int → K) (prev : List Int → K) :
    ((t.definition.iterations (s.regionOf (.func t.func))).map fun env =>
      ρ.call t.adjoint (Expr.position ρ env t.definition.lhs) *
        (t.definition.dual t.func ρ τ (fun q => (ρ.call copy q, prev q)) env).2).sum =
      ((s.regionOf (.func t.func)).points.map fun q => (t.selfPartials.map fun p =>
        t.definition.spread ρ (s.regionOf (.func t.func)) p.read.args ((t.sent copy p).value ρ) q).sum * prev q).sum +
      ((t.definition.iterations (s.regionOf (.func t.func))).map fun env =>
        ρ.call t.adjoint (Expr.position ρ env t.definition.lhs) * t.others ρ copy τ env).sum := by
  rw [h.pairing_passBack, ← List.sum_map_add]
  refine congrArg List.sum (List.map_congr_left fun env listed => ?_)
  have paired := h.pairing listed (τ := moving t.func τ prev)
  rw [moving_self, others_congr fun u other => moving_of_ne other τ prev] at paired
  exact paired

theorem balance_overwrite (h : s.Sound t ρ copy T) (copied : (s.snapshot t.func t.prior).1 = copy)
    (run : s.overwrite t = .ok s') {targets : List Target} (distinct : targets.Nodup) (own : .func t.func ∉ targets)
    (known : ∀ p ∈ t.partials, p.read.target ≠ .func t.func → p.read.target ∈ targets)
    (τ : Target → List Int → K) : s'.balance ρ τ targets = s.balance ρ τ targets +
      ((t.definition.iterations (s.regionOf (.func t.func))).map fun env =>
        ρ.call t.adjoint (Expr.position ρ env t.definition.lhs) * t.others ρ copy τ env).sum := by
  obtain ⟨-, rfl⟩ := overwrite_eq_ok run
  rw [copied]
  let s₀ := (s.snapshot t.func t.prior).2
  let s₂ := (s₀.keep t).passBack t.priorKey t.func t.definition t.selfPartials (t.sent copy)
  have beside : s₀.Beside s₂ := beside_keep.trans beside_passBack
  have h₂ : s₂.Sound t ρ copy T := h.transfer beside.source beside.regions
  have unchanged : s₂.balance ρ τ targets = s.balance ρ τ targets := by
    refine balance_congr beside.source beside.regions fun u mem => ?_
    have other : t.priorKey ≠ s₀.source.keyOf u := priorKey_ne_keyOf own u mem
    exact (pending_passBack other).trans (pending_keep other)
  have region : s₂.regionOf (.func t.func) = s.regionOf (.func t.func) := beside.regionOf _
  have sent := h₂.balance_passOn (τ := τ) distinct known
  rwa [unchanged, region] at sent

/-- An overwriting update keeps the pairing of adjoints with changes: what the adjoint of its stage makes of the changes
after it, the adjoint of the stage before and the contributions to other targets make of the changes before it and of
those of the other targets. -/
theorem overwrite_conserves (h : s.Sound t ρ copy T) (copied : (s.snapshot t.func t.prior).1 = copy)
    (kind : t.definition.kindFor t.func = .ok .overwrite) (run : s.overwrite t = .ok s')
    (empty : s.pending t.priorKey = []) (targets : List Target) (distinct : targets.Nodup)
    (own : .func t.func ∉ targets)
    (known : ∀ p ∈ t.partials, p.read.target ≠ .func t.func → p.read.target ∈ targets)
    (τ : Target → List Int → K) (prev : List Int → K) :
    ((s.regionOf (.func t.func)).points.map fun q => ρ.call t.adjoint q *
      ((t.definition.iterations (s.regionOf (.func t.func))).foldl
        (t.definition.dualStep t.func ρ τ fun q => (ρ.call copy q, prev q)) (fun q => (ρ.call copy q, prev q)) q).2).sum +
      s.balance ρ τ targets =
    ((s.regionOf (.func t.func)).points.map fun q => s'.collected ρ t.priorKey q * prev q).sum +
      s'.balance ρ τ targets := by
  have accepted := (overwrite_eq_ok run).1
  obtain ⟨written, kept⟩ := h.foldl_dualStep kind accepted τ fun q => (ρ.call copy q, prev q)
  -- the old changes survive where nothing is written
  have after := pairing_of_written (Domain.nodup_points (s.regionOf (.func t.func))) (h.pairwise_position accepted) h.inside
    (fun env mem => congrArg Prod.snd (written env mem)) (fun q off => congrArg Prod.snd (kept q off)) (ρ.call t.adjoint)
  have before : ((s.regionOf (.func t.func)).points.map fun q => s'.collected ρ t.priorKey q * prev q).sum =
      ((s.regionOf (.func t.func)).points.map fun q =>
        (if q ∈ (t.definition.iterations (s.regionOf (.func t.func)) : List (Env K)).map
          (fun env => Expr.position ρ env t.definition.lhs) then 0 else ρ.call t.adjoint q) * prev q).sum +
      ((s.regionOf (.func t.func)).points.map fun q => (t.selfPartials.map fun p =>
        t.definition.spread ρ (s.regionOf (.func t.func)) p.read.args ((t.sent copy p).value ρ) q).sum * prev q).sum := by
    rw [← List.sum_map_add]
    refine congrArg List.sum (List.map_congr_left fun q mem => ?_)
    rw [h.collected_overwrite copied run empty mem, add_mul]
  rw [after, before, h.pairing_dual, h.balance_overwrite copied run distinct own known]
  ring

end Sound

end Sweep

/-! ### An example -/

/-- `f(r) := f(r + 1) + b(r)` for `r` from 0 to 1. -/
def shifting : Sweep.Step (Exact ℚ) where
  func := ⟨0⟩
  stage := .update 0
  prior := .initial
  definition :=
    ⟨[.rvar "r"], .binary .add (.call ⟨0⟩ [.binary .add (.rvar "r") .one]) (.load ⟨0⟩ [.rvar "r"]),
      some ⟨[("r", ⟨0, 1⟩)]⟩⟩
  adjoint := ⟨2⟩

namespace shifting

def source : Sweep (Exact ℚ) :=
  .start ⟨#[⟨"f", ["x"], .user, some ⟨[.var "x"], .one, none⟩, [shifting.definition], none⟩],
    #[⟨"b", ⟨[⟨0, 1⟩]⟩⟩], #[], 0⟩ (Table.ofList [(⟨0⟩, ⟨[⟨0, 2⟩]⟩)])

theorem kind : shifting.definition.kindFor ⟨0⟩ = .ok .overwrite := rfl

def ones : Valuation ℚ := ⟨fun _ _ => 1, fun _ _ => 1, fun _ => 1⟩

theorem sound : source.Sound shifting ones ⟨1⟩ fun _ => True where
  args := by decide
  dims := by decide
  names := by decide
  placed := by
    refine .cons (Or.inr ?_) .nil
    intro ρ env
    simp [Atom.Among, namesOf, shifting, ReductionDomain.names]
  fresh := by decide
  neat := by
    intro ρ env
    simp [Atom.Among, namesOf, shifting, ReductionDomain.names, Expr.one, Exact.isNumber]
  made := trivial
  copied := trivial
  arity := by decide
  targets := by decide
  regions := by decide
  position := by decide
  indices := by decide
  plain := by
    intro env _ e mem
    simp only [shifting, List.mem_cons, List.not_mem_nil, or_false] at mem
    rcases mem with rfl | rfl
    · simp [Atom.Among, Definition.Bound, namesOf, shifting, ReductionDomain.names, Expr.one, Exact.isNumber]
    · simp [Atom.Among, Definition.Bound, namesOf, shifting, ReductionDomain.names]
  inside := by decide
  performed := by
    have reads : ∀ env ∈ (shifting.definition.iterations (source.regionOf (.func ⟨0⟩)) : List (Env ℚ)),
        ∀ r ∈ shifting.definition.value.reads,
          position (shifting.seen ones ⟨1⟩) env r.args ∈ (source.regionOf r.target).points := by
      decide +kernel
    intro env mem u p performs
    obtain ⟨r, listed, rfl, rfl⟩ := performs.mem_reads
    exact reads env mem r listed

/-- Changes 1, 1, 1 of the values and of the buffer make changes 2, 2, 1, and the pairing stays 5. -/
theorem sums_agree : ∃ s', source.overwrite shifting = .ok s' ∧
    2 + 2 + 1 = ((source.regionOf (.func ⟨0⟩)).points.map fun q => s'.collected ones shifting.priorKey q * 1).sum +
      s'.balance ones (fun _ _ => 1) [.buffer ⟨0⟩] := by
  have accepted : (source.overwrite shifting).toBool = true := by decide +kernel
  have after : ((source.regionOf (.func ⟨0⟩)).points.map fun q => ones.call shifting.adjoint q *
      ((shifting.definition.iterations (source.regionOf (.func ⟨0⟩))).foldl
        (shifting.definition.dualStep ⟨0⟩ ones (fun _ _ => 1) fun _ => (1, 1)) (fun _ => (1, 1)) q).2).sum +
      source.balance ones (fun _ _ => 1) [.buffer ⟨0⟩] = 2 + 2 + 1 := by
    decide +kernel
  cases run : source.overwrite shifting with
  | error e =>
    rw [run] at accepted
    cases accepted
  | ok s' =>
    have conserved := sound.overwrite_conserves (by decide) kind run rfl [.buffer ⟨0⟩]
      (by decide) (by decide) (by decide +kernel) (fun _ _ => 1) fun _ => 1
    exact ⟨s', rfl, after.symm.trans conserved⟩

end shifting

end ArrayDiff
