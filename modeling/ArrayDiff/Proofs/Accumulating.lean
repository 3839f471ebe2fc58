import ArrayDiff.Proofs.Overwriting

/-!
# The adjoint of an update that accumulates

An update in place reads its own func at the written position only. Where reverse mode accepts it, the old value enters
with slope 1 or not at all (`Sweep.derivative_inPlace`); if it enters, the adjoint of the values before is that of the
values after (`Sweep.Sound.accumulate_conserves`).
-/

open ArrayDiff.Expr

namespace ArrayDiff

variable {K : Type} [Field K] [LinearOrder K] [IsStrictOrderedRing K] [FloorRing K] [Transcendental K]

/-! ### Every read has one entry -/

section Entries

variable {κ : Type} [Scalar κ]

theorem pairwise_record {read : Read κ} {slope : Expr κ} {ps : List (Partial κ)}
    (distinct : ps.Pairwise fun p q => p.read.same q.read = false) :
    (Partial.record read slope ps).Pairwise fun p q => p.read.same q.read = false := by
  have reads (ps : List (Partial κ)) {P : Read κ → Prop} (old : ∀ q ∈ ps, P q.read) (new : P read) :
      ∀ q ∈ Partial.record read slope ps, P q.read := by
    intro q mem
    rcases mem_record mem with same | ⟨p, listed, same⟩
    · rwa [same]
    · rw [← same]
      exact old p listed
  induction ps with
  | nil => exact List.pairwise_singleton _ _
  | cons p ps ih =>
    obtain ⟨first, rest⟩ := List.pairwise_cons.mp distinct
    unfold Partial.record
    split
    · exact List.pairwise_cons.mpr ⟨first, rest⟩
    · rename_i other
      exact List.pairwise_cons.mpr ⟨reads ps (P := fun r => p.read.same r = false) first (by simpa using other), ih rest⟩

theorem pairwise_accumulate {e adjoint : Expr κ} {ps : List (Partial κ)}
    (distinct : ps.Pairwise fun p q => p.read.same q.read = false) :
    (e.accumulate adjoint ps).Pairwise fun p q => p.read.same q.read = false := by
  induction e generalizing adjoint ps with
  | const _ | var _ | rvar _ | compare _ _ _ _ _ | and _ _ _ _ | or _ _ _ _ | not _ _ =>
    simpa [Expr.accumulate] using distinct
  | param _ | call _ _ _ | load _ _ _ =>
    unfold Expr.accumulate
    split
    · exact distinct
    · exact pairwise_record distinct
  | unary op a ih =>
    unfold Expr.accumulate
    split
    · exact distinct
    · exact ih distinct
  | binary op a b iha ihb =>
    unfold Expr.accumulate
    split
    · exact distinct
    · exact ihb (iha distinct)
  | select c t f ihc iht ihf =>
    unfold Expr.accumulate
    split
    · exact distinct
    · exact ihf (iht distinct)

theorem pairwise_partials (e : Expr κ) : e.partials.Pairwise fun p q => p.read.same q.read = false :=
  (pairwise_accumulate List.Pairwise.nil).filter _

end Entries

namespace Sweep

variable {s s' : Sweep (Exact K)} {t : Step (Exact K)} {ρ : Valuation K} {copy : FuncId} {T : Target → Prop}
  {env : Env K} {τ : Target → List Int → K}

section

omit [IsStrictOrderedRing K]

theorem accumulate_eq_ok (run : s.accumulate t = .ok s') :
    (∀ p ∈ t.selfPartials, p.slope.simplify.isOne = true) ∧
    (∀ p ∈ t.partials, p.read.target ≠ .func t.func → p.slope.readsTarget (.func t.func) = false) ∧
    s' = (s.addTerm t.priorKey (.gather (.call t.adjoint (s.source.func t.func).argExprs))).passOn t.func t.definition
      t.partials (.call t.adjoint t.definition.lhs) t.func := by
  unfold accumulate at run
  simp only at run
  split at run
  · cases run
  rename_i additive
  split at run
  · cases run
  rename_i apart
  refine ⟨by simpa using additive, ?_, contributeReads_eq run⟩
  intro p mem other
  by_contra reads
  refine apart (List.any_eq_true.mpr ⟨p, mem, ?_⟩)
  rw [Bool.and_eq_true, decide_eq_true_eq]
  exact ⟨other, by simpa using reads⟩

/-- In an update in place at most one entry is about the func itself, and it reads the written position. -/
theorem selfPartials_inPlace (kind : t.definition.kindFor t.func = .ok .inPlace)
    (neat : ∀ e ∈ t.definition.lhs, e.Neat t.definition.pureVars (namesOf t.definition.rdom) T) :
    t.selfPartials = [] ∨ ∃ p, t.selfPartials = [p] ∧ p.read.args = t.definition.lhs := by
  have own : ∀ p ∈ t.selfPartials, p.read.target = .func t.func ∧ p.read.args = t.definition.lhs := by
    intro p mem
    obtain ⟨mem, self⟩ := List.mem_filter.mp mem
    have self := of_decide_eq_true self
    have listed := mem_selfReads (read_mem_of_mem_partials mem) self
    obtain ⟨-, -, ⟨-, other⟩ | ⟨rdom, -, classified⟩⟩ := kindFor_cases kind
    · cases other
    · cases classified with
      | inPlace own => exact ⟨self, eq_args_of_sameList (own _ listed)⟩
  have distinct : t.selfPartials.Pairwise fun p q => p.read.same q.read = false := (pairwise_partials _).filter _
  cases entries : t.selfPartials with
  | nil => exact Or.inl rfl
  | cons p ps =>
    right
    rw [entries] at own distinct
    obtain ⟨target, args⟩ := own p List.mem_cons_self
    cases ps with
    | nil => exact ⟨p, rfl, args⟩
    | cons q ps =>
      have other := (List.pairwise_cons.mp distinct).1 q List.mem_cons_self
      obtain ⟨target', args'⟩ := own q (List.mem_cons_of_mem _ List.mem_cons_self)
      let ρ : Valuation K := ⟨fun _ _ => 0, fun _ _ => 0, fun _ => 0⟩
      have again : p.read.same q.read = true := by
        unfold Read.same
        rw [target, target', args, args', sameList_self fun e mem => same_self (neat e mem ρ ⟨[], []⟩)]
        simp
      rw [other] at again
      cases again

/-- What the check of an update in place establishes: whatever the func holds, its old value enters with slope 1, or
with slope 0 if no entry is about it. -/
theorem derivative_inPlace (kind : t.definition.kindFor t.func = .ok .inPlace)
    (neat : ∀ e ∈ t.definition.lhs, e.Neat t.definition.pureVars (namesOf t.definition.rdom) T)
    (run : s.accumulate t = .ok s') {A : List Int → K} {Q : Atom → Prop} (strict : ¬Q .logic)
    (plain : t.definition.value.Plain (ρ.set t.func A) env Q) (τ : Target → List Int → K) :
    t.definition.value.derivative (ρ.set t.func A) env τ =
      (if t.selfPartials = [] then 0 else τ (.func t.func) (position (ρ.set t.func A) env t.definition.lhs)) +
      (t.partials.map fun p => if p.read.target = .func t.func then 0 else p.slope.value ρ env *
        τ p.read.target (position (ρ.set t.func A) env p.read.args)).sum := by
  obtain ⟨additive, apart, -⟩ := accumulate_eq_ok run
  have collected := collected_partials τ strict plain
  rw [← collected.pairing]
  unfold Expr.pairing
  rw [sum_filter_add t.definition.value.partials fun p => p.read.target = .func t.func]
  congr 1
  · change (t.selfPartials.map _).sum = _
    rcases selfPartials_inPlace kind neat with none | ⟨p, single, args⟩
    · rw [none, if_pos rfl]
      rfl
    · have mem : p ∈ t.selfPartials := by
        rw [single]
        exact List.mem_singleton.mpr rfl
      obtain ⟨listed, self⟩ := List.mem_filter.mp mem
      have one : p.slope.value (ρ.set t.func A) env = 1 := by
        have slope := (Represents.of_plain (collected.slope p listed)).simplify strict
        exact slope.of_isOne (additive p mem)
      rw [single, if_neg (by simp), List.map_singleton, List.sum_singleton, one, one_mul, args, of_decide_eq_true self]
  · refine congrArg List.sum (List.map_congr_left fun p mem => ?_)
    split
    · rfl
    · rename_i other
      rw [value_set_of_not_reads (apart p mem other)]

end

namespace Sound

omit [IsStrictOrderedRing K] in
theorem dualStep_accumulated (h : s.Sound t ρ t.func T) (kind : t.definition.kindFor t.func = .ok .inPlace)
    (run : s.accumulate t = .ok s') (additive : t.selfPartials ≠ [])
    (plain : ∀ A : List Int → K, t.definition.value.Plain (ρ.set t.func A) env (t.definition.Bound T))
    (τ : Target → List Int → K) (S F : List Int → K × K) :
    (fun q => (t.definition.dualStep t.func ρ τ S F env q).2) =
      Function.update (fun q => (F q).2) (Expr.position ρ env t.definition.lhs)
        ((F (Expr.position ρ env t.definition.lhs)).2 + t.others ρ t.func τ env) := by
  have reduced : t.definition.rdom.isSome = true := by
    obtain ⟨-, -, ⟨-, other⟩ | ⟨rdom, reduced, -⟩⟩ := kindFor_cases kind
    · cases other
    · rw [reduced]
      rfl
  obtain ⟨-, apart, -⟩ := accumulate_eq_ok run
  have change : (t.definition.dual t.func ρ τ F env).2 =
      (F (Expr.position ρ env t.definition.lhs)).2 + t.others ρ t.func τ env := by
    have derivative := derivative_inPlace kind h.placed.neat run (fun logic => logic) (plain fun q => (F q).1)
      (moving t.func τ fun q => (F q).2)
    rw [if_neg additive, moving_self, position_set_of_not_reads h.position] at derivative
    refine derivative.trans (congrArg ((F (Expr.position ρ env t.definition.lhs)).2 + ·) ?_)
    refine congrArg List.sum (List.map_congr_left fun p mem => ?_)
    split
    · rfl
    · rename_i other
      rw [moving_of_ne other, position_set_of_not_reads (h.unread mem)]
      unfold Step.seen
      rw [value_set_of_not_reads (apart p mem other)]
  funext q
  unfold Definition.dualStep
  simp only [if_pos reduced, position_set_of_not_reads h.position]
  by_cases own : q = Expr.position ρ env t.definition.lhs
  · rw [own, Function.update_self, Function.update_self]
    exact change
  · rw [Function.update_of_ne own, Function.update_of_ne own]

omit [IsStrictOrderedRing K] in
/-- Over dual numbers an accepted update in place adds the changes that are due to other targets. -/
theorem foldl_accumulated (h : s.Sound t ρ t.func T) (kind : t.definition.kindFor t.func = .ok .inPlace)
    (run : s.accumulate t = .ok s') (additive : t.selfPartials ≠ [])
    (plain : ∀ env ∈ (t.definition.iterations (s.regionOf (.func t.func)) : List (Env K)), ∀ A : List Int → K,
      t.definition.value.Plain (ρ.set t.func A) env (t.definition.Bound T))
    (τ : Target → List Int → K) (S : List Int → K × K) (q : List Int) :
    ((t.definition.iterations (s.regionOf (.func t.func))).foldl (t.definition.dualStep t.func ρ τ S) S q).2 =
      (S q).2 + t.definition.spread ρ (s.regionOf (.func t.func)) t.definition.lhs (t.others ρ t.func τ) q := by
  -- the changes alone form a loop, whatever the values do
  have changes : ∀ (l : List (Env K)) (F : List Int → K × K),
      (∀ env ∈ l, env ∈ (t.definition.iterations (s.regionOf (.func t.func)) : List (Env K))) →
      (fun q => (l.foldl (t.definition.dualStep t.func ρ τ S) F q).2) =
        l.foldl (fun F env => Function.update F (Expr.position ρ env t.definition.lhs)
          (F (Expr.position ρ env t.definition.lhs) + t.others ρ t.func τ env)) fun q => (F q).2 := by
    intro l
    induction l with
    | nil => exact fun F _ => rfl
    | cons env l ih =>
      intro F listed
      rw [List.foldl_cons, List.foldl_cons, ih _ fun env mem => listed env (List.mem_cons_of_mem _ mem),
        h.dualStep_accumulated kind run additive (plain env (listed env List.mem_cons_self))]
  exact (congrFun (changes _ S fun env mem => mem) q).trans (foldl_add _ _ (t.others ρ t.func τ) _ q)

theorem collected_accumulate (h : s.Sound t ρ copy T) (run : s.accumulate t = .ok s')
    (empty : s.pending t.priorKey = []) {q : List Int} (mem : q ∈ (s.regionOf (.func t.func)).points) :
    s'.collected ρ t.priorKey q = ρ.call t.adjoint q := by
  obtain ⟨-, -, rfl⟩ := accumulate_eq_ok run
  rw [collected_congr beside_passOn.source (pending_passOn rfl)]
  have made : (s.addTerm t.priorKey (.gather (.call t.adjoint (s.source.func t.func).argExprs))).pending t.priorKey =
      [.gather (.call t.adjoint (s.source.func t.func).argExprs)] := by
    rw [pending_addTerm, empty, if_pos rfl]
    rfl
  unfold Sweep.collected
  rw [made]
  have length : q.length = (s.source.func t.func).args.length := (Domain.length_of_mem_points mem).trans h.dims
  exact (Term.run_gather_call h.args _ (fun _ => 0) length).trans (zero_add _)

theorem balance_accumulate (h : s.Sound t ρ t.func T) (run : s.accumulate t = .ok s') {targets : List Target}
    (distinct : targets.Nodup) (own : .func t.func ∉ targets)
    (known : ∀ p ∈ t.partials, p.read.target ≠ .func t.func → p.read.target ∈ targets)
    (τ : Target → List Int → K) : s'.balance ρ τ targets = s.balance ρ τ targets +
      ((t.definition.iterations (s.regionOf (.func t.func))).map fun env =>
        ρ.call t.adjoint (Expr.position ρ env t.definition.lhs) * t.others ρ t.func τ env).sum := by
  obtain ⟨-, -, rfl⟩ := accumulate_eq_ok run
  let s₁ := s.addTerm t.priorKey (.gather (.call t.adjoint (s.source.func t.func).argExprs))
  have beside : s.Beside s₁ := beside_addTerm
  have h₁ : s₁.Sound t ρ t.func T := h.transfer beside.source beside.regions
  have unchanged : s₁.balance ρ τ targets = s.balance ρ τ targets := by
    refine balance_congr beside.source beside.regions fun u mem => ?_
    rw [pending_addTerm, if_neg (priorKey_ne_keyOf own u mem), List.append_nil]
  have sent := h₁.balance_passOn (τ := τ) distinct known
  rwa [unchanged, beside.regionOf] at sent

/-- An accepted update in place that its old value enters keeps the pairing of adjoints with changes. The adjoint of the
stage before is that of the stage. -/
theorem accumulate_conserves (h : s.Sound t ρ t.func T) (kind : t.definition.kindFor t.func = .ok .inPlace)
    (run : s.accumulate t = .ok s') (additive : t.selfPartials ≠ [])
    (plain : ∀ env ∈ (t.definition.iterations (s.regionOf (.func t.func)) : List (Env K)), ∀ A : List Int → K,
      t.definition.value.Plain (ρ.set t.func A) env (t.definition.Bound T))
    (empty : s.pending t.priorKey = []) (targets : List Target) (distinct : targets.Nodup)
    (own : .func t.func ∉ targets)
    (known : ∀ p ∈ t.partials, p.read.target ≠ .func t.func → p.read.target ∈ targets)
    (τ : Target → List Int → K) (S : List Int → K × K) :
    ((s.regionOf (.func t.func)).points.map fun q => ρ.call t.adjoint q *
      ((t.definition.iterations (s.regionOf (.func t.func))).foldl (t.definition.dualStep t.func ρ τ S) S q).2).sum +
      s.balance ρ τ targets =
    ((s.regionOf (.func t.func)).points.map fun q => s'.collected ρ t.priorKey q * (S q).2).sum +
      s'.balance ρ τ targets := by
  have added : ((s.regionOf (.func t.func)).points.map fun q => ρ.call t.adjoint q *
      t.definition.spread ρ (s.regionOf (.func t.func)) t.definition.lhs (t.others ρ t.func τ) q).sum =
      ((t.definition.iterations (s.regionOf (.func t.func))).map fun env =>
        ρ.call t.adjoint (Expr.position ρ env t.definition.lhs) * t.others ρ t.func τ env).sum := by
    simp only [mul_comm (ρ.call t.adjoint _)]
    exact sum_spread (Domain.nodup_points _) (fun env mem _ => h.inside env mem) (ρ.call t.adjoint)
  have after : ((s.regionOf (.func t.func)).points.map fun q => ρ.call t.adjoint q *
      ((t.definition.iterations (s.regionOf (.func t.func))).foldl (t.definition.dualStep t.func ρ τ S) S q).2).sum =
      ((s.regionOf (.func t.func)).points.map fun q => ρ.call t.adjoint q * (S q).2).sum +
      ((t.definition.iterations (s.regionOf (.func t.func))).map fun env =>
        ρ.call t.adjoint (Expr.position ρ env t.definition.lhs) * t.others ρ t.func τ env).sum := by
    rw [← added, ← List.sum_map_add]
    refine congrArg List.sum (List.map_congr_left fun q _ => ?_)
    rw [h.foldl_accumulated kind run additive plain, mul_add]
  have before : ((s.regionOf (.func t.func)).points.map fun q => s'.collected ρ t.priorKey q * (S q).2).sum =
      ((s.regionOf (.func t.func)).points.map fun q => ρ.call t.adjoint q * (S q).2).sum := by
    refine congrArg List.sum (List.map_congr_left fun q mem => ?_)
    rw [h.collected_accumulate run empty mem]
  rw [after, before, h.balance_accumulate run distinct own known]
  ring

end Sound

end Sweep

/-! ### An example -/

/-- `f() := f() + b(r)` for `r` from 0 to 2. -/
def totalling : Sweep.Step (Exact ℚ) where
  func := ⟨0⟩
  stage := .update 0
  prior := .initial
  definition := ⟨[], .binary .add (.call ⟨0⟩ []) (.load ⟨0⟩ [.rvar "r"]), some ⟨[("r", ⟨0, 2⟩)]⟩⟩
  adjoint := ⟨1⟩

namespace totalling

def source : Sweep (Exact ℚ) :=
  .start ⟨#[⟨"f", [], .user, some ⟨[], .one, none⟩, [totalling.definition], none⟩], #[⟨"b", ⟨[⟨0, 2⟩]⟩⟩], #[], 0⟩
    (Table.ofList [(⟨0⟩, ⟨[]⟩)])

theorem kind : totalling.definition.kindFor ⟨0⟩ = .ok .inPlace := rfl

theorem plain (ρ : Valuation ℚ) (env : Env ℚ) (A : List Int → ℚ) :
    totalling.definition.value.Plain (ρ.set ⟨0⟩ A) env (totalling.definition.Bound fun _ => True) := by
  simp [totalling, Atom.Among, Definition.Bound, namesOf, ReductionDomain.names]

def ones : Valuation ℚ := ⟨fun _ _ => 1, fun _ _ => 1, fun _ => 1⟩

theorem sound : source.Sound totalling ones ⟨0⟩ fun _ => True where
  args := by decide
  dims := by decide
  names := by decide
  placed := .nil
  fresh := by decide
  neat := by
    intro ρ env
    simp [Atom.Among, namesOf, totalling, ReductionDomain.names]
  made := trivial
  copied := trivial
  arity := by decide
  targets := by decide
  regions := by decide
  position := by decide
  indices := by decide
  plain := by
    intro env _ e mem
    rw [List.mem_singleton.mp mem]
    exact totalling.plain ones env _
  inside := by decide
  performed := by
    have reads : ∀ env ∈ (totalling.definition.iterations (source.regionOf (.func ⟨0⟩)) : List (Env ℚ)),
        ∀ r ∈ totalling.definition.value.reads,
          position (totalling.seen ones ⟨0⟩) env r.args ∈ (source.regionOf r.target).points := by
      decide
    intro env mem u p performs
    obtain ⟨r, listed, rfl, rfl⟩ := performs.mem_reads
    exact reads env mem r listed

/-- Changes 1, 2, 3 of the buffer and 5 of the value make a change of 11, and the pairing stays 11. -/
theorem sums_agree : ∃ s', source.accumulate totalling = .ok s' ∧
    11 = ((source.regionOf (.func ⟨0⟩)).points.map fun q => s'.collected ones totalling.priorKey q * 5).sum +
      s'.balance ones (fun _ p => p.sum + 1) [.buffer ⟨0⟩] := by
  have accepted : (source.accumulate totalling).toBool = true := by decide +kernel
  have after : ((source.regionOf (.func ⟨0⟩)).points.map fun q => ones.call totalling.adjoint q *
      ((totalling.definition.iterations (source.regionOf (.func ⟨0⟩))).foldl
        (totalling.definition.dualStep ⟨0⟩ ones (fun _ p => p.sum + 1) fun _ => (0, 5)) (fun _ => (0, 5)) q).2).sum +
      source.balance ones (fun _ p => p.sum + 1) [.buffer ⟨0⟩] = 11 := by
    decide +kernel
  cases run : source.accumulate totalling with
  | error e =>
    rw [run] at accepted
    cases accepted
  | ok s' =>
    have conserved := sound.accumulate_conserves kind run (by decide +kernel) (fun env _ A => plain ones env A) rfl
      [.buffer ⟨0⟩] (by decide) (by decide) (by decide +kernel) (fun _ p => p.sum + 1) fun _ => (0, 5)
    exact ⟨s', rfl, after.symm.trans conserved⟩

end totalling

end ArrayDiff
