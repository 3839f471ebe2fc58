import ArrayDiff.Proofs.Results

/-!
# What is remembered makes no difference

A run mirrors a computation without memory when both fail alike or succeed alike (`Mirrors`). A func is answered like
that whenever the calls that it makes are (`Job.answer_transparent`), whatever is remembered by then, as long as what is
remembered are results (`Memory.Exact`). So a realization is its calls' results, in the order of the points
(`Graph.realizeBy_eq`).
-/

namespace ArrayDiff

variable {κ α A B C D : Type}

/-! ### Runs that mirror computations without memory -/

/-- The run fails like the computation, or both succeed and `Q` holds of the two values and the memory afterwards. -/
inductive Mirrors (Q : A → Memory α → B → Prop) (run : Except EvalError (A × Memory α)) (d : Except EvalError B) :
    Prop where
  | ok {x : A} {m : Memory α} {y : B} : run = .ok (x, m) → d = .ok y → Q x m y → Mirrors Q run d
  | error {e : EvalError} : run = .error e → d = .error e → Mirrors Q run d

namespace Mirrors

variable {Q Q' : A → Memory α → B → Prop} {R : C → Memory α → D → Prop} {c : Run α A} {d : Except EvalError B}
  {k : A → Run α C} {l : B → Except EvalError D} {m : Memory α}

theorem bind (h : Mirrors Q (c m) d) (next : ∀ x m' y, Q x m' y → Mirrors R (k x m') (l y)) :
    Mirrors R ((c >>= k) m) (d >>= l) := by
  cases h with
  | @ok x m' y run value held =>
    have run' : (c >>= k) m = k x m' := by
      change (c m >>= fun r => k r.1 r.2) = _
      rw [run]
      rfl
    rw [run', value]
    exact next x m' y held
  | @error e run failed =>
    have run' : (c >>= k) m = .error e := by
      change (c m >>= fun r => k r.1 r.2) = _
      rw [run]
      rfl
    exact .error run' (by rw [failed]; rfl)

theorem mono (h : Mirrors Q (c m) d) (wider : ∀ x m' y, Q x m' y → Q' x m' y) : Mirrors Q' (c m) d := by
  cases h with
  | ok run value held => exact .ok run value (wider _ _ _ held)
  | error run failed => exact .error run failed

theorem withResult (h : Mirrors Q (c m) d) : Mirrors (fun x m' y => Q x m' y ∧ d = .ok y) (c m) d := by
  cases h with
  | ok run value held => exact .ok run value ⟨held, value⟩
  | error run failed => exact .error run failed

theorem of_still {d : Except EvalError A} {Q : A → Memory α → A → Prop} (still : c m = d.map (·, m))
    (held : ∀ x, Q x m x) : Mirrors Q (c m) d := by
  cases d with
  | ok x => exact .ok still rfl (held x)
  | error e => exact .error still rfl

theorem mapM {c : C → Run α A} {d : C → Except EvalError A} {l : List C} (I : Memory α → Prop)
    (step : ∀ a ∈ l, ∀ m, I m → Mirrors (fun x m' y => I m' ∧ x = y) (c a m) (d a)) (start : I m) :
    Mirrors (fun xs m' ys => I m' ∧ xs = ys) (l.mapM c m) (l.mapM d) := by
  induction l generalizing m with
  | nil => exact .ok rfl rfl ⟨start, rfl⟩
  | cons a l ih =>
    rw [List.mapM_cons, List.mapM_cons]
    refine (step a List.mem_cons_self m start).bind fun x m₁ y ⟨kept, same⟩ => ?_
    refine (ih (fun b mem => step b (List.mem_cons_of_mem a mem)) kept).bind fun xs m₂ ys ⟨kept', same'⟩ => ?_
    exact .ok rfl rfl ⟨kept', by rw [same, same']⟩

theorem forM {c : C → Run α Unit} {d : B → C → Except EvalError B} {l : List C} (J : B → Memory α → Prop)
    (step : ∀ a ∈ l, ∀ s m, J s m → Mirrors (fun _ m' s' => J s' m') (c a m) (d s a)) {s : B} (start : J s m) :
    Mirrors (fun _ m' s' => J s' m') (l.forM c m) (l.foldlM d s) := by
  induction l generalizing m s with
  | nil => exact .ok rfl rfl start
  | cons a l ih =>
    rw [List.foldlM_cons]
    exact (step a List.mem_cons_self s m start).bind fun _ m₁ s₁ kept =>
      ih (fun b mem => step b (List.mem_cons_of_mem a mem)) kept

end Mirrors

/-- Runs that keep `I` and mirror a computation without memory, from every memory with `I`. -/
def Lifting.exact (I : Memory α → Prop) : Lifting (Run α) (Except EvalError) where
  rel S c d := ∀ m, I m → Mirrors (fun x m' y => I m' ∧ S x y) (c m) d
  rel_pure same _ start := .ok rfl rfl ⟨start, same⟩
  rel_bind first next m start := (first m start).bind fun x m' y ⟨kept, same⟩ => next x y same m' kept

/-! ### Memories that hold results -/

variable [Scalar κ] [Scalar α] [Embed κ α]

/-- What is remembered of funcs of rank less than `k` are results of calls. -/
structure Memory.Exact (m : Memory α) (j : Job κ α) (o : Results α) (rank : FuncId → Nat) (k : Nat) : Prop where
  stored {f : FuncId} {s : Storage α} : rank f < k → m.stored.get? f = some s → o f = j.fetch f s
  known {f : FuncId} {p : List Int} {v : α} : rank f < k → m.memoized? f p = some v → o f p = .ok v

section Exact

variable {m m' : Memory α} {j : Job κ α} {o : Results α} {rank : FuncId → Nat} {k l : Nat} {f : FuncId}

section

omit [Scalar κ] [Scalar α] [Embed κ α]

theorem Memory.exact_empty : ({} : Memory α).Exact j o rank k := by
  constructor
  · intro g s below held
    cases held
  · intro g p v below found
    cases found

theorem Memory.Exact.lower (h : m.Exact j o rank k) (le : l ≤ k) : m.Exact j o rank l :=
  ⟨fun below => h.stored (below.trans_le le), fun below => h.known (below.trans_le le)⟩

theorem Memory.Exact.raise (h : m'.Exact j o rank l) (before : m.Exact j o rank k)
    (unchanged : m.Unchanged m' fun g => l ≤ rank g) : m'.Exact j o rank k := by
  refine ⟨fun {g s} below found => ?_, fun {g p v} below found => ?_⟩
  · rcases lt_or_ge (rank g) l with earlier | later
    · exact h.stored earlier found
    · exact before.stored below ((unchanged g later).1 ▸ found)
  · rcases lt_or_ge (rank g) l with earlier | later
    · exact h.known earlier found
    · unfold Memory.memoized? at found
      rw [(unchanged g later).2] at found
      exact before.known below found

theorem Memory.Exact.remember (h : m.Exact j o rank k) {p : List Int} {v : α} (result : o f p = .ok v) :
    (m.remember f p v).Exact j o rank k := by
  refine ⟨fun below found => h.stored below found, fun {g q w} below found => ?_⟩
  rw [Memory.memoized?_remember] at found
  split at found
  · rename_i same
    obtain ⟨rfl, rfl⟩ := same
    rwa [← Option.some.inj found]
  · exact h.known below found

end

end Exact

namespace Job

variable {j : Job κ α} {o : Results α} {rank : FuncId → Nat} {S : FuncId → Prop} {c : FuncId → List Int → Run α α}
  {f : FuncId} {m m₀ : Memory α} {s : Storage α}

/-- Calls of `f` have the results `o` and leave funcs of rank `k` and more alone, when what is remembered of those below
are results. -/
def Transparent (j : Job κ α) (o : Results α) (rank : FuncId → Nat) (c : FuncId → List Int → Run α α) (f : FuncId) :
    Prop :=
  ∀ p k m, rank f < k → m.Exact j o rank k →
    Mirrors (fun v m' w => v = w ∧ m'.Exact j o rank k ∧ m.Unchanged m' fun g => k ≤ rank g) (c f p m) (o f p)

/-- The calls that `f` makes have the results `o`; calls of `f` itself are answered from its storage, if it has one. -/
structure Serving (j : Job κ α) (o : Results α) (rank : FuncId → Nat) (c : FuncId → List Int → Run α α) (f : FuncId) :
    Prop where
  others {stage : Stage} {h : FuncId} : (j.graph.func f).Reads stage (.func h) → h ≠ f → j.Transparent o rank c h
  self {s : Storage α} {p : List Int} {m : Memory α} : m.stored.get? f = some s →
    c f p m = (j.fetch f s p).map (·, m)

theorem prepare_of_stored {reader : Reader (Run α) α} (held : m.stored.get? f = some s) :
    j.prepare reader f m = .ok ((), m) := by
  unfold prepare
  rw [run_get_bind, Table.contains, held, Option.isSome_some, Bool.not_true, Bool.and_false]
  rfl

theorem valueAt_of_stored {reader : Reader (Run α) α} {p : List Int} (held : m.stored.get? f = some s) :
    j.valueAt reader f p m = (j.fetch f s p).map (·, m) := by
  unfold valueAt fetch
  rw [run_get_bind, held]
  dsimp only
  cases s.get? p <;> rfl

theorem answer_of_stored {reader : Reader (Run α) α} {p : List Int} (held : m.stored.get? f = some s) :
    j.answer reader f p m = (j.fetch f s p).map (·, m) := by
  change (j.prepare reader f m >>= fun r => j.valueAt reader f p r.2) = _
  rw [prepare_of_stored held]
  exact valueAt_of_stored held

/-! ### Expressions -/

omit [Scalar α] in
theorem lift_eq (d : Except EvalError A) (m : Memory α) : (liftM d : Run α A) m = d.map (·, m) := by
  cases d <;> rfl

omit [Scalar κ] [Scalar α] [Embed κ α] in
theorem load_eq (b : BufferId) (p : List Int) (m : Memory α) : j.load b p m = (j.data b p).map (·, m) := by
  unfold load data
  cases j.bindings.tensor j.graph b with
  | error e => rfl
  | ok data =>
    have opened (k : Tensor α → Run α α) : (liftM (.ok data : Except EvalError (Tensor α)) >>= k) m = k data m := rfl
    rw [opened]
    change _ = Except.map (·, m) (Option.elim _ _ _)
    cases ((j.graph.buffer b).domain.position? p).bind (data.values[·]?) <;> rfl

omit [Scalar κ] [Scalar α] in
/-- Expressions mirror their evaluation without memory, in memories with a property that calls keep. -/
theorem related_exact {I : Memory α → Prop} {q : Results α} {e : Expr κ} (env : Env α)
    (call : ∀ r ∈ e.reads, ∀ h, r.target = .func h → ∀ p, (Lifting.exact I).rel Eq (c h p) (q h p)) :
    Expr.Related (Lifting.exact I) Eq (j.reader c) (j.source q) env env e := by
  have bound (found : Option α) (x : Name) : (Lifting.exact I).rel Eq
      (found.elim ((j.reader c).unbound x) pure) (found.elim ((j.source q).unbound x) pure) := by
    cases found with
    | none => exact fun m start => .error rfl rfl
    | some v => exact (Lifting.exact I).rel_pure rfl
  refine ⟨fun _ => rfl, fun x _ => bound _ x, fun x _ => bound _ x, fun h args p mem => ?_, fun b p m start => ?_,
    fun i m start => ?_⟩
  · exact call _ (Expr.mem_reads_of_call mem) h rfl p
  · exact .of_still (load_eq b p m) fun x => ⟨start, rfl⟩
  · exact .of_still (lift_eq (j.bindings.param j.graph i) m) fun x => ⟨start, rfl⟩

/-! ### A func while it is computed -/

/-- The memory while `f` is computed: `f` has the storage, and about the funcs above nothing has changed. -/
structure Working (j : Job κ α) (o : Results α) (rank : FuncId → Nat) (f : FuncId) (m₀ : Memory α) (s : Storage α)
    (m : Memory α) : Prop where
  exact : m.Exact j o rank (rank f)
  others : m₀.Unchanged m fun g => rank f ≤ rank g ∧ g ≠ f
  known : m.known.get? f = m₀.known.get? f
  held : m.stored.get? f = some s

variable {d : Definition κ} {R : Domain}

omit [Scalar κ] in
theorem Working.iterate (serving : j.Serving o rank c f) (layers : j.graph.Layered S rank) (mem : S f)
    (update : d ∈ (j.graph.func f).updates) (env : Env α) :
    (Lifting.exact (j.Working o rank f m₀ s)).rel Eq (Job.iterate (j.reader c) d env) (j.iteration o f s d env) := by
  obtain ⟨i, listed⟩ := Func.mem_definitions_update update
  have related {e : Expr κ} (own : e ∈ d.exprs) : Expr.Related (Lifting.exact (j.Working o rank f m₀ s)) Eq
      (j.reader c) (j.source (Function.update o f (j.fetch f s))) env env e := by
    refine related_exact env fun r read h target p m working => ?_
    by_cases self : h = f
    · subst self
      rw [Function.update_self]
      exact .of_still (serving.self working.held) fun x => ⟨working, rfl⟩
    · rw [Function.update_of_ne self]
      have reads : (j.graph.func f).Reads (.update i) (.func h) :=
        ⟨d, listed, r, List.mem_flatMap.mpr ⟨e, own, read⟩, target⟩
      refine (serving.others reads self p (rank f) m (layers.below mem reads self).2 working.exact).mono ?_
      rintro v m' w ⟨same, exact', unchanged⟩
      refine ⟨⟨exact', working.others.trans (unchanged.mono fun g above => above.1), ?_, ?_⟩, same⟩
      · exact (unchanged f (le_refl _)).2.trans working.known
      · exact (unchanged f (le_refl _)).1.trans working.held
  refine (Lifting.exact _).rel_bind (Expr.evalIndex_related Respected.eq fun a own =>
    related (List.mem_append_left _ own)) fun p q same => ?_
  refine (Lifting.exact _).rel_bind (Expr.eval_rel Respected.eq (related
    (List.mem_append_right _ (List.mem_singleton.mpr rfl)))) fun v w same' => ?_
  exact (Lifting.exact _).rel_pure (by rw [same, same'])

omit [Scalar κ] [Scalar α] [Embed κ α] in
theorem Working.store (working : j.Working o rank f m₀ s m) (p : List Int) (v : α) :
    Mirrors (fun _ m' s' => j.Working o rank f m₀ s' m') (j.store f p v m) (j.put f s p v) := by
  unfold Job.store put
  rw [run_get_bind, working.held, Option.bind_some]
  cases s.domain.position? p with
  | none => exact .error rfl rfl
  | some place =>
    have other {g : FuncId} (less : rank g < rank f) : f ≠ g := fun same => absurd (same ▸ less) (lt_irrefl _)
    refine .ok rfl rfl ⟨⟨fun {g t} less found => ?_, fun less found => working.exact.known less found⟩,
      fun g above => ⟨?_, (working.others g above).2⟩, working.known, ?_⟩
    · rw [Table.get?_modify, if_neg (other less)] at found
      exact working.exact.stored less found
    · rw [Table.get?_modify, if_neg (Ne.symm above.2)]
      exact (working.others g above).1
    · rw [Table.get?_modify, if_pos rfl, working.held]
      rfl

omit [Scalar κ] in
theorem Working.runStepwise (working : j.Working o rank f m₀ s m) (serving : j.Serving o rank c f)
    (layers : j.graph.Layered S rank) (mem : S f) (update : d ∈ (j.graph.func f).updates) (envs : List (Env α)) :
    Mirrors (fun _ m' s' => j.Working o rank f m₀ s' m') (j.runStepwise (j.reader c) f d envs m)
      (envs.foldlM (fun s env => j.iteration o f s d env >>= fun e => j.put f s e.1 e.2) s) := by
  refine Mirrors.forM _ (fun env _ s m working => ?_) working
  refine (Working.iterate serving layers mem update env m working).bind fun e m' e' ⟨working', same⟩ => ?_
  subst same
  exact working'.store e.1 e.2

omit [Scalar κ] in
theorem Working.runAtOnce (working : j.Working o rank f m₀ s m) (serving : j.Serving o rank c f)
    (layers : j.graph.Layered S rank) (mem : S f) (update : d ∈ (j.graph.func f).updates) (envs : List (Env α)) :
    Mirrors (fun _ m' s' => j.Working o rank f m₀ s' m') (j.runAtOnce (j.reader c) f d envs m)
      (envs.mapM (j.iteration o f s d) >>= fun es => es.foldlM (fun s e => j.put f s e.1 e.2) s) := by
  refine (Mirrors.mapM (j.Working o rank f m₀ s) (fun env _ m working =>
    Working.iterate serving layers mem update env m working) working).bind fun es m' es' ⟨working', same⟩ => ?_
  subst same
  exact Mirrors.forM _ (fun e _ s m working => working.store e.1 e.2) working'

theorem Working.runUpdate (working : j.Working o rank f m₀ s m) (serving : j.Serving o rank c f)
    (layers : j.graph.Layered S rank) (mem : S f) (update : d ∈ (j.graph.func f).updates) :
    Mirrors (fun _ m' s' => j.Working o rank f m₀ s' m') (j.runUpdate (j.reader c) f R d m) (j.updated o f R s d) := by
  unfold Job.runUpdate updated
  split
  · exact working.runStepwise serving layers mem update _
  · exact working.runAtOnce serving layers mem update _

theorem initial_exact (serving : j.Serving o rank c f) (layers : j.graph.Layered S rank) (mem : S f)
    (init : (j.graph.func f).init = some d) (p : List Int) :
    (Lifting.exact fun m => m.Exact j o rank (rank f) ∧ m₀.Unchanged m fun g => rank f ≤ rank g).rel Eq
      (d.value.eval (j.reader c) ⟨coordinates κ (j.graph.func f).args p, []⟩) (j.initial o f d p) := by
  refine Expr.eval_rel Respected.eq (related_exact _ fun r read h target q m ⟨exact', unchanged⟩ => ?_)
  have reads : (j.graph.func f).Reads .initial (.func h) := target ▸ Func.reads_initial init read
  have less := (layers.reads_below mem reads (Or.inr rfl)).2
  have other : h ≠ f := fun same => absurd (same ▸ less) (lt_irrefl _)
  refine (serving.others reads other q (rank f) m less exact').mono ?_
  rintro v m' w ⟨same, exact'', unchanged'⟩
  exact ⟨⟨exact'', unchanged.trans unchanged'⟩, same⟩

theorem materialize_mirrors (serving : j.Serving o rank c f) (layers : j.graph.Layered S rank) (mem : S f)
    (start : m.Exact j o rank (rank f)) :
    Mirrors (fun _ m' s => j.Working o rank f m s m') (j.materialize (j.reader c) f m) (j.computed o f) := by
  unfold materialize computed
  cases init : (j.graph.func f).init with
  | none => exact .error rfl rfl
  | some d =>
    refine (Mirrors.mapM _ (fun p _ m' kept => initial_exact serving layers mem init p m' kept)
      ⟨start, Memory.Unchanged.refl m _⟩).bind fun values m₁ values' ⟨⟨exact', unchanged⟩, same⟩ => ?_
    subst same
    have other {g : FuncId} (less : rank g < rank f) : f ≠ g := fun same => absurd (same ▸ less) (lt_irrefl _)
    refine (Mirrors.of_still (Q := fun data m data' => data = data' ∧ m₁ = m) (lift_eq _ _) fun _ => ⟨rfl, rfl⟩).bind ?_
    rintro data _ _ ⟨rfl, rfl⟩
    refine Mirrors.forM _ (fun d update s m' working => working.runUpdate serving layers mem update)
      (m := { m₁ with stored := m₁.stored.insert f ⟨j.regions.of j.graph f, data.values⟩ })
      ⟨⟨fun {g t} less found => ?_, fun less found => exact'.known less found⟩, fun g above => ⟨?_, ?_⟩,
        (unchanged f (le_refl _)).2, ?_⟩
    · rw [Table.get?_insert, if_neg (other less)] at found
      exact exact'.stored less found
    · rw [Table.get?_insert, if_neg (Ne.symm above.2)]
      exact (unchanged g above.1).1
    · exact (unchanged g above.1).2
    · rw [Table.get?_insert, if_pos rfl]

/-! ### A func that is called -/

variable {k : Nat}

/-- Computing a func fails when its calls do, and otherwise leaves its storage behind. -/
theorem prepare_exact (serving : j.Serving o rank c f) (layers : j.graph.Layered S rank) (mem : S f)
    (settled : o f = j.resultOf o f) (less : rank f < k) (start : m.Exact j o rank k) :
    (∃ m', j.prepare (j.reader c) f m = .ok ((), m') ∧ m'.Exact j o rank k ∧ (m.Unchanged m' fun g => k ≤ rank g) ∧
      ((j.graph.func f).updates.isEmpty = false → ∃ s, m'.stored.get? f = some s)) ∨
    ∃ e, j.prepare (j.reader c) f m = .error e ∧ ∀ p, o f p = .error e := by
  unfold prepare
  rw [run_get_bind]
  split
  · rename_i due
    have updates : (j.graph.func f).updates.isEmpty = false := by
      cases empty : (j.graph.func f).updates.isEmpty with
      | false => rfl
      | true => simp [empty] at due
    have result (p : List Int) : o f p = j.computed o f >>= fun s => j.fetch f s p := by
      rw [settled]
      unfold resultOf
      rw [updates]
      rfl
    cases materialize_mirrors serving layers mem (start.lower less.le) with
    | error run failed => exact Or.inr ⟨_, run, fun p => by rw [result, failed]; rfl⟩
    | @ok _ m' s run computed working =>
      refine Or.inl ⟨m', run, ⟨fun {g t} below found => ?_, fun {g p v} below found => ?_⟩, fun g above => ?_,
        fun _ => ⟨s, working.held⟩⟩
      · by_cases self : g = f
        · subst self
          obtain rfl := Option.some.inj (working.held.symm.trans found)
          funext p
          rw [result, computed]
          rfl
        · rcases lt_or_ge (rank g) (rank f) with earlier | later
          · exact working.exact.stored earlier found
          · exact start.stored below ((working.others g ⟨later, self⟩).1 ▸ found)
      · unfold Memory.memoized? at found
        by_cases self : g = f
        · subst self
          rw [working.known] at found
          exact start.known below found
        · rcases lt_or_ge (rank g) (rank f) with earlier | later
          · exact working.exact.known earlier found
          · rw [(working.others g ⟨later, self⟩).2] at found
            exact start.known below found
      · refine working.others g ⟨less.le.trans above, ?_⟩
        rintro rfl
        exact absurd less (not_lt_of_ge above)
  · rename_i ready
    refine Or.inl ⟨m, rfl, start, Memory.Unchanged.refl _ _, fun updates => ?_⟩
    simpa [updates, Table.contains, Option.ne_none_iff_exists'] using ready

theorem evaluated_mirrors (serving : j.Serving o rank c f) (layers : j.graph.Layered S rank) (mem : S f)
    (settled : o f = j.resultOf o f) (less : rank f < k) (start : m.Exact j o rank k) (held : m.stored.get? f = none)
    (ready : (j.graph.func f).updates.isEmpty = false → ∃ s, m.stored.get? f = some s) (p : List Int) :
    ∃ d, (j.graph.func f).init = some d ∧
      Mirrors (fun v m' w => v = w ∧ m'.Exact j o rank (rank f) ∧ m.Unchanged m' fun g => rank f ≤ rank g)
        (d.value.eval (j.reader c) ⟨coordinates κ (j.graph.func f).args p, []⟩ m) (o f p) := by
  have pointwise : (j.graph.func f).updates.isEmpty = true := by
    by_contra updates
    obtain ⟨s, found⟩ := ready (Bool.eq_false_iff.mpr updates)
    exact absurd (held.symm.trans found) nofun
  obtain ⟨d, init⟩ := Option.isSome_iff_exists.mp (layers.defined mem)
  have result : o f p = j.initial o f d p := by
    rw [settled]
    unfold resultOf
    rw [pointwise, init]
    rfl
  rw [result]
  refine ⟨d, init, (initial_exact serving layers mem init p m ⟨start.lower less.le, Memory.Unchanged.refl _ _⟩).mono ?_⟩
  rintro v m' w ⟨⟨exact', others⟩, same⟩
  exact ⟨same, exact', others⟩

theorem valueAt_mirrors (serving : j.Serving o rank c f) (layers : j.graph.Layered S rank) (mem : S f)
    (settled : o f = j.resultOf o f) (less : rank f < k) (start : m.Exact j o rank k)
    (ready : (j.graph.func f).updates.isEmpty = false → ∃ s, m.stored.get? f = some s) (p : List Int) :
    Mirrors (fun v m' w => v = w ∧ m'.Exact j o rank k ∧ m.Unchanged m' fun g => k ≤ rank g)
      (j.valueAt (j.reader c) f p m) (o f p) := by
  have unchanged := Memory.Unchanged.refl m fun g => k ≤ rank g
  cases held : m.stored.get? f with
  | some s =>
    rw [start.stored less held]
    exact .of_still (valueAt_of_stored held) fun v => ⟨rfl, start, unchanged⟩
  | none =>
    obtain ⟨d, init, evaluated⟩ := evaluated_mirrors serving layers mem settled less start held ready p
    unfold valueAt
    rw [run_get_bind, held]
    dsimp only
    cases known : m.memoized? f p with
    | some v => exact .ok rfl (start.known less known) ⟨rfl, start, unchanged⟩
    | none =>
      dsimp only
      rw [init, ← bind_pure (o f p)]
      refine evaluated.withResult.bind fun v m₁ w ⟨⟨same, exact', others⟩, value⟩ => ?_
      subst same
      have above : m.Unchanged m₁ fun g => k ≤ rank g := others.mono fun g above => less.le.trans above
      exact .ok rfl rfl ⟨rfl, (exact'.raise start others).remember value,
        above.trans (Memory.Unchanged.remember (T := fun g => k ≤ rank g) (not_le_of_gt less) p v)⟩

theorem prepared_transparent (serving : j.Serving o rank c f) (layers : j.graph.Layered S rank) (mem : S f)
    (settled : o f = j.resultOf o f) {value : List Int → Run α α}
    (mirrors : ∀ (p : List Int) (k : Nat) (m : Memory α), rank f < k → m.Exact j o rank k →
      ((j.graph.func f).updates.isEmpty = false → ∃ s, m.stored.get? f = some s) →
      Mirrors (fun v m' w => v = w ∧ m'.Exact j o rank k ∧ m.Unchanged m' fun g => k ≤ rank g) (value p m) (o f p))
    {answer : FuncId → List Int → Run α α}
    (answered : ∀ p, answer f p = j.prepare (j.reader c) f >>= fun _ => value p) : j.Transparent o rank answer f := by
  intro p k m less start
  rw [answered]
  obtain ⟨m', run, exact', unchanged, ready⟩ | ⟨e, run, failed⟩ := prepare_exact serving layers mem settled less start
  · change Mirrors _ (j.prepare (j.reader c) f m >>= fun r => value p r.2) _
    rw [run]
    refine (mirrors p k m' less exact' ready).mono ?_
    rintro v m'' w ⟨same, exact'', unchanged'⟩
    exact ⟨same, exact'', unchanged.trans unchanged'⟩
  · refine .error ?_ (failed p)
    change (j.prepare (j.reader c) f m >>= fun r => value p r.2) = _
    rw [run]
    rfl

/-- A func is answered as without memory when the calls that it makes are. -/
theorem answer_transparent (serving : j.Serving o rank c f) (layers : j.graph.Layered S rank) (mem : S f)
    (settled : o f = j.resultOf o f) : j.Transparent o rank (j.answer (j.reader c)) f :=
  prepared_transparent serving layers mem settled
    (fun p _ _ less start ready => valueAt_mirrors serving layers mem settled less start ready p) fun _ => rfl

/-- Calls that are given depth for the funcs below and for one call of the func itself have the settled results. -/
theorem call_transparent (layers : j.graph.Layered S rank) (mem : S f) {depth : Nat} (deep : rank f + 1 < depth) :
    j.Transparent (j.results rank) rank (j.call depth) f := by
  induction depth generalizing f with
  | zero => omega
  | succ depth ih =>
    refine answer_transparent ⟨fun reads other => ?_, fun {s p m} held => ?_⟩ layers mem (results_eq layers mem)
    · obtain ⟨inside, less⟩ := layers.below mem reads other
      exact ih inside (by omega)
    · obtain ⟨depth, rfl⟩ : ∃ n, depth = n + 1 := ⟨depth - 1, by omega⟩
      exact answer_of_stored held

end Job

end ArrayDiff
