import ArrayDiff.Proofs.Preservation

/-!
# Results of calls

What the calls of a job result in, values or errors, without anything that is remembered: a func without updates is
evaluated where it is called, one with updates is computed over its region for every call (`Job.resultOf`). The results
of scheduled funcs are settled by those of the funcs before them (`Job.results_eq`).
-/

namespace ArrayDiff

variable {κ α : Type} [Scalar κ] [Scalar α] [Embed κ α]

/-- What calls result in. -/
abbrev Results (α : Type) := FuncId → List Int → Except EvalError α

namespace Job

section

variable (j : Job κ α)

/-- What a read of `f` finds in a storage. -/
def fetch (f : FuncId) (s : Storage α) (index : List Int) : Except EvalError α :=
  (s.get? index).elim (throw (j.outOfBounds f index)) pure

/-- The storage of `f` after a write. -/
def put (f : FuncId) (s : Storage α) (index : List Int) (v : α) : Except EvalError (Storage α) :=
  (s.domain.position? index).elim (throw (j.outOfBounds f index)) fun place => pure (s.setAt place v)

/-- What a read of a buffer results in. -/
def data (b : BufferId) (index : List Int) : Except EvalError α := do
  let data ← j.bindings.tensor j.graph b
  (((j.graph.buffer b).domain.position? index).bind (data.values[·]?)).elim
    (throw (.outOfBounds (j.graph.buffer b).name index)) pure

/-- How reads are answered when calls have the given results. -/
def source (o : Results α) : Reader (Except EvalError) α where
  call := o
  load := j.data
  param p := j.bindings.param j.graph p
  unbound x := throw (.unboundVariable x)

/-- The value of an initial definition. -/
def initial (o : Results α) (f : FuncId) (d : Definition κ) (index : List Int) : Except EvalError α :=
  d.value.eval (j.source o) ⟨coordinates κ (j.graph.func f).args index, []⟩

/-- One iteration of an update of `f` while its values are those of a storage. -/
def iteration (o : Results α) (f : FuncId) (s : Storage α) (d : Definition κ) (env : Env α) :
    Except EvalError (List Int × α) := do
  let reader := j.source (Function.update o f (j.fetch f s))
  let index ← Expr.evalIndex reader env d.lhs
  let v ← d.value.eval reader env
  return (index, v)

/-- The storage of `f` after an update. -/
def updated (o : Results α) (f : FuncId) (region : Domain) (s : Storage α) (d : Definition κ) :
    Except EvalError (Storage α) :=
  if d.rdom.isSome then
    (d.iterations region).foldlM (fun s env => do
      let (index, v) ← j.iteration o f s d env
      j.put f s index v) s
  else do
    let pending ← (d.iterations region).mapM (j.iteration o f s d)
    pending.foldlM (fun s (index, v) => j.put f s index v) s

/-- The storage of `f` when all of its updates have run. -/
def computed (o : Results α) (f : FuncId) : Except EvalError (Storage α) := do
  let region := j.regions.of j.graph f
  let some init := (j.graph.func f).init | throw (.graph (.undefined (j.graph.func f).name))
  let values ← region.points.mapM (j.initial o f init)
  let data ← region.tensor (j.graph.func f).name values
  (j.graph.func f).updates.foldlM (j.updated o f region) ⟨region, data.values⟩

/-- What a call of `f` results in, given what the calls result in that it makes. -/
def resultOf (o : Results α) (f : FuncId) (index : List Int) : Except EvalError α :=
  if (j.graph.func f).updates.isEmpty then
    match (j.graph.func f).init with
    | some init => j.initial o f init index
    | none => throw (.graph (.undefined (j.graph.func f).name))
  else do
    let s ← j.computed o f
    j.fetch f s index

/-- The results of calls whose nesting is less deep than the first argument says. -/
def result : Nat → Results α
  | 0 => fun f _ => throw (.graph (.cycle [(j.graph.func f).name]))
  | depth + 1 => j.resultOf (result depth)

/-- The results of calls when ranks fall from a func to what it reads. -/
def results (rank : FuncId → Nat) : Results α := fun f => j.result (rank f + 1) f

end

variable {j : Job κ α} {o o' : Results α} {f h : FuncId} {S : FuncId → Prop} {rank : FuncId → Nat}

/-! ### Results that are settled by others -/

/-- The results of everything that `f` reads of other funcs are the same. -/
def AgreeOnReads (j : Job κ α) (f : FuncId) (o o' : Results α) : Prop :=
  ∀ stage h, (j.graph.func f).Reads stage (.func h) → h ≠ f ∨ stage = .initial → o h = o' h

theorem AgreeOnReads.initial_eq (agree : j.AgreeOnReads f o o') {d : Definition κ}
    (init : (j.graph.func f).init = some d) : j.initial o f d = j.initial o' f d := by
  have same : Expr.Alike (j.source o) (j.source o') d.value :=
    ⟨fun read target => agree .initial _ (target ▸ Func.reads_initial init read) (Or.inr rfl), rfl, rfl, rfl⟩
  funext index
  exact same.eval_eq _

omit [Scalar κ] in
theorem AgreeOnReads.iteration_eq (agree : j.AgreeOnReads f o o') {d : Definition κ}
    (update : d ∈ (j.graph.func f).updates) (s : Storage α) : j.iteration o f s d = j.iteration o' f s d := by
  obtain ⟨i, listed⟩ := Func.mem_definitions_update update
  have same {e : Expr κ} (own : e ∈ d.exprs) :
      Expr.Alike (j.source (Function.update o f (j.fetch f s))) (j.source (Function.update o' f (j.fetch f s))) e := by
    refine ⟨fun {r h} read target => ?_, rfl, rfl, rfl⟩
    have reads : (j.graph.func f).Reads (.update i) (.func h) :=
      ⟨d, listed, r, List.mem_flatMap.mpr ⟨e, own, read⟩, target⟩
    change Function.update o f _ h = Function.update o' f _ h
    by_cases self : h = f
    · rw [self, Function.update_self, Function.update_self]
    · rw [Function.update_of_ne self, Function.update_of_ne self]
      exact agree _ h reads (Or.inl self)
  funext env
  unfold iteration
  dsimp only
  rw [Expr.evalIndex_eq (fun a mem => same (List.mem_append_left _ mem)) env,
    (same (List.mem_append_right _ (List.mem_singleton.mpr rfl))).eval_eq env]

theorem AgreeOnReads.computed_eq (agree : j.AgreeOnReads f o o') : j.computed o f = j.computed o' f := by
  unfold computed
  cases init : (j.graph.func f).init with
  | none => rfl
  | some d =>
    dsimp only
    rw [agree.initial_eq init]
    refine congrArg _ (funext fun values => congrArg _ (funext fun data => foldlM_congr (fun d update s => ?_) _))
    unfold updated
    simp only [agree.iteration_eq update]

theorem AgreeOnReads.resultOf_eq (agree : j.AgreeOnReads f o o') : j.resultOf o f = j.resultOf o' f := by
  funext index
  unfold resultOf
  rw [agree.computed_eq]
  cases init : (j.graph.func f).init with
  | none => rfl
  | some d =>
    dsimp only
    rw [agree.initial_eq init]

theorem result_stable (layers : j.graph.Layered S rank) (mem : S f) {n m : Nat} (hn : rank f < n) (hm : rank f < m) :
    j.result n f = j.result m f := by
  induction n generalizing f m with
  | zero => omega
  | succ n ih =>
    cases m with
    | zero => omega
    | succ m =>
      refine AgreeOnReads.resultOf_eq fun stage h reads other => ?_
      obtain ⟨inside, less⟩ := layers.reads_below mem reads other
      exact ih inside (by omega) (by omega)

theorem results_eq (layers : j.graph.Layered S rank) (mem : S f) :
    j.results rank f = j.resultOf (j.results rank) f := by
  refine AgreeOnReads.resultOf_eq fun stage h reads other => ?_
  obtain ⟨inside, less⟩ := layers.reads_below mem reads other
  exact result_stable layers inside less (Nat.lt_succ_self _)

end Job

end ArrayDiff
