import ArrayDiff.Proofs.Failure
import ArrayDiff.Proofs.Results

/-!
# What can go wrong in a call

A call that fails does so in its initial definition, in an iteration of an update, with a write outside the region, or
because it asks for a position outside the region (`Job.fault_of_resultOf`).
-/

namespace ArrayDiff

variable {κ α : Type} [Scalar κ] [Scalar α] [Embed κ α]

namespace Job

/-- A storage of `f` as it is while the func is computed. -/
structure Holds (j : Job κ α) (f : FuncId) (s : Storage α) : Prop where
  filled : s.Filled
  domain : s.domain = j.regions.of j.graph f

/-- How reads are answered while `f` is updated. -/
def during (j : Job κ α) (o : Results α) (f : FuncId) (s : Storage α) : Reader (Except EvalError) α :=
  j.source (Function.update o f (j.fetch f s))

/-- The storages of `f` while it is computed: with the values of its initial definition, and after each write. -/
inductive Storing (j : Job κ α) (o : Results α) (f : FuncId) : Storage α → Prop where
  | start {d : Definition κ} {values : List α} : (j.graph.func f).init = some d →
    (j.regions.of j.graph f).points.mapM (j.initial o f d) = .ok values →
    Storing j o f ⟨j.regions.of j.graph f, values.toArray⟩
  | write {d : Definition κ} {s t t' : Storage α} {env : Env α} {entry : List Int × α} : Storing j o f s →
    Storing j o f t → d ∈ (j.graph.func f).updates → env ∈ d.iterations (j.regions.of j.graph f) →
    j.iteration o f s d env = .ok entry → j.put f t entry.1 entry.2 = .ok t' → Storing j o f t'

/-- What can make a call of `f` at `p` fail. -/
inductive Fault (j : Job κ α) (o : Results α) (f : FuncId) (p : List Int) (e : EvalError) : Prop where
  | undefined : (j.graph.func f).init = none → Fault j o f p e
  | initial {d : Definition κ} {q : List Int} : (j.graph.func f).init = some d →
    (j.graph.func f).updates = [] ∧ q = p ∨ q ∈ (j.regions.of j.graph f).points →
    j.initial o f d q = .error e → Fault j o f p e
  | shape {n : Nat} : e = .shapeMismatch (j.graph.func f).name (j.regions.of j.graph f).shape [n] → Fault j o f p e
  | update {d : Definition κ} {s : Storage α} {env : Env α} {x : Expr κ} : d ∈ (j.graph.func f).updates →
    j.Storing o f s → env ∈ d.iterations (j.regions.of j.graph f) → x ∈ d.exprs →
    x.eval (j.during o f s) env = .error e → Fault j o f p e
  | write {d : Definition κ} {s : Storage α} {env : Env α} {q : List Int} : d ∈ (j.graph.func f).updates →
    j.Storing o f s → env ∈ d.iterations (j.regions.of j.graph f) →
    Expr.evalIndex (j.during o f s) env d.lhs = .ok q → q ∉ (j.regions.of j.graph f).points →
    e = j.outOfBounds f q → Fault j o f p e
  | outside : (j.graph.func f).updates ≠ [] → p ∉ (j.regions.of j.graph f).points → e = j.outOfBounds f p →
    Fault j o f p e

variable {j : Job κ α} {o : Results α} {f : FuncId} {p q : List Int} {e : EvalError} {d : Definition κ}
  {s s' : Storage α} {env : Env α} {v : α}

section

omit [Scalar κ] [Scalar α] [Embed κ α]

theorem source_strict (x : Name) (v : α) : (j.source o).unbound x ≠ .ok v := nofun

theorem Holds.put (held : j.Holds f s) (run : j.put f s q v = .ok s') : j.Holds f s' := by
  unfold Job.put at run
  cases at' : s.domain.position? q with
  | none =>
    rw [at'] at run
    cases run
  | some place =>
    rw [at'] at run
    obtain rfl := pure_eq_ok.mp run
    exact ⟨held.filled.setAt place v, held.domain⟩

theorem put_error (held : j.Holds f s) (run : j.put f s q v = .error e) :
    q ∉ (j.regions.of j.graph f).points ∧ e = j.outOfBounds f q := by
  unfold Job.put at run
  cases at' : s.domain.position? q with
  | none =>
    rw [at'] at run
    refine ⟨fun inside => ?_, (Except.error.inj run).symm⟩
    rw [← held.domain, ← Domain.position?_isSome, at'] at inside
    cases inside
  | some place =>
    rw [at'] at run
    cases run

theorem fetch_error (held : j.Holds f s) (run : j.fetch f s q = .error e) :
    q ∉ (j.regions.of j.graph f).points ∧ e = j.outOfBounds f q := by
  unfold Job.fetch at run
  cases found : s.get? q with
  | none =>
    rw [found] at run
    refine ⟨fun inside => ?_, (Except.error.inj run).symm⟩
    rw [← held.domain, ← Storage.isSome_get? held.filled, found] at inside
    cases inside
  | some v =>
    rw [found] at run
    cases run

theorem data_error {b : BufferId} (run : j.data b q = .error e) :
    e = .missingBuffer (j.graph.buffer b).name ∨
      (∃ expected found, e = .shapeMismatch (j.graph.buffer b).name expected found) ∨
      e = .outOfBounds (j.graph.buffer b).name q ∧ j.bindings.load? j.graph b q = none := by
  rcases bind_eq_error.mp run with failed | ⟨data, bound, failed⟩
  · unfold Bindings.tensor at failed
    dsimp only at failed
    split at failed
    · exact Or.inl (Except.error.inj failed).symm
    split at failed
    · cases failed
    · exact Or.inr (Or.inl ⟨_, _, (Except.error.inj failed).symm⟩)
  · unfold Bindings.load?
    rw [bound]
    dsimp only at failed ⊢
    cases found : ((j.graph.buffer b).domain.position? q).bind (data.values[·]?) with
    | none =>
      rw [found] at failed
      exact Or.inr (Or.inr ⟨(Except.error.inj failed).symm, rfl⟩)
    | some v =>
      rw [found] at failed
      cases failed

theorem param_error {i : ParamId} (run : j.bindings.param j.graph i = .error e) :
    e = .missingParam (j.graph.param i) := by
  unfold Bindings.param at run
  split at run
  · exact (Except.error.inj run).symm
  · cases run

end

theorem Storing.holds (stored : j.Storing o f s) : j.Holds f s := by
  induction stored with
  | start _ mapped => exact ⟨Storage.filled_ofList (mapM_eq_ok mapped).length_eq.symm, rfl⟩
  | write _ _ _ _ _ put _ held => exact held.put put

omit [Scalar κ] in
theorem iteration_error (run : j.iteration o f s d env = .error e) :
    ∃ x ∈ d.exprs, x.eval (j.during o f s) env = .error e := by
  rcases bind_eq_error.mp run with failed | ⟨q, -, run⟩
  · obtain ⟨x, mem, failed⟩ := Expr.exists_of_evalIndex_error failed
    exact ⟨x, List.mem_append_left _ mem, failed⟩
  rcases bind_eq_error.mp run with failed | ⟨v, -, run⟩
  · exact ⟨d.value, List.mem_append_right _ (List.mem_singleton.mpr rfl), failed⟩
  · cases run

omit [Scalar κ] in
theorem index_of_iteration {entry : List Int × α} (run : j.iteration o f s d env = .ok entry) :
    Expr.evalIndex (j.during o f s) env d.lhs = .ok entry.1 := by
  obtain ⟨q, index, run⟩ := bind_eq_ok.mp run
  obtain ⟨v, -, run⟩ := bind_eq_ok.mp run
  obtain rfl := pure_eq_ok.mp run
  exact index

theorem Storing.updated (stored : j.Storing o f s) (update : d ∈ (j.graph.func f).updates)
    (run : j.updated o f (j.regions.of j.graph f) s d = .ok s') : j.Storing o f s' := by
  unfold Job.updated at run
  split at run
  · refine foldlM_preserves run (j.Storing o f) stored fun env mem s s' stored run => ?_
    obtain ⟨entry, made, put⟩ := bind_eq_ok.mp run
    exact stored.write stored update mem made put
  · obtain ⟨pending, mapped, run⟩ := bind_eq_ok.mp run
    refine foldlM_preserves run (j.Storing o f) stored fun entry mem t t' stored' put => ?_
    obtain ⟨env, listed, made⟩ := exists_of_mem_mapM mapped mem
    exact stored.write stored' update listed made put

theorem updated_error (stored : j.Storing o f s) (update : d ∈ (j.graph.func f).updates)
    (run : j.updated o f (j.regions.of j.graph f) s d = .error e) : j.Fault o f p e := by
  have iterate {t : Storage α} {env : Env α} (stored : j.Storing o f t)
      (mem : env ∈ d.iterations (j.regions.of j.graph f)) (failed : j.iteration o f t d env = .error e) :
      j.Fault o f p e := by
    obtain ⟨x, own, failed⟩ := iteration_error failed
    exact .update update stored mem own failed
  have write {t t' : Storage α} {env : Env α} {entry : List Int × α} (stored : j.Storing o f t)
      (stored' : j.Storing o f t') (mem : env ∈ d.iterations (j.regions.of j.graph f))
      (made : j.iteration o f t d env = .ok entry) (failed : j.put f t' entry.1 entry.2 = .error e) :
      j.Fault o f p e := by
    obtain ⟨off, same⟩ := put_error stored'.holds failed
    exact .write update stored mem (index_of_iteration made) off same
  unfold updated at run
  split at run
  · obtain ⟨env, mem, t, stored, failed⟩ :=
      exists_of_foldlM_error run (j.Storing o f) stored fun env mem t t' stored run => by
        obtain ⟨entry, made, put⟩ := bind_eq_ok.mp run
        exact stored.write stored update mem made put
    rcases bind_eq_error.mp failed with failed | ⟨entry, made, failed⟩
    · exact iterate stored mem failed
    · exact write stored stored mem made failed
  · rcases bind_eq_error.mp run with failed | ⟨pending, mapped, run⟩
    · obtain ⟨env, mem, failed⟩ := exists_of_mapM_error failed
      exact iterate stored mem failed
    obtain ⟨entry, mem, t, stored', failed⟩ :=
      exists_of_foldlM_error run (j.Storing o f) stored fun entry mem t t' stored' put => by
        obtain ⟨env, listed, made⟩ := exists_of_mem_mapM mapped mem
        exact stored.write stored' update listed made put
    obtain ⟨env, listed, made⟩ := exists_of_mem_mapM mapped mem
    exact write stored stored' listed made failed

/-- A call that fails does so for one of the reasons that there are. -/
theorem fault_of_resultOf (run : j.resultOf o f p = .error e) : j.Fault o f p e := by
  unfold resultOf at run
  cases init : (j.graph.func f).init with
  | none => exact .undefined init
  | some d =>
    split at run
    · rename_i pointwise
      rw [init] at run
      exact .initial init (Or.inl ⟨List.isEmpty_iff.mp pointwise, rfl⟩) run
    rename_i updates
    have computed {s : Storage α} (run : j.computed o f = .ok s) : j.Storing o f s := by
      unfold Job.computed at run
      rw [init] at run
      obtain ⟨values, mapped, run⟩ := bind_eq_ok.mp run
      obtain ⟨data, shaped, run⟩ := bind_eq_ok.mp run
      obtain ⟨-, rfl⟩ := Domain.tensor_eq_ok.mp shaped
      exact foldlM_preserves run (j.Storing o f) (.start init mapped) fun d update s s' stored => stored.updated update
    rcases bind_eq_error.mp run with failed | ⟨s, made, failed⟩
    · unfold Job.computed at failed
      rw [init] at failed
      rcases bind_eq_error.mp failed with failed | ⟨values, mapped, failed⟩
      · obtain ⟨q, inside, failed⟩ := exists_of_mapM_error failed
        exact .initial init (Or.inr inside) failed
      rcases bind_eq_error.mp failed with failed | ⟨data, shaped, failed⟩
      · exact .shape (Domain.tensor_eq_error.mp failed).2
      obtain ⟨-, rfl⟩ := Domain.tensor_eq_ok.mp shaped
      obtain ⟨d, update, s, stored, failed⟩ := exists_of_foldlM_error failed (j.Storing o f) (.start init mapped)
        fun d update s s' stored => stored.updated update
      exact updated_error stored update failed
    · obtain ⟨off, same⟩ := fetch_error (computed made).holds failed
      exact .outside (fun none => updates (List.isEmpty_iff.mpr none)) off same

end Job

end ArrayDiff
