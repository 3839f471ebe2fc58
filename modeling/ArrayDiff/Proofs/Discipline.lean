import ArrayDiff.Proofs.Fault
import ArrayDiff.Proofs.Transparency

/-!
# How calls are nested

A call on behalf of a func goes to a func that comes before it in the schedule, or to the func itself, which then has a
storage; nobody else calls a func before all of its updates have run (`Job.watched` raises an alarm otherwise). So the
depth that `Graph.realize` gives its calls is never used up, it reports no problem of the graph, and without the table
of remembered values it would give the same (`Graph.realize_disciplined`).
-/

namespace ArrayDiff

variable {κ α : Type} [Scalar κ] [Scalar α] [Embed κ α]

namespace Job

section

variable (j : Job κ α)

/-- A read that `f` makes of itself: it is answered from the storage of `f`, and without one the alarm is raised. -/
def own (alarm : EvalError) (f : FuncId) (index : List Int) : Run α α := do
  let memory ← get
  match memory.stored.get? f with
  | some s => liftM (j.fetch f s index)
  | none => throw alarm

/-- Calls that raise an alarm when they break the rules. `earlier` has the funcs that may be called, the last one of the
schedule first, and `busy` those that are being computed or evaluated; a func that is called may call what comes before
it, and itself as long as it has a storage. -/
def watched (alarm : EvalError) : List FuncId → List FuncId → FuncId → List Int → Run α α
  | [], _, _, _ => throw alarm
  | h :: earlier, busy, f, index =>
    if f ∈ busy then throw alarm
    else if f = h then
      j.answer (j.reader fun k p => if k = h then j.own alarm h p else watched alarm earlier (h :: busy) k p) h index
    else watched alarm earlier busy f index

/-- The value of a func at a point, from its storage or evaluated anew. -/
def valueAfresh (reader : Reader (Run α) α) (f : FuncId) (index : List Int) : Run α α := do
  let memory ← get
  match memory.stored.get? f with
  | some s => liftM (j.fetch f s index)
  | none =>
    let some init := (j.graph.func f).init | throw (.graph (.undefined (j.graph.func f).name))
    init.value.eval reader ⟨coordinates κ (j.graph.func f).args index, []⟩

/-- Calls as `Job.call` makes them, without the table of remembered values. -/
def callAfresh : Nat → FuncId → List Int → Run α α
  | 0, f, _ => throw (.graph (.cycle [(j.graph.func f).name]))
  | depth + 1, f, index => do
    j.prepare (j.reader (callAfresh depth)) f
    j.valueAfresh (j.reader (callAfresh depth)) f index

end

variable {j : Job κ α} {o : Results α} {rank : FuncId → Nat} {S : FuncId → Prop} {c : FuncId → List Int → Run α α}
  {f : FuncId} {m : Memory α} {s : Schedule} {alarm : EvalError}

omit [Scalar κ] [Scalar α] [Embed κ α] in
theorem own_of_stored {t : Storage α} {p : List Int} (held : m.stored.get? f = some t) :
    j.own alarm f p m = (j.fetch f t p).map (·, m) := by
  unfold own
  rw [run_get_bind, held]
  exact lift_eq _ _

theorem answerAfresh_of_stored {reader : Reader (Run α) α} {t : Storage α} {p : List Int}
    (held : m.stored.get? f = some t) :
    (j.prepare reader f >>= fun _ => j.valueAfresh reader f p) m = (j.fetch f t p).map (·, m) := by
  change (j.prepare reader f m >>= fun r => j.valueAfresh reader f p r.2) = _
  rw [prepare_of_stored held]
  change j.valueAfresh reader f p m = _
  unfold valueAfresh
  rw [run_get_bind, held]
  exact lift_eq _ _

/-- Calls never break the rules when the funcs that may be called are what comes first in a schedule. -/
theorem watched_transparent (ordered : s.Ordered j.graph) {earlier busy later : List FuncId}
    (split : s.funcs = earlier.reverse ++ later) (above : ∀ h ∈ busy, h ∈ later) (mem : f ∈ earlier) :
    j.Transparent (j.results s.funcs.idxOf) s.funcs.idxOf (j.watched alarm earlier busy) f := by
  induction earlier generalizing f busy later with
  | nil => cases mem
  | cons h earlier ih =>
    have layers := ordered.layered
    have split' : s.funcs = earlier.reverse ++ h :: later := by rw [split, List.reverse_cons, List.append_assoc]; rfl
    have distinct := ordered.nodup
    rw [split] at distinct
    have idle : f ∉ busy := fun waits =>
      (List.nodup_append.mp distinct).2.2 f (List.mem_reverse.mpr mem) f (above f waits) rfl
    intro p k m less start
    unfold watched
    rw [if_neg idle]
    by_cases first : f = h
    · subst first
      rw [if_pos rfl]
      have listed : f ∈ s.funcs := split' ▸ List.mem_append_right _ List.mem_cons_self
      refine answer_transparent ⟨fun {stage k} reads other => ?_, fun held => ?_⟩ layers listed
        (results_eq layers listed) p k m less start
      · have before : k ∈ earlier :=
          List.mem_reverse.mp ((ordered.before _ f _ split' stage _ reads).resolve_right fun self => other self.1)
        intro q l m' less' start'
        dsimp only
        rw [if_neg other]
        refine ih split' (fun h waits => ?_) before q l m' less' start'
        exact (List.mem_cons.mp waits).elim (fun same => same ▸ List.mem_cons_self)
          fun waits => List.mem_cons_of_mem _ (above h waits)
      · rw [if_pos rfl]
        exact own_of_stored held
    · rw [if_neg first]
      have mem := (List.mem_cons.mp mem).resolve_left first
      exact ih split' (fun k waits => List.mem_cons_of_mem _ (above k waits)) mem p k m less start

theorem valueAfresh_mirrors (serving : j.Serving o rank c f) (layers : j.graph.Layered S rank) (mem : S f)
    (settled : o f = j.resultOf o f) {k : Nat} (less : rank f < k) (start : m.Exact j o rank k)
    (ready : (j.graph.func f).updates.isEmpty = false → ∃ s, m.stored.get? f = some s) (p : List Int) :
    Mirrors (fun v m' w => v = w ∧ m'.Exact j o rank k ∧ m.Unchanged m' fun g => k ≤ rank g)
      (j.valueAfresh (j.reader c) f p m) (o f p) := by
  unfold valueAfresh
  rw [run_get_bind]
  cases held : m.stored.get? f with
  | some t =>
    rw [start.stored less held]
    exact .of_still (lift_eq _ _) fun v => ⟨rfl, start, Memory.Unchanged.refl _ _⟩
  | none =>
    obtain ⟨d, init, evaluated⟩ := evaluated_mirrors serving layers mem settled less start held ready p
    dsimp only
    rw [init]
    refine evaluated.mono ?_
    rintro v m' w ⟨same, exact', others⟩
    exact ⟨same, exact'.raise start others, others.mono fun g above => less.le.trans above⟩

theorem callAfresh_transparent (layers : j.graph.Layered S rank) (mem : S f) {depth : Nat} (deep : rank f + 1 < depth) :
    j.Transparent (j.results rank) rank (j.callAfresh depth) f := by
  induction depth generalizing f with
  | zero => omega
  | succ depth ih =>
    have serving : j.Serving (j.results rank) rank (j.callAfresh depth) f := by
      refine ⟨fun reads other => ?_, fun {t p m} held => ?_⟩
      · obtain ⟨inside, less⟩ := layers.below mem reads other
        exact ih inside (by omega)
      · obtain ⟨depth, rfl⟩ : ∃ n, depth = n + 1 := ⟨depth - 1, by omega⟩
        exact answerAfresh_of_stored held
    have settled := results_eq (j := j) layers mem
    exact prepared_transparent serving layers mem settled
      (fun p k m less start ready => valueAfresh_mirrors serving layers mem settled less start ready p) fun _ => rfl

theorem results_ne_graph (layers : j.graph.Layered S rank) (mem : S f) (p : List Int) (e : GraphError) :
    j.results rank f p ≠ .error (.graph e) := by
  -- induction on the rank: an error is one of a read, and reads of funcs have a smaller rank
  generalize bound : rank f = n
  induction n using Nat.strong_induction_on generalizing f p with
  | _ n ih =>
    subst bound
    intro run
    rw [results_eq layers mem] at run
    have source {q : Results α} {env : Env α} {x : Expr κ} (fails : x.Fails (j.source q) env (.graph e))
        (calls : ∀ h p, (∃ r ∈ x.reads, r.target = .func h) → q h p ≠ .error (.graph e)) : False := by
      obtain ⟨y, unbound⟩ | ⟨t, p, performs, failed⟩ := fails
      · cases unbound
      cases t with
      | func h =>
        obtain ⟨r, read, target, -⟩ := performs.mem_reads
        exact calls h p ⟨r, read, target⟩ failed
      | buffer i => rcases data_error failed with same | ⟨_, _, same⟩ | ⟨same, -⟩ <;> cases same
      | param i => cases param_error failed
    have below {stage : Stage} {h : FuncId} (reads : (j.graph.func f).Reads stage (.func h))
        (other : h ≠ f ∨ stage = .initial) (p : List Int) : j.results rank h p ≠ .error (.graph e) := by
      obtain ⟨inside, less⟩ := layers.reads_below mem reads other
      exact ih (rank h) less inside p rfl
    cases fault_of_resultOf run with
    | undefined none => exact absurd (layers.defined mem) (by rw [none]; exact Bool.false_ne_true)
    | initial init _ failed =>
      refine source (Expr.failure_of_eval source_strict (.refl _) failed) fun h p ⟨r, read, target⟩ => ?_
      exact below (target ▸ Func.reads_initial init read) (Or.inr rfl) p
    | @update d t env x update _ _ own failed =>
      obtain ⟨i, listed⟩ := Func.mem_definitions_update update
      refine source (Expr.failure_of_eval source_strict (.refl _) failed) fun h p ⟨r, read, target⟩ => ?_
      have reads : (j.graph.func f).Reads (.update i) (.func h) :=
        ⟨d, listed, r, List.mem_flatMap.mpr ⟨x, own, read⟩, target⟩
      by_cases self : h = f
      · subst self
        rw [Function.update_self]
        intro failed
        unfold fetch at failed
        cases found : t.get? p <;> rw [found] at failed <;> cases failed
      · rw [Function.update_of_ne self]
        exact below reads (Or.inl self) p
    | shape same => cases same
    | write _ _ _ _ _ same => cases same
    | outside _ _ same => cases same

end Job

section

variable {κ α : Type} [Extended κ] [Scalar α] [Embed κ α]

namespace Graph

/-- Realization with calls of another kind. -/
def realizeBy (g : Graph κ) (call : Job κ α → Schedule → FuncId → List Int → Run α α) (f : FuncId) (domain : Domain)
    (bindings : Bindings α) : Except EvalError (Tensor α) := do
  let schedule ← (g.schedule f).mapError .graph
  let regions ← (g.inferRegions schedule f domain).mapError .shape
  let (values, _) ← (domain.points.mapM (call ⟨g, bindings, regions⟩ schedule f)).run {}
  domain.tensor (g.func f).name values

/-- Realization by the results of calls, with nothing remembered. -/
def realizeResults (g : Graph κ) (f : FuncId) (domain : Domain) (bindings : Bindings α) :
    Except EvalError (Tensor α) := do
  let schedule ← (g.schedule f).mapError .graph
  let regions ← (g.inferRegions schedule f domain).mapError .shape
  let values ← domain.points.mapM ((⟨g, bindings, regions⟩ : Job κ α).results schedule.funcs.idxOf f)
  domain.tensor (g.func f).name values

variable {g : Graph κ} {f : FuncId} {domain : Domain} {b : Bindings α} {s : Schedule}
  {call : Job κ α → Schedule → FuncId → List Int → Run α α}

theorem realizeBy_eq (order : g.schedule f = .ok s)
    (transparent : ∀ regions, (⟨g, b, regions⟩ : Job κ α).Transparent
      ((⟨g, b, regions⟩ : Job κ α).results s.funcs.idxOf) s.funcs.idxOf (call ⟨g, b, regions⟩ s) f) :
    g.realizeBy call f domain b = g.realizeResults f domain b := by
  unfold realizeBy realizeResults
  rw [order]
  refine bind_congr_ok fun s' scheduled => ?_
  obtain rfl := Except.ok.inj scheduled
  refine bind_congr_ok fun regions _ => ?_
  have empty : ({} : Memory α).Exact ⟨g, b, regions⟩ ((⟨g, b, regions⟩ : Job κ α).results s.funcs.idxOf)
      s.funcs.idxOf (s.funcs.idxOf f + 1) := ⟨fun _ => nofun, fun _ => nofun⟩
  have mirrored := Mirrors.mapM (l := domain.points) _ (fun p _ m start =>
    (transparent regions p _ m (Nat.lt_succ_self _) start).mono fun v m' w ⟨same, exact', _⟩ => ⟨exact', same⟩) empty
  cases mirrored with
  | error run failed =>
    rw [StateT.run, run, failed]
    rfl
  | ok run value held =>
    obtain ⟨-, rfl⟩ := held
    rw [StateT.run, run, value]
    rfl

/-- A realization has the results of its calls, in the order of the points, as if nothing was remembered. -/
theorem realize_eq_results (order : g.schedule f = .ok s) : g.realize f domain b = g.realizeResults f domain b := by
  obtain ⟨ordered, mem⟩ := ordered_schedule order
  have less := List.idxOf_lt_length_of_mem mem
  change g.realizeBy (fun j s => j.call (s.funcs.length + 1)) f domain b = _
  exact realizeBy_eq order fun regions => Job.call_transparent ordered.layered mem (Nat.succ_lt_succ less)

theorem error_of_realize {e : EvalError} (order : g.schedule f = .ok s) (run : g.realize f domain b = .error e) :
    (∃ e', e = .shape e') ∨ (∃ n, e = .shapeMismatch (g.func f).name domain.shape [n]) ∨
      ∃ regions, g.inferRegions s f domain = .ok regions ∧
        ∃ p ∈ domain.points, (⟨g, b, regions⟩ : Job κ α).results s.funcs.idxOf f p = .error e := by
  rw [realize_eq_results order] at run
  unfold realizeResults at run
  rw [order] at run
  rcases bind_eq_error.mp run with failed | ⟨s', scheduled, run⟩
  · cases failed
  obtain rfl := Except.ok.inj scheduled
  rcases bind_eq_error.mp run with failed | ⟨regions, inferred, run⟩
  · obtain ⟨e', -, same⟩ := mapError_eq_error.mp failed
    exact Or.inl ⟨e', same.symm⟩
  rcases bind_eq_error.mp run with failed | ⟨values, -, run⟩
  · obtain ⟨p, inside, failed⟩ := exists_of_mapM_error failed
    exact Or.inr (Or.inr ⟨regions, mapError_eq_ok.mp inferred, p, inside, failed⟩)
  · exact Or.inr (Or.inl ⟨_, (Domain.tensor_eq_error.mp run).2⟩)

/-- Realization ends with the calls nested as deep as the schedule is long, and more depth makes no difference. Calls go
down the schedule, or to a func that is being computed and then to its storage, and nobody else sees values that are not
final: the alarm is never raised. No problem of the graph is reported, and without the table of remembered values the
result, value or error, is the same. What a call of a func answers is its result, whatever has been computed before,
and the result of a func with updates is read from what all of them have computed. -/
theorem realize_disciplined (order : g.schedule f = .ok s) (domain : Domain) (b : Bindings α) :
    (∀ depth, s.funcs.length < depth → g.realizeBy (fun j _ => j.call depth) f domain b = g.realize f domain b) ∧
    (∀ alarm, g.realizeBy (fun j s => j.watched alarm s.funcs.reverse []) f domain b = g.realize f domain b) ∧
    (∀ e, g.realize f domain b ≠ .error (.graph e)) ∧
    g.realizeBy (fun j s => j.callAfresh (s.funcs.length + 1)) f domain b = g.realize f domain b ∧
    g.realizeResults f domain b = g.realize f domain b ∧
    ∀ regions, let j : Job κ α := ⟨g, b, regions⟩
      let o := j.results s.funcs.idxOf
      ∀ h ∈ s.funcs, j.Transparent o s.funcs.idxOf (j.call (s.funcs.length + 1)) h ∧
        ((g.func h).updates ≠ [] → ∀ p, o h p = j.computed o h >>= fun storage => j.fetch h storage p) := by
  obtain ⟨ordered, mem⟩ := ordered_schedule order
  have layers := ordered.layered
  have less {h : FuncId} (mem : h ∈ s.funcs) : s.funcs.idxOf h < s.funcs.length := List.idxOf_lt_length_of_mem mem
  have by_results {call : Job κ α → Schedule → FuncId → List Int → Run α α}
      (transparent : ∀ regions, (⟨g, b, regions⟩ : Job κ α).Transparent
        ((⟨g, b, regions⟩ : Job κ α).results s.funcs.idxOf) s.funcs.idxOf (call ⟨g, b, regions⟩ s) f) :
      g.realizeBy call f domain b = g.realize f domain b :=
    (realizeBy_eq order transparent).trans (realize_eq_results order).symm
  refine ⟨fun depth deep => ?_, fun alarm => ?_, fun e => ?_, ?_, (realize_eq_results order).symm,
    fun regions h mem => ⟨?_, fun updates p => ?_⟩⟩
  · have inside := less mem
    exact by_results fun regions => Job.call_transparent layers mem (by omega)
  · have whole : s.funcs = s.funcs.reverse.reverse ++ [] := by rw [List.reverse_reverse, List.append_nil]
    exact by_results fun regions => Job.watched_transparent ordered whole (fun h waits => absurd waits List.not_mem_nil)
      (List.mem_reverse.mpr mem)
  · intro run
    rcases error_of_realize order run with ⟨_, same⟩ | ⟨_, same⟩ | ⟨regions, -, p, -, failed⟩
    · cases same
    · cases same
    · exact Job.results_ne_graph layers mem p e failed
  · exact by_results fun regions => Job.callAfresh_transparent layers mem (Nat.succ_lt_succ (less mem))
  · exact Job.call_transparent layers mem (Nat.succ_lt_succ (less mem))
  · rw [Job.results_eq layers mem]
    unfold Job.resultOf
    rw [if_neg (by simpa using updates)]

end Graph

end

/-- `sums` adds to each square the one before it, and `out` reads both the sums and the squares. -/
def tallying : Graph (Exact ℚ) where
  funcs := #[
    { name := "out", args := ["x"],
      init := some ⟨[.var "x"], .binary .add (.call ⟨1⟩ [.var "x"]) (.call ⟨2⟩ [.var "x"]), none⟩ },
    { name := "sums", args := ["x"],
      init := some ⟨[.var "x"], .call ⟨2⟩ [.var "x"], none⟩,
      updates := [⟨[.rvar "r"], .binary .add (.call ⟨1⟩ [.rvar "r"]) (.call ⟨1⟩ [.binary .sub (.rvar "r") .one]),
        some ⟨[("r", ⟨1, 2⟩)]⟩⟩] },
    { name := "squares", args := ["x"], init := some ⟨[.var "x"], .binary .mul (.var "x") (.var "x"), none⟩ }]

/-- The squares 0, 1 and 4 with their sums 0, 1 and 5, however the calls are made. -/
theorem tallying.disciplined :
    tallying.realizeBy (fun j _ => j.call 9) ⟨0⟩ ⟨[⟨0, 2⟩]⟩ ({} : Bindings ℚ) = .ok ⟨[3], #[0, 2, 9]⟩ ∧
    tallying.realizeBy (fun j s => j.watched (.unboundVariable "alarm") s.funcs.reverse []) ⟨0⟩ ⟨[⟨0, 2⟩]⟩
      ({} : Bindings ℚ) = .ok ⟨[3], #[0, 2, 9]⟩ ∧
    tallying.realizeBy (fun j s => j.callAfresh (s.funcs.length + 1)) ⟨0⟩ ⟨[⟨0, 2⟩]⟩ ({} : Bindings ℚ) =
      .ok ⟨[3], #[0, 2, 9]⟩ := by
  have order : tallying.schedule ⟨0⟩ = .ok ⟨[⟨2⟩, ⟨1⟩, ⟨0⟩],
      [(⟨2⟩, .initial), (⟨1⟩, .initial), (⟨1⟩, .update 0), (⟨0⟩, .initial)], [], []⟩ := by decide +kernel
  have run : tallying.realize ⟨0⟩ ⟨[⟨0, 2⟩]⟩ ({} : Bindings ℚ) = .ok ⟨[3], #[0, 2, 9]⟩ := by decide +kernel
  obtain ⟨deeper, watched, -, afresh, -⟩ := Graph.realize_disciplined order ⟨[⟨0, 2⟩]⟩ ({} : Bindings ℚ)
  exact ⟨(deeper 9 (by decide)).trans run, (watched _).trans run, afresh.trans run⟩

end ArrayDiff
