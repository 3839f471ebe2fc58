import ArrayDiff.Proofs.Copying
import ArrayDiff.Proofs.Rewriting

/-!
# Replaced variables and redirected calls

An expression whose variables are replaced evaluates like the expression itself where every replaced variable has the
value of its image, all of them at once (`Rebinds.eval_bind`). This holds for errors too, and for the interpreter,
which evaluates an image as often as its variable occurs and remembers values in between. Redirecting calls leaves none
of them, and evaluates like the expression where they are answered as the other calls (`Expr.eval_redirect`).
-/

namespace ArrayDiff

variable {κ α : Type}

/-! ### Environments with the values of images -/

/-- The new values are those of the images for the variables that `σ` replaces, and the old ones for the others; `gives`
tells what the images evaluate to. -/
structure Rebinds (σ : Name → Option (Expr κ)) (gives : Expr κ → α → Prop) (old new : List (Name × α)) : Prop where
  image {x : Name} {e : Expr κ} : σ x = some e → ∃ v, gives e v ∧ new.lookup x = some v
  other {x : Name} : σ x = none → new.lookup x = old.lookup x

namespace Rebinds

variable {σ : Name → Option (Expr κ)} {gives gives' : Expr κ → α → Prop} {old new : List (Name × α)}

theorem none : Rebinds (fun _ => Option.none) gives old old := by
  constructor
  · intro x e found
    cases found
  · intro x _
    rfl

theorem mono (h : Rebinds σ gives old new) (wider : ∀ x e v, σ x = some e → gives e v → gives' e v) :
    Rebinds σ gives' old new := by
  constructor
  · intro x e found
    obtain ⟨v, given, value⟩ := h.image found
    exact ⟨v, wider x e v found given, value⟩
  · exact h.other

theorem of_values {images : List (Name × Expr κ)} {values : List α}
    (given : List.Forall₂ (fun i v => gives i.2 v) images values) (old : List (Name × α)) :
    Rebinds (fun x => images.lookup x) gives old ((images.map (·.1)).zip values ++ old) := by
  induction given with
  | nil => exact none
  | @cons i v images values head tail ih =>
    obtain ⟨y, e⟩ := i
    constructor
    · intro x image found
      rw [List.map_cons, List.zip_cons_cons, List.cons_append, List.lookup_cons]
      rw [List.lookup_cons] at found
      cases same : x == y with
      | true =>
        simp only [same] at found
        obtain rfl := Option.some.inj found
        exact ⟨v, head, rfl⟩
      | false =>
        simp only [same] at found
        exact ih.image found
    · intro x absent
      rw [List.map_cons, List.zip_cons_cons, List.cons_append, List.lookup_cons]
      rw [List.lookup_cons] at absent
      cases same : x == y with
      | true =>
        simp only [same] at absent
        cases absent
      | false =>
        simp only [same] at absent
        exact ih.other absent

end Rebinds

variable [Scalar κ] [Scalar α] [Embed κ α] {e : Expr κ} {σ τ : Name → Option (Expr κ)} {env env' : Env α}

/-! ### Evaluations with the values of images -/

namespace Rebinds

section

variable {m n : Type → Type} [Monad m] [Monad n] {L : Lifting m n} {p : Reader m α} {q : Reader n α}
  {old new : List (Name × α)}

omit [Scalar κ] in
theorem rel_getD (h : Rebinds σ (fun image v => L.rel Eq (image.eval p env) (pure v)) old new) {x : Name}
    {atom : Expr κ} (kept : L.rel Eq (atom.eval p env) ((old.lookup x).elim (q.unbound x) pure)) :
    L.rel Eq (((σ x).getD atom).eval p env) ((new.lookup x).elim (q.unbound x) pure) := by
  cases found : σ x with
  | none =>
    rw [h.other found]
    exact kept
  | some image =>
    obtain ⟨v, given, value⟩ := h.image found
    rw [value]
    exact given

omit [Scalar κ] in
/-- If the images are related to their values, the expression with its variables replaced is related to the expression
where the variables have these values. -/
theorem rel_bind (related : Expr.Related L Eq p q env env e)
    (vars : Rebinds σ (fun image v => L.rel Eq (image.eval p env) (pure v)) env.vars env'.vars)
    (rvars : Rebinds τ (fun image v => L.rel Eq (image.eval p env) (pure v)) env.rvars env'.rvars) :
    L.rel Eq ((e.bind σ τ).eval p env) (e.eval q env') := by
  apply Expr.bind_rel Respected.eq
  refine ⟨related.const, ?_, ?_, related.call, related.load, related.param⟩
  · intro x mem
    exact vars.rel_getD (related.var x mem)
  · intro x mem
    exact rvars.rel_getD (related.rvar x mem)

end

variable {m : Type → Type} [Monad m] [LawfulMonad m] {reader : Reader m α}

omit [Scalar κ] in
/-- If the images evaluate to their values without any effect, nothing changes when they stand for their variables. -/
theorem eval_bind (vars : Rebinds σ (fun image v => image.eval reader env = pure v) env.vars env'.vars)
    (rvars : Rebinds τ (fun image v => image.eval reader env = pure v) env.rvars env'.rvars) :
    (e.bind σ τ).eval reader env = e.eval reader env' := by
  have alike : Expr.Alike reader reader e := ⟨fun _ _ => rfl, rfl, rfl, rfl⟩
  have same (image : Expr κ) (v : α) (given : image.eval reader env = pure v) :
      (Lifting.paired m).rel Eq (image.eval reader env) (pure v) := by
    rw [given]
    exact Lifting.paired_refl _
  apply Lifting.eq_of_paired
  exact rel_bind alike.related (vars.mono fun _ image v _ => same image v) (rvars.mono fun _ image v _ => same image v)

end Rebinds

/-! ### Evaluations in the interpreter -/

omit [Scalar α] in
theorem Mirrors.map_fst {A : Type} {I : Memory α → Prop} {run : Except EvalError (A × Memory α)}
    {d : Except EvalError A} (h : Mirrors (fun x m' y => I m' ∧ x = y) run d) : run.map (·.1) = d := by
  cases h with
  | ok run value held =>
    rw [run, value, ← held.2]
    rfl
  | error run failed =>
    rw [run, failed]
    rfl

namespace Job

variable {j : Job κ α} {s : Schedule} {root : FuncId} {k depth : Nat} {m : Memory α}

section

variable (order : j.graph.schedule root = .ok s) (memory : m.Exact j (j.results s.funcs.idxOf) s.funcs.idxOf k)
  (deep : k < depth)
include order memory deep

theorem related_steady (env : Env α)
    (callable : ∀ r ∈ e.reads, ∀ f, r.target = .func f → Callable s k m f) :
    Expr.Related (Lifting.exact (j.Steady s k m)) Eq (j.reader (j.call depth)) (j.source (resultsIn (j.call depth) m))
      env env e :=
  related_exact env fun r read f target p => answers_alike order memory deep (callable r read f target) p

/-- Replacing variables by images has the result that the expression has where the variables have the values of the
images. -/
theorem bind_results (callable : ∀ r ∈ e.reads, ∀ f, r.target = .func f → Callable s k m f)
    (images : ∀ x image, σ x = some image ∨ τ x = some image → ∀ r ∈ image.reads, ∀ f, r.target = .func f →
      Callable s k m f)
    (vars : Rebinds σ (fun image v => ∃ m', image.eval (j.reader (j.call depth)) env m = .ok (v, m')) env.vars
      env'.vars)
    (rvars : Rebinds τ (fun image v => ∃ m', image.eval (j.reader (j.call depth)) env m = .ok (v, m')) env.rvars
      env'.rvars) :
    ((e.bind σ τ).eval (j.reader (j.call depth)) env m).map (·.1) =
      (e.eval (j.reader (j.call depth)) env' m).map (·.1) := by
  have start : j.Steady s k m m := ⟨memory, Memory.Unchanged.refl m _⟩
  have steady {image : Expr κ} (known : ∀ r ∈ image.reads, ∀ f, r.target = .func f → Callable s k m f) {v : α}
      (given : ∃ m', image.eval (j.reader (j.call depth)) env m = .ok (v, m')) :
      (Lifting.exact (j.Steady s k m)).rel Eq (image.eval (j.reader (j.call depth)) env) (pure v) := by
    have mirrored := Expr.eval_rel Respected.eq (related_steady order memory deep env known)
    obtain ⟨m', run⟩ := given
    have result := (mirrored m start).map_fst
    rw [run] at result
    rwa [← result] at mirrored
  have replaced := Rebinds.rel_bind (related_steady order memory deep env callable)
    (vars.mono fun x image v found => steady (images x image (.inl found)))
    (rvars.mono fun x image v found => steady (images x image (.inr found)))
  have whole := Expr.eval_rel Respected.eq (related_steady order memory deep env' callable)
  exact (replaced m start).map_fst.trans (whole m start).map_fst.symm

end

end Job

/-! ### Redirected calls -/

omit [Scalar κ] in
theorem Expr.call_not_mem_redirect {f g : FuncId} (other : f ≠ g) (e : Expr κ) (args : List (Expr κ)) :
    call f args ∉ (e.redirect f g).nodes := by
  induction e with
  | const _ | var _ | rvar _ | param _ => simp [redirect, nodes]
  | call h as ih =>
    have renamed : f ≠ if h = f then g else h := by
      split
      · exact other
      · rename_i different
        exact Ne.symm different
    simp only [redirect, nodes, redirectList_eq_map, List.mem_cons, call.injEq, mem_nodesList, List.mem_map, not_or]
    refine ⟨fun same => renamed same.1, ?_⟩
    rintro ⟨_, ⟨a, mem, rfl⟩, inside⟩
    exact ih a mem inside
  | load b as ih =>
    simp only [redirect, nodes, redirectList_eq_map, List.mem_cons, reduceCtorEq, false_or, mem_nodesList, List.mem_map]
    rintro ⟨_, ⟨a, mem, rfl⟩, inside⟩
    exact ih a mem inside
  | unary op a ih | not a ih => simpa [redirect, nodes] using ih
  | binary op a b iha ihb | compare op a b iha ihb | and a b iha ihb | or a b iha ihb =>
    simpa [redirect, nodes] using ⟨iha, ihb⟩
  | select c t f ihc iht ihf => simpa [redirect, nodes] using ⟨ihc, iht, ihf⟩

/-! ### The interpreter and every other evaluation -/

/-- All calls in an expression can be made. -/
def Job.AllCallable (s : Schedule) (k : Nat) (m : Memory α) (e : Expr κ) : Prop :=
  ∀ r ∈ e.reads, ∀ f, r.target = .func f → Job.Callable s k m f

/-- Replacing pure or reduction variables has the result that the expression has where all of these variables have the
values of their images, when reads are answered without memory, and in the interpreter wherever it can be in a
realization. Redirecting the calls of `f` to `g` leaves no call of `f`, and evaluates like the expression with calls of
`f` answered as those of `g`. -/
theorem Expr.replaced_evaluates (e : Expr κ) (σ : Name → Option (Expr κ)) (env : Env α) :
    (∀ (ε : Type) (reader : Reader (Except ε) α),
      (∀ vars, Rebinds σ (fun image v => image.eval reader env = .ok v) env.vars vars →
        (e.substitute σ).eval reader env = e.eval reader { env with vars }) ∧
      ∀ rvars, Rebinds σ (fun image v => image.eval reader env = .ok v) env.rvars rvars →
        (e.substituteRVars σ).eval reader env = e.eval reader { env with rvars }) ∧
    (∀ (j : Job κ α) (root : FuncId) (s : Schedule) (k depth : Nat) (m : Memory α), j.graph.schedule root = .ok s →
      m.Exact j (j.results s.funcs.idxOf) s.funcs.idxOf k → k < depth → Job.AllCallable s k m e →
      (∀ x image, σ x = some image → Job.AllCallable s k m image) →
      (∀ vars, Rebinds σ (fun image v => ∃ m', image.eval (j.reader (j.call depth)) env m = .ok (v, m')) env.vars vars →
        ((e.substitute σ).eval (j.reader (j.call depth)) env m).map (·.1) =
          (e.eval (j.reader (j.call depth)) { env with vars } m).map (·.1)) ∧
      ∀ rvars, Rebinds σ (fun image v => ∃ m', image.eval (j.reader (j.call depth)) env m = .ok (v, m')) env.rvars
          rvars →
        ((e.substituteRVars σ).eval (j.reader (j.call depth)) env m).map (·.1) =
          (e.eval (j.reader (j.call depth)) { env with rvars } m).map (·.1)) ∧
    ∀ f g, f ≠ g → (∀ args, .call f args ∉ (e.redirect f g).nodes) ∧
      ∀ (m : Type → Type) [Monad m] (reader : Reader m α), (e.redirect f g).eval reader env =
        e.eval { reader with call := fun h => reader.call (if h = f then g else h) } env := by
  refine ⟨?_, ?_, ?_⟩
  · intro ε reader
    constructor
    · intro vars h
      exact h.eval_bind .none
    · intro rvars h
      unfold substituteRVars
      exact Rebinds.eval_bind .none h
  · intro j root s k depth m order memory deep callable images
    constructor
    · intro vars h
      refine Job.bind_results order memory deep callable ?_ h .none
      rintro x image (found | found)
      · exact images x image found
      · cases found
    · intro rvars h
      refine Job.bind_results order memory deep callable ?_ .none h
      rintro x image (found | found)
      · cases found
      · exact images x image found
  · intro f g other
    exact ⟨e.call_not_mem_redirect other, fun m _ reader => e.eval_redirect reader env f g⟩

namespace succeeding

/-- `succ(x) - y`. -/
def difference : Expr ℚ := .binary .sub (.call ⟨0⟩ [.var "x"]) (.var "y")

/-- The variables change places. -/
def swap : List (Name × Expr ℚ) := [("x", .var "y"), ("y", .var "x")]

/-- `succ(y) - x` is 5 for `x = 1` and `y = 5`, like `succ(x) - y` for `x = 5` and `y = 1`. -/
theorem swapped_evaluates :
    ((difference.substitute fun x => swap.lookup x).eval (job.reader (job.call 2))
        ⟨[("x", 1), ("y", 5)], []⟩ {}).map (·.1) =
      (difference.eval (job.reader (job.call 2)) ⟨[("x", 5), ("y", 1), ("x", 1), ("y", 5)], []⟩ {}).map (·.1) ∧
    ∀ args, .call ⟨0⟩ args ∉ (difference.redirect ⟨0⟩ ⟨1⟩).nodes := by
  obtain ⟨-, interpreted, redirected⟩ :=
    Expr.replaced_evaluates difference (fun x => swap.lookup x) (⟨[("x", 1), ("y", 5)], []⟩ : Env ℚ)
  have scheduled : job.graph.schedule ⟨0⟩ = .ok order := by decide +kernel
  have reads : difference.reads = [⟨.func ⟨0⟩, [.var "x"]⟩] := rfl
  have callable : Job.AllCallable order 1 ({} : Memory ℚ) difference := by
    intro r mem f target
    rw [reads] at mem
    obtain rfl := List.mem_singleton.mp mem
    obtain rfl := Target.func.inj target
    exact .inl ⟨by decide, by decide⟩
  have images : ∀ x image, swap.lookup x = some image → Job.AllCallable order 1 ({} : Memory ℚ) image := by
    intro x image found r mem
    have listed : image = .var "y" ∨ image = .var "x" := by
      simp only [swap, List.lookup_cons, List.lookup_nil] at found
      split at found
      · exact .inl (Option.some.inj found).symm
      split at found
      · exact .inr (Option.some.inj found).symm
      · cases found
    rcases listed with rfl | rfl
    · cases mem
    · cases mem
  have rebound : Rebinds (fun x => swap.lookup x)
      (fun image v => ∃ m', image.eval (job.reader (job.call 2)) ⟨[("x", 1), ("y", 5)], []⟩ {} = .ok (v, m'))
      [("x", 1), ("y", 5)] [("x", (5 : ℚ)), ("y", 1), ("x", 1), ("y", 5)] :=
    Rebinds.of_values (.cons ⟨{}, rfl⟩ (.cons ⟨{}, rfl⟩ .nil)) _
  obtain ⟨substituted, -⟩ := interpreted job ⟨0⟩ order 1 2 {} scheduled Memory.exact_empty (by decide) callable images
  exact ⟨substituted _ rebound, (redirected ⟨0⟩ ⟨1⟩ (by decide)).1⟩

end succeeding

end ArrayDiff
