import ArrayDiff.Proofs.Success
import ArrayDiff.Proofs.Transparency

/-!
# Simplification in the interpreter

Wherever the interpreter can be in a realization, it answers the calls of an expression alike however often they are
made (`Job.answers_alike`), so that its run is an evaluation with fixed answers (`Job.run_iff`). What it evaluates an
expression to without errors and divisions by 0 is then what it evaluates the simplified expression to
(`Expr.simplify_evaluated`), though that makes other calls and leaves other values remembered.
-/

namespace ArrayDiff

/-! ### Errors as missing values -/

/-- A computation that can fail succeeds exactly when the other one has a value. -/
def Lifting.optional (ε : Type) : Lifting (Except ε) Option where
  rel S c d := Option.Rel S c.toOption d
  rel_pure same := .some same
  rel_bind {_ _ _ _ _ _ c d _ _} first next := by
    cases c with
    | error e =>
      cases first
      exact .none
    | ok x =>
      cases first with
      | some same => exact next x _ same

theorem optionRel_toOption {ε A : Type} (c : Except ε A) : (Lifting.optional ε).rel Eq c c.toOption := by
  cases c with
  | error e => exact .none
  | ok x => exact .some rfl

theorem eq_of_optional {ε A : Type} {c : Except ε A} {d : Option A} (same : (Lifting.optional ε).rel Eq c d) :
    c.toOption = d := by
  have general {a b : Option A} (same : Option.Rel Eq a b) : a = b := by
    cases same with
    | some same => rw [same]
    | none => rfl
  exact general same

section Interpreter

variable {κ α : Type} [Scalar κ] [Scalar α] [Embed κ α]

namespace Job

/-- The answers of a job when calls have the given results. -/
def answering (j : Job κ α) (o : Results α) : Answers α where
  call f p := (o f p).toOption
  load b p := (j.data b p).toOption
  param i := (j.bindings.param j.graph i).toOption

/-- What the calls result in that are made in a memory. -/
def resultsIn (call : FuncId → List Int → Run α α) (m : Memory α) : Results α := fun f p => (call f p m).map (·.1)

/-- The answers that an interpreter gives in a memory. -/
def answersIn (j : Job κ α) (call : FuncId → List Int → Run α α) (m : Memory α) : Answers α :=
  j.answering (resultsIn call m)

/-- A run of the interpreter evaluates `e` to `v`, without an error and without dividing by 0. -/
structure Obtains (j : Job κ α) (depth : Nat) (m : Memory α) (env : Env α) (e : Expr κ) (v : α) : Prop where
  run : ∃ m', e.eval (j.reader (j.call depth)) env m = .ok (v, m')
  divisor {a b : Expr κ} : Expr.Visits (j.answersIn (j.call depth) m).filled env e (.binary .div a b) →
    Scalar.isZero (b.value (j.answersIn (j.call depth) m).filled env) = false

/-- A func that can be called when results of the funcs of rank less than `k` are remembered: it is one of those, or it
is being computed and has a storage. -/
def Callable (s : Schedule) (k : Nat) (m : Memory α) (f : FuncId) : Prop :=
  (f ∈ s.funcs ∧ s.funcs.idxOf f < k) ∨ (k ≤ s.funcs.idxOf f ∧ (m.stored.get? f).isSome)

variable {j : Job κ α} {o : Results α} {s : Schedule} {root f : FuncId} {k depth : Nat} {m m' : Memory α} {env : Env α}
  {e : Expr κ} {v : α}

omit [Scalar κ] in
theorem eval_source (o : Results α) (env : Env α) (e : Expr κ) :
    (e.eval (j.source o) env).toOption = e.value? (j.answering o) env := by
  have bound (found : Option α) (x : Name) : (Lifting.optional EvalError).rel Eq
      (found.elim ((j.source o).unbound x) pure) (found.elim ((j.answering o).reader.unbound x) pure) := by
    cases found with
    | none => exact .none
    | some v => exact .some rfl
  have related : Expr.Related (Lifting.optional EvalError) Eq (j.source o) (j.answering o).reader env env e :=
    ⟨fun _ => rfl, fun x _ => bound _ x, fun x _ => bound _ x, fun f _ p _ => optionRel_toOption (o f p),
      fun b p => optionRel_toOption (j.data b p), fun i => optionRel_toOption (j.bindings.param j.graph i)⟩
  exact eq_of_optional (Expr.eval_rel Respected.eq related)

/-- The memories in which calls are answered like in `m`. -/
def Steady (j : Job κ α) (s : Schedule) (k : Nat) (m m' : Memory α) : Prop :=
  m'.Exact j (j.results s.funcs.idxOf) s.funcs.idxOf k ∧ m.Unchanged m' fun g => k ≤ s.funcs.idxOf g

theorem answers_alike (order : j.graph.schedule root = .ok s)
    (memory : m.Exact j (j.results s.funcs.idxOf) s.funcs.idxOf k) (deep : k < depth) (callable : Callable s k m f)
    (p : List Int) : (Lifting.exact (j.Steady s k m)).rel Eq (j.call depth f p) (resultsIn (j.call depth) m f p) := by
  rintro m₁ ⟨exact₁, unchanged₁⟩
  rcases callable with ⟨mem, less⟩ | ⟨above, stored⟩
  · have transparent := (call_transparent (Graph.ordered_schedule order).1.layered mem (Nat.lt_of_le_of_lt less deep) :
      j.Transparent _ _ _ f)
    have same : resultsIn (j.call depth) m f p = j.results s.funcs.idxOf f p := by
      unfold resultsIn
      cases transparent p k m less memory with
      | ok run result held =>
        rw [run, result, ← held.1]
        rfl
      | error run failed =>
        rw [run, failed]
        rfl
    rw [same]
    refine (transparent p k m₁ less exact₁).mono ?_
    rintro v m₂ w ⟨same, exact₂, unchanged₂⟩
    exact ⟨⟨exact₂, unchanged₁.trans unchanged₂⟩, same⟩
  · obtain ⟨storage, held⟩ := Option.isSome_iff_exists.mp stored
    obtain ⟨depth, rfl⟩ : ∃ n, depth = n + 1 := ⟨depth - 1, by omega⟩
    have held₁ : m₁.stored.get? f = some storage := (unchanged₁ f above).1.trans held
    have same : resultsIn (j.call (depth + 1)) m f p = j.fetch f storage p := by
      unfold resultsIn call
      rw [answer_of_stored held]
      cases j.fetch f storage p <;> rfl
    rw [same]
    exact .of_still (answer_of_stored held₁) fun v => ⟨⟨exact₁, unchanged₁⟩, rfl⟩

/-- A run of the interpreter succeeds like an evaluation with the answers that it gives in the memory at its start. -/
theorem run_iff (order : j.graph.schedule root = .ok s)
    (memory : m.Exact j (j.results s.funcs.idxOf) s.funcs.idxOf k) (deep : k < depth)
    (callable : ∀ r ∈ e.reads, ∀ f, r.target = .func f → Callable s k m f) :
    (∃ m', e.eval (j.reader (j.call depth)) env m = .ok (v, m')) ↔
      e.value? (j.answersIn (j.call depth) m) env = some v := by
  have related : Expr.Related (Lifting.exact (j.Steady s k m)) Eq (j.reader (j.call depth))
      (j.source (resultsIn (j.call depth) m)) env env e :=
    related_exact env fun r read f target p => answers_alike order memory deep (callable r read f target) p
  have start : j.Steady s k m m := ⟨memory, Memory.Unchanged.refl m _⟩
  unfold answersIn
  rw [← eval_source]
  cases Expr.eval_rel Respected.eq related m start with
  | ok run value held =>
    obtain ⟨-, rfl⟩ := held
    rw [run, value]
    simp [Except.toOption]
  | error run failed =>
    rw [run, failed]
    simp [Except.toOption]

end Job

end Interpreter

/-! ### Operands of logic -/

variable {K : Type} [Field K] [LinearOrder K] [FloorRing K] [Transcendental K]

namespace Expr

/-- The expression can only be 0 or 1: it is a comparison, logic or one of the two numbers. -/
def IsCondition : Expr K → Prop
  | const k => k = 0 ∨ k = 1
  | compare .. | and .. | or .. | not _ => True
  | _ => False

/-- Operands of conjunctions and disjunctions are conditions. -/
def LogicNode : Expr K → Prop
  | and a b | or a b => a.IsCondition ∧ b.IsCondition
  | _ => True

variable {ρ : Valuation K} {env : Env K} {a e : Expr K}

theorem IsCondition.isTruth (condition : a.IsCondition) : IsTruth (a.value ρ env) := by
  have truth (b : Bool) : IsTruth (Scalar.ofBool b : K) := by
    cases b
    · exact .inl exact_zero
    · exact .inr exact_one
  cases a with
  | const k => exact condition
  | compare op a b => exact truth _
  | and a b =>
    rw [value_and]
    split
    · exact .inl exact_zero
    · exact truth _
  | or a b =>
    rw [value_or]
    split
    · exact truth _
    · exact .inr exact_one
  | not a => exact truth _
  | _ => exact condition.elim

theorem decided_of_logicNode (logic : e.Everywhere LogicNode) : e.Throughout ρ env (Decided ρ env) := by
  intro x visit
  have node := logic x visit.mem_nodes
  cases x with
  | and a b | or a b => exact ⟨node.1.isTruth, fun _ => node.2.isTruth⟩
  | _ => trivial

end Expr

/-! ### Simplified expressions -/

namespace Expr

theorem target_simplify {κ : Type} [Scalar κ] {e : Expr κ} {r : Read κ} (mem : r ∈ e.simplify.reads) :
    ∃ r' ∈ e.reads, r'.target = r.target := by
  have kept : Kept fun x : Expr κ => ∀ r, x.read? = some r → ∃ r' ∈ e.reads, r'.target = r.target := by
    constructor
    case call =>
      rintro f as bs - known r ⟨⟩
      exact known ⟨.func f, as⟩ rfl
    case load =>
      rintro b as bs - known r ⟨⟩
      exact known ⟨.buffer b, as⟩ rfl
    all_goals
      intros
      contradiction
  have all := everywhere_simplify kept fun a own _ r read => ⟨r, List.mem_filterMap.mpr ⟨a, own, read⟩, rfl⟩
  obtain ⟨x, own, read⟩ := List.mem_filterMap.mp mem
  exact all x own r read

variable {j : Job K K} {s : Schedule} {root : FuncId} {k depth : Nat} {m : Memory K} {env : Env K} {e : Expr K} {v : K}

/-- Where the interpreter evaluates an expression without errors and divisions by 0, it evaluates the simplified one to
the same value. It only runs on graphs that have a schedule. -/
theorem simplify_evaluated (order : j.graph.schedule root = .ok s)
    (memory : m.Exact j (j.results s.funcs.idxOf) s.funcs.idxOf k) (deep : k < depth)
    (callable : ∀ r ∈ e.reads, ∀ f, r.target = .func f → Job.Callable s k m f) (logic : e.Everywhere LogicNode)
    (obtains : j.Obtains depth m env e v) : j.Obtains depth m env e.simplify v := by
  have value := (Job.run_iff order memory deep callable).mp obtains.run
  have plain : e.Evaluates (j.answersIn (j.call depth) m) env :=
    ⟨Option.isSome_iff_exists.mpr ⟨v, value⟩, fun visit => by simpa using obtains.divisor visit⟩
  have runs := evaluates_iff.mp plain
  obtain rfl : e.value (j.answersIn (j.call depth) m).filled env = v :=
    Option.some.inj ((value?_of_runs runs).symm.trans value)
  have simplified := yields_simplify runs (decided_of_logicNode logic)
  refine ⟨(Job.run_iff order memory deep fun r mem f target => ?_).mpr ?_, fun visit => ?_⟩
  · obtain ⟨r', known, same⟩ := target_simplify mem
    exact callable r' known f (same.trans target)
  · rw [value?_of_runs simplified.runs, simplified.value]
  · simpa using (evaluates_iff.mpr simplified.runs).divisor visit

end Expr

/-- `succ` is its argument and 1. -/
def succeeding : Graph ℚ where
  funcs := #[{ name := "succ", args := ["x"], init := some ⟨[.var "x"], .binary .add (.var "x") .one, none⟩ }]

namespace succeeding

/-- `if true and x < 3 then (succ(x * 1) + 0) / x else 1 / (x - x)`. -/
def quotient : Expr ℚ :=
  .select (.and .one (.compare .lt (.var "x") (.const 3)))
    (.binary .div (.binary .add (.call ⟨0⟩ [.binary .mul (.var "x") .one]) .zero) (.var "x"))
    (.binary .div .one (.binary .sub (.var "x") (.var "x")))

def job : Job ℚ ℚ := ⟨succeeding, {}, {}⟩

def env : Env ℚ := { vars := [("x", 1)] }

def order : Schedule := ⟨[⟨0⟩], [(⟨0⟩, .initial)], [], []⟩

example : quotient.simplify = .select (.compare .lt (.var "x") (.const 3))
    (.binary .div (.call ⟨0⟩ [.var "x"]) (.var "x")) (.binary .div .one (.binary .sub (.var "x") (.var "x"))) := by
  rfl

/-- The quotient is 2 at 1, also without the conjunction, the product and the sum. -/
theorem evaluated : job.Obtains 2 {} env quotient 2 ∧ job.Obtains 2 {} env quotient.simplify 2 := by
  have scheduled : job.graph.schedule ⟨0⟩ = .ok order := by decide +kernel
  have value : ((quotient.eval (job.reader (job.call 2)) env {}).toOption.map (·.1)) = some 2 := by decide +kernel
  have below : Comparison.lt.holds (1 : ℚ) 3 = true := by decide +kernel
  have run : job.Obtains 2 {} env quotient 2 := by
    obtain ⟨⟨v, m'⟩, run, rfl⟩ := Option.map_eq_some_iff.mp value
    refine ⟨⟨m', toOption_eq_some.mp run⟩, fun {a b} visit => ?_⟩
    have nonzero : quotient.Throughout (job.answersIn (job.call 2) {}).filled env fun x =>
        ∀ a b, x = .binary .div a b → Scalar.isZero (b.value (job.answersIn (job.call 2) {}).filled env) = false := by
      simp [quotient, Env.var, env, below, Expr.one, Expr.zero]
    exact nonzero _ visit a b rfl
  have fresh : ({} : Memory ℚ).Exact job (job.results order.funcs.idxOf) order.funcs.idxOf 1 := by
    constructor
    · intros
      contradiction
    · intros
      contradiction
  refine ⟨run, Expr.simplify_evaluated scheduled fresh (by decide) ?_ ?_ run⟩
  · intro r mem f target
    have reads : quotient.reads = [⟨.func ⟨0⟩, [.binary .mul (.var "x") .one]⟩] := rfl
    rw [reads] at mem
    obtain rfl := List.mem_singleton.mp mem
    obtain rfl := Target.func.inj target
    exact .inl ⟨by decide, by decide⟩
  · simp [Expr.Everywhere, quotient, Expr.nodes, Expr.nodesList, Expr.LogicNode, Expr.IsCondition, Expr.one, Expr.zero]

end succeeding

end ArrayDiff
