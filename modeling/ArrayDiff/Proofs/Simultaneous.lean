import ArrayDiff.Proofs.Classification
import ArrayDiff.Proofs.Coordinates
import ArrayDiff.Proofs.Fault
import ArrayDiff.Proofs.Independence
import ArrayDiff.Proofs.Transparency

/-!
# Overwriting updates read what was stored before them

An update over a reduction domain runs step by step, and a self-read sees what is stored by then. If the update is
classified as overwriting, no iteration reads a position that an earlier one has written (`Overwriting.pairwise`). So
the storage afterwards is the one that results when all iterations are evaluated first and stored then
(`Job.overwrite_simultaneous`), as long as index arguments have the values of the coordinates that they are taken for.
-/

open ArrayDiff.Expr

namespace ArrayDiff

/-! ### Loops over what is there at the start -/

section Loops

variable {S X E ε : Type} {make : S → X → Except ε E} {put : S → E → Except ε S} {l : List X} {s₀ s t : S}

/-- A loop whose steps make the same in every state that they meet as in one and the same state makes everything in that
state. -/
theorem foldlM_eq_ok_iff (old : X → S → Prop) (same : ∀ x ∈ l, ∀ s, old x s → make s x = make s₀ x)
    (keep : l.Pairwise fun x y => ∀ s e s', make s₀ x = .ok e → put s e = .ok s' → old y s → old y s')
    (start : ∀ x ∈ l, old x s) :
    l.foldlM (fun s x => make s x >>= put s) s = .ok t ↔
      (l.mapM (make s₀) >>= fun es => es.foldlM put s) = .ok t := by
  induction l generalizing s with
  | nil => exact Iff.rfl
  | cons x l ih =>
    obtain ⟨head, tail⟩ := List.pairwise_cons.mp keep
    have rest {e : E} {s' : S} (made : make s₀ x = .ok e) (stored : put s e = .ok s') :
        l.foldlM (fun s x => make s x >>= put s) s' = .ok t ↔
          (l.mapM (make s₀) >>= fun es => es.foldlM put s') = .ok t :=
      ih (fun y mem => same y (List.mem_cons_of_mem x mem)) tail fun y mem =>
        head y mem s e s' made stored (start y (List.mem_cons_of_mem x mem))
    rw [List.foldlM_cons, List.mapM_cons, same x List.mem_cons_self s (start x List.mem_cons_self)]
    simp only [bind_assoc, pure_bind, List.foldlM_cons]
    constructor
    · intro run
      obtain ⟨e, made, run⟩ := bind_eq_ok.mp run
      obtain ⟨s', stored, run⟩ := bind_eq_ok.mp run
      obtain ⟨es, mapped, run⟩ := bind_eq_ok.mp ((rest made stored).mp run)
      exact bind_eq_ok.mpr ⟨e, made, bind_eq_ok.mpr ⟨es, mapped, bind_eq_ok.mpr ⟨s', stored, run⟩⟩⟩
    · intro run
      obtain ⟨e, made, run⟩ := bind_eq_ok.mp run
      obtain ⟨es, mapped, run⟩ := bind_eq_ok.mp run
      obtain ⟨s', stored, run⟩ := bind_eq_ok.mp run
      have looped := (rest made stored).mpr (bind_eq_ok.mpr ⟨es, mapped, run⟩)
      exact bind_eq_ok.mpr ⟨e, made, bind_eq_ok.mpr ⟨s', stored, looped⟩⟩

end Loops

/-! ### Evaluations that reach the same values -/

namespace Expr

variable {κ α ε : Type} [Scalar α] [Embed κ α] {p q : Reader (Except ε) α} {env : Env α} {e : Expr κ}
  {args : List (Expr κ)}

theorem evalIndex_congr (same : ∀ a ∈ args, a.eval p env = a.eval q env) :
    evalIndex p env args = evalIndex q env args := by
  induction args with
  | nil => rfl
  | cons a as ih =>
    unfold evalIndex
    rw [same a List.mem_cons_self, ih fun b mem => same b (List.mem_cons_of_mem a mem)]

theorem eval_eq_of_calls (load : p.load = q.load) (param : p.param = q.param) (unbound : p.unbound = q.unbound)
    (calls : ∀ f args index, call f args ∈ e.nodes → evalIndex p env args = .ok index →
      p.call f index = q.call f index) : e.eval p env = e.eval q env := by
  induction e with
  | const c => rfl
  | var x | rvar x =>
    unfold eval
    rw [unbound]
  | param i =>
    unfold eval
    rw [param]
  | call f args ih =>
    have index : evalIndex p env args = evalIndex q env args := evalIndex_congr fun a mem =>
      ih a mem fun h as i node => calls h as i (List.mem_cons_of_mem _ (mem_nodesList.mpr ⟨a, mem, node⟩))
    unfold eval
    rw [← index]
    exact bind_congr_ok fun i found => calls f args i (mem_nodes_self _) found
  | load b args ih =>
    have index : evalIndex p env args = evalIndex q env args := evalIndex_congr fun a mem =>
      ih a mem fun h as i node => calls h as i (List.mem_cons_of_mem _ (mem_nodesList.mpr ⟨a, mem, node⟩))
    unfold eval
    rw [← index, load]
  | unary op a ih | not a ih =>
    unfold eval
    rw [ih fun h as i node => calls h as i (by simp [nodes, node])]
  | binary op a b iha ihb | compare op a b iha ihb | and a b iha ihb | or a b iha ihb =>
    unfold eval
    rw [iha fun h as i node => calls h as i (by simp [nodes, node]),
      ihb fun h as i node => calls h as i (by simp [nodes, node])]
  | select c t f ihc iht ihf =>
    unfold eval
    rw [ihc fun h as i node => calls h as i (by simp [nodes, node]),
      iht fun h as i node => calls h as i (by simp [nodes, node]),
      ihf fun h as i node => calls h as i (by simp [nodes, node])]

end Expr

/-! ### Runs of an update -/

namespace Job

variable {κ α : Type} [Scalar κ] [Scalar α] [Embed κ α] {j : Job κ α} {root f : FuncId} {s : Schedule} {depth : Nat}

theorem serving_call (order : j.graph.schedule root = .ok s) (mem : f ∈ s.funcs) (deep : s.funcs.idxOf f < depth) :
    j.Serving (j.results s.funcs.idxOf) s.funcs.idxOf (j.call depth) f := by
  have layers := (Graph.ordered_schedule order).1.layered
  refine ⟨fun reads other => ?_, fun held => ?_⟩
  · obtain ⟨inside, less⟩ := layers.below mem reads other
    exact call_transparent layers inside (by omega)
  · obtain ⟨depth, rfl⟩ : ∃ n, depth = n + 1 := ⟨depth - 1, by omega⟩
    exact answer_of_stored held

theorem updated_of_runStepwise (order : j.graph.schedule root = .ok s) (mem : f ∈ s.funcs) {d : Definition κ}
    {R : Domain} (update : d ∈ (j.graph.func f).updates) (reduced : d.rdom.isSome = true)
    (deep : s.funcs.idxOf f < depth) {m m' : Memory α} {A : Storage α} (held : m.stored.get? f = some A)
    (exact : m.Exact j (j.results s.funcs.idxOf) s.funcs.idxOf (s.funcs.idxOf f))
    (run : j.runStepwise (j.reader (j.call depth)) f d (d.iterations R) m = .ok ((), m')) :
    ∃ S, j.updated (j.results s.funcs.idxOf) f R A d = .ok S ∧ m'.stored.get? f = some S := by
  have working : j.Working (j.results s.funcs.idxOf) s.funcs.idxOf f m A m :=
    ⟨exact, Memory.Unchanged.refl m _, rfl, held⟩
  have mirrored := working.runUpdate (R := R) (serving_call order mem deep) (Graph.ordered_schedule order).1.layered mem
    update
  unfold runUpdate at mirrored
  rw [if_pos reduced] at mirrored
  cases mirrored with
  | @ok _ m₁ S run' folded after =>
    obtain ⟨-, rfl⟩ := Prod.mk.inj (Except.ok.inj (run.symm.trans run'))
    exact ⟨S, folded, after.held⟩
  | error run' _ => cases run.symm.trans run'

end Job

/-! ### Updates that overwrite -/

section

variable {K : Type} [Field K] [LinearOrder K] [IsStrictOrderedRing K] [FloorRing K] [Transcendental K]
  {α : Type} [Scalar α] [Embed (Exact K) α]

/-- In all iterations over a region, index arguments that can be evaluated address the place of the coordinates that
they are taken for. -/
def Definition.Locates (d : Definition (Exact K)) (reader : Reader (Except EvalError) α) (R : Domain)
    (rdom : ReductionDomain) (args : List (Expr (Exact K))) : Prop :=
  ∀ p ∈ (d.freeDomain R).points, ∀ r ∈ rdom.points, ∀ cs index, Coord.Listed args cs →
    evalIndex reader (d.iteration rdom p r) args = .ok index →
    index = cs.map (Coord.place (coordinateOf d.pureVars p) (coordinateOf rdom.names r))

/-- In exact arithmetic they do, when the operands of logic are truth values. -/
theorem Definition.locates_of_plain {d : Definition (Exact K)} {reader : Reader (Except EvalError) K} {R : Domain}
    {rdom : ReductionDomain} {args : List (Expr (Exact K))} {Q : Atom → Prop} (bound : ∀ x v, reader.unbound x ≠ .ok v)
    (strict : ¬Q .logic)
    (plain : ∀ p ∈ (d.freeDomain R).points, ∀ r ∈ rdom.points, ∀ a ∈ args,
      a.Plain reader.valuation (d.iteration rdom p r) Q) : d.Locates reader R rdom args := by
  intro p memP r memR cs index listed run
  rw [position_of_evalIndex bound (.refl _) run]
  exact Coord.position_of_listed listed strict (plain p memP r memR) (var_coordinates _ _ _) (rvar_coordinates _ _ _)

namespace Job

/-- An update of `f` that is classified as overwriting, with as many coordinates in its position and in its self-reads
as the region has, whose index arguments have the values of the coordinates that they are taken for. -/
structure Overwriting (j : Job (Exact K) α) (o : Results α) (f : FuncId) (R : Domain) (d : Definition (Exact K))
    (rdom : ReductionDomain) : Prop where
  kind : d.kindFor f = .ok .overwrite
  reduced : d.rdom = some rdom
  names : rdom.names.Nodup
  length : d.lhs.length = R.dims
  arity : ∀ r ∈ d.value.reads, r.target = .func f → r.args.length = d.lhs.length
  located : ∀ args ∈ selfReads f d.value, d.Locates (j.source o) R rdom d.lhs ∧ d.Locates (j.source o) R rdom args

namespace Overwriting

variable {j : Job (Exact K) α} {o : Results α} {f : FuncId} {R : Domain} {d : Definition (Exact K)}
  {rdom : ReductionDomain} {A s s' : Storage α} {args : List (Expr (Exact K))} {env : Env α}

omit [IsStrictOrderedRing K] in
theorem pairwise (h : j.Overwriting o f R d rdom) (mem : args ∈ selfReads f d.value) :
    (d.iterations R : List (Env α)).Pairwise fun x y => ∀ i q, evalIndex (j.source o) x d.lhs = .ok i →
      evalIndex (j.source o) y args = .ok q → q ≠ i := by
  obtain ⟨-, -, ⟨single | unread, -⟩ | ⟨rdom', same, classified⟩⟩ := kindFor_cases h.kind
  · rw [h.reduced] at single
    cases single
  · rw [unread] at mem
    cases mem
  obtain rfl := Option.some.inj (h.reduced.symm.trans same)
  cases classified with
  | overwrite once old =>
    obtain ⟨r, read, self, rfl⟩ := read_of_mem_selfReads mem
    have writes : WritesOnce d rdom _ := ⟨h.reduced, h.names, once⟩
    obtain ⟨coords, listed, ordered⟩ := writes.order (h.arity r read self) (old _ mem)
    refine Definition.pairwise_iterations h.length h.reduced ?_
    rintro p memP p' memP' x memX y memY later i q written found rfl
    have position := (h.located _ mem).1 p memP x memX _ _ writes.listed written
    rw [(h.located _ mem).2 p' memP' y memY _ _ listed found] at position
    obtain ⟨same, before⟩ := ordered (Definition.length_of_mem_freeDomain h.length memP')
      (Definition.length_of_mem_freeDomain h.length memP) memY memX position
    cases before.mp (later same.symm)

omit [Field K] [LinearOrder K] [IsStrictOrderedRing K] [FloorRing K] [Transcendental K] in
theorem evalIndex_during (unread : ∀ a ∈ args, a.readsTarget (.func f) = false) :
    evalIndex (j.during o f s) env args = evalIndex (j.source o) env args := by
  have alike : ∀ a ∈ args, Alike (j.during o f s) (j.source o) a := by
    refine fun a mem => ⟨fun {r h} read target => Function.update_of_ne ?_ _ _, rfl, rfl, rfl⟩
    rintro rfl
    exact target_ne_of_not_reads (unread a mem) read target
  exact evalIndex_eq alike env

/-- What an iteration reads of `f` is stored as in `A`. -/
def Old (j : Job (Exact K) α) (o : Results α) (f : FuncId) (d : Definition (Exact K)) (A : Storage α) (env : Env α)
    (s : Storage α) : Prop :=
  ∀ args ∈ selfReads f d.value, ∀ q, evalIndex (j.source o) env args = .ok q → s.get? q = A.get? q

section

omit [IsStrictOrderedRing K]

/-- An iteration that reads old values computes what it computes from the old storage. -/
theorem iteration_eq (h : j.Overwriting o f R d rdom) (old : Old j o f d A env s) :
    j.iteration o f s d env = j.iteration o f A d env := by
  obtain ⟨positions, indices, -⟩ := kindFor_cases h.kind
  have value : d.value.eval (j.during o f s) env = d.value.eval (j.during o f A) env := by
    refine eval_eq_of_calls rfl rfl rfl fun g args q node found => ?_
    change Function.update o f _ g q = Function.update o f _ g q
    by_cases self : g = f
    · subst self
      rw [Function.update_self, Function.update_self]
      have read := mem_reads_of_call node
      rw [evalIndex_during (indices _ read rfl)] at found
      unfold fetch
      rw [old args (mem_selfReads read rfl) q found]
    · rw [Function.update_of_ne self, Function.update_of_ne self]
  have index : evalIndex (j.during o f s) env d.lhs = evalIndex (j.during o f A) env d.lhs :=
    (evalIndex_during positions).trans (evalIndex_during positions).symm
  unfold Job.iteration
  dsimp only
  exact congrArg₂ (fun i v => i >>= fun i => v >>= fun v => pure (i, v)) index value

theorem keeps (h : j.Overwriting o f R d rdom) : (d.iterations R : List (Env α)).Pairwise fun x y =>
    ∀ s e s', j.iteration o f A d x = .ok e → j.put f s e.1 e.2 = .ok s' → Old j o f d A y s → Old j o f d A y s' := by
  obtain ⟨positions, -⟩ := kindFor_cases h.kind
  have apart : (d.iterations R : List (Env α)).Pairwise fun x y =>
      ∀ args : List (Expr (Exact K)), args ∈ selfReads f d.value → ∀ i q, evalIndex (j.source o) x d.lhs = .ok i →
        evalIndex (j.source o) y args = .ok q → q ≠ i :=
    List.pairwise_iff_forall_sublist.mpr fun sub args mem =>
      List.pairwise_iff_forall_sublist.mp (h.pairwise mem) sub
  refine apart.imp fun {x y} apart s e s' made stored old args mem q found => ?_
  have written : evalIndex (j.source o) x d.lhs = .ok e.1 := by
    rw [← evalIndex_during positions]
    exact index_of_iteration made
  rw [← old args mem q found]
  unfold Job.put at stored
  cases at' : s.domain.position? e.1 with
  | none =>
    rw [at'] at stored
    cases stored
  | some place =>
    rw [at'] at stored
    obtain rfl := pure_eq_ok.mp stored
    exact Storage.get?_setAt_of_ne at' (apart args mem e.1 q written found) e.2

/-- Running the update step by step stores what it stores when all iterations are evaluated first. -/
theorem updated_eq_ok_iff (h : j.Overwriting o f R d rdom) : j.updated o f R A d = .ok s' ↔
    ((d.iterations R).mapM (j.iteration o f A d) >>= fun es => es.foldlM (fun s e => j.put f s e.1 e.2) A) = .ok s' := by
  unfold updated
  rw [h.reduced]
  exact foldlM_eq_ok_iff (Old j o f d A) (fun x _ s old => h.iteration_eq old) h.keeps fun _ _ _ _ _ _ => rfl

end

end Overwriting

omit [IsStrictOrderedRing K] in
/-- The sequential run of an overwriting update leaves the storage that results when all positions and values are
evaluated against the storage before it, and stored in the order of the iterations. -/
theorem overwrite_simultaneous {j : Job (Exact K) α} {root f : FuncId} {s : Schedule} {d : Definition (Exact K)}
    {R : Domain} {rdom : ReductionDomain} (order : j.graph.schedule root = .ok s) (mem : f ∈ s.funcs)
    (update : d ∈ (j.graph.func f).updates) (h : j.Overwriting (j.results s.funcs.idxOf) f R d rdom) {depth : Nat}
    (deep : s.funcs.idxOf f < depth) {m m' : Memory α} {A : Storage α} (held : m.stored.get? f = some A)
    (exact : m.Exact j (j.results s.funcs.idxOf) s.funcs.idxOf (s.funcs.idxOf f))
    (run : j.runStepwise (j.reader (j.call depth)) f d (d.iterations R) m = .ok ((), m')) :
    ∃ m'', j.runAtOnce (j.reader (j.call depth)) f d (d.iterations R) m = .ok ((), m'') ∧
      m''.stored.get? f = m'.stored.get? f := by
  have working : j.Working (j.results s.funcs.idxOf) s.funcs.idxOf f m A m :=
    ⟨exact, Memory.Unchanged.refl m _, rfl, held⟩
  obtain ⟨s', folded, stepwise⟩ :=
    updated_of_runStepwise order mem update (by rw [h.reduced]; rfl) deep held exact run
  cases working.runAtOnce (serving_call order mem deep) (Graph.ordered_schedule order).1.layered mem update
      (d.iterations R) with
  | @ok _ m'' s'' run'' folded' after =>
    obtain rfl := Except.ok.inj (folded'.symm.trans (h.updated_eq_ok_iff.mp folded))
    exact ⟨m'', run'', after.held.trans stepwise.symm⟩
  | error _ failed => cases failed.symm.trans (h.updated_eq_ok_iff.mp folded)

end Job

end

/-! ### An example -/

/-- `f(r) := f(r + 1) + 1` for two successive values of `r`. -/
def advancing (n : Int) : Definition (Exact ℚ) :=
  ⟨[.rvar "r"], .binary .add (.call ⟨0⟩ [.binary .add (.rvar "r") .one]) .one, some ⟨[("r", ⟨n, n + 1⟩)]⟩⟩

namespace advancing

def graph (n : Int) : Graph (Exact ℚ) where
  funcs := #[{ name := "f", args := ["x"], init := some ⟨[.var "x"], .zero, none⟩, updates := [advancing n] }]

/-- The region that the update reads and writes. -/
def region (n : Int) : Domain := ⟨[⟨n, n + 2⟩]⟩

variable {α : Type} [Scalar α] [Embed (Exact ℚ) α]

def job (n : Int) : Job (Exact ℚ) α := ⟨graph n, {}, {}⟩

/-- A memory in which nothing is stored but values of `f`. -/
def storing (n : Int) (values : Array α) : Memory α :=
  { stored := Table.empty.insert ⟨0⟩ ⟨region n, values⟩ }

/-- The update runs step by step. -/
def stepwise (n : Int) (m : Memory α) : Except EvalError (Unit × Memory α) :=
  (job n).runStepwise ((job n).reader ((job n).call 1)) ⟨0⟩ (advancing n) ((advancing n).iterations (region n)) m

/-- All iterations are evaluated first. -/
def atOnce (n : Int) (m : Memory α) : Except EvalError (Unit × Memory α) :=
  (job n).runAtOnce ((job n).reader ((job n).call 1)) ⟨0⟩ (advancing n) ((advancing n).iterations (region n)) m

/-- The values of `f` after a run. -/
def values (run : Except EvalError (Unit × Memory α)) : Except EvalError (Option (Array α)) :=
  run.map fun r => (r.2.stored.get? ⟨0⟩).map (·.values)

omit [Scalar α] [Embed (Exact ℚ) α] in
theorem values_ok (m : Memory α) : values (.ok ((), m)) = .ok ((m.stored.get? ⟨0⟩).map (·.values)) := rfl

theorem overwriting (o : Results ℚ) :
    (job 0 : Job (Exact ℚ) ℚ).Overwriting o ⟨0⟩ (region 0) (advancing 0) ⟨[("r", ⟨0, 1⟩)]⟩ where
  kind := rfl
  reduced := rfl
  names := by decide
  length := rfl
  arity := by decide
  located := by
    intro args mem
    obtain ⟨r, read, -, rfl⟩ := read_of_mem_selfReads mem
    obtain rfl := List.mem_singleton.mp read
    refine ⟨Definition.locates_of_plain Job.source_strict (Q := (· ≠ .logic)) (fun logic => logic rfl) ?_,
      Definition.locates_of_plain Job.source_strict (Q := (· ≠ .logic)) (fun logic => logic rfl) ?_⟩
    · simp [advancing]
    · simp [Expr.one, Exact.isNumber]

/-- 0, 5, 7 becomes 6, 8, 7 in both ways. -/
theorem simultaneous : values (stepwise 0 (storing 0 #[(0 : ℚ), 5, 7])) = .ok (some #[6, 8, 7]) ∧
    values (atOnce 0 (storing 0 #[(0 : ℚ), 5, 7])) = .ok (some #[6, 8, 7]) := by
  have order : (job 0 : Job (Exact ℚ) ℚ).graph.schedule ⟨0⟩ = .ok
      ⟨[⟨0⟩], [(⟨0⟩, .initial), (⟨0⟩, .update 0)], [], []⟩ := by decide +kernel
  have stored : values (stepwise 0 (storing 0 #[(0 : ℚ), 5, 7])) = .ok (some #[6, 8, 7]) := by decide +kernel
  refine ⟨stored, ?_⟩
  cases run : stepwise 0 (storing 0 #[(0 : ℚ), 5, 7]) with
  | error e =>
    rw [run] at stored
    cases stored
  | ok r =>
    have below {f : FuncId} (less : [⟨0⟩].idxOf f < 0) : False := absurd less (Nat.not_lt_zero _)
    obtain ⟨m'', made, same⟩ := Job.overwrite_simultaneous order List.mem_cons_self List.mem_cons_self
      (overwriting _) (by decide) rfl ⟨fun less => (below less).elim, fun less => (below less).elim⟩ run
    rw [run, values_ok, ← same] at stored
    unfold atOnce
    rw [made]
    exact stored

/-- In single precision `r + 1` is rounded to `r` for `r` = 16777216, and so is the next `r`: the second iteration reads
what the first one has written. -/
theorem sequential_differs : (advancing 16777216).kindFor ⟨0⟩ = .ok .overwrite ∧
    ¬∀ m m' : Memory Short, stepwise 16777216 m = .ok ((), m') →
      ∃ m'', atOnce 16777216 m = .ok ((), m'') ∧ m''.stored.get? ⟨0⟩ = m'.stored.get? ⟨0⟩ := by
  refine ⟨rfl, fun simultaneous => ?_⟩
  have first : values (stepwise 16777216 (storing 16777216 #[(⟨0⟩ : Short), ⟨0⟩, ⟨0⟩])) =
      .ok (some #[⟨2⟩, ⟨0⟩, ⟨0⟩]) := by decide +kernel
  have second : values (atOnce 16777216 (storing 16777216 #[(⟨0⟩ : Short), ⟨0⟩, ⟨0⟩])) =
      .ok (some #[⟨1⟩, ⟨0⟩, ⟨0⟩]) := by decide +kernel
  cases run : stepwise 16777216 (storing 16777216 #[(⟨0⟩ : Short), ⟨0⟩, ⟨0⟩]) with
  | error e =>
    rw [run] at first
    cases first
  | ok r =>
    obtain ⟨m'', made, same⟩ := simultaneous _ _ run
    rw [run, values_ok, ← same] at first
    rw [made] at second
    exact absurd (second.symm.trans first) (by decide)

end advancing

end ArrayDiff
