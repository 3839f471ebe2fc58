import ArrayDiff.Proofs.Simultaneous

/-!
# A scan leaves the solution of its recurrence

An update that is classified as a scan runs step by step, each position is written once, and one self-read sees what an
earlier iteration wrote. No later iteration changes that value, and none has changed the old value at the written
position before (`Scanning.written_once`, `Scanning.settled`). So the storage afterwards solves the recurrence: where an
iteration writes it has the value of the update, with the read answered from this same storage and the written position
from the one before (`Job.scan_solves`).
-/

open ArrayDiff.Expr

namespace ArrayDiff

namespace Job

section Frames

variable {κ α : Type} {j : Job κ α} {f : FuncId} {s s' : Storage α} {p q : List Int} {v : α}

theorem get?_put_of_ne (stored : j.put f s p v = .ok s') (other : q ≠ p) : s'.get? q = s.get? q := by
  unfold Job.put at stored
  cases at' : s.domain.position? p with
  | none =>
    rw [at'] at stored
    cases stored
  | some place =>
    rw [at'] at stored
    obtain rfl := pure_eq_ok.mp stored
    exact Storage.get?_setAt_of_ne at' other v

theorem get?_put (filled : s.Filled) (stored : j.put f s p v = .ok s') : s'.get? p = some v ∧ s'.Filled := by
  unfold Job.put at stored
  cases at' : s.domain.position? p with
  | none =>
    rw [at'] at stored
    cases stored
  | some place =>
    rw [at'] at stored
    obtain rfl := pure_eq_ok.mp stored
    refine ⟨?_, filled.setAt place v⟩
    rw [Storage.get?_setAt filled at', Function.update_self]

end Frames

variable {K : Type} [Field K] [LinearOrder K] [FloorRing K] [Transcendental K]
  {α : Type} [Scalar α] [Embed (Exact K) α] {j : Job (Exact K) α} {o : Results α} {f : FuncId} {R : Domain}
  {d : Definition (Exact K)} {rdom : ReductionDomain} {read : List (Expr (Exact K))} {accumulates : Bool}
  {B S s s' : Storage α} {p q i : List Int} {v : α} {env : Env α} {envs : List (Env α)}

/-! ### One iteration -/

/-- An iteration that is run while other iterations have stored their values. -/
def step (j : Job (Exact K) α) (o : Results α) (f : FuncId) (d : Definition (Exact K)) (s : Storage α) (env : Env α) :
    Except EvalError (Storage α) := j.iteration o f s d env >>= fun e => j.put f s e.1 e.2

section

omit [Field K] [LinearOrder K] [FloorRing K] [Transcendental K]

theorem step_eq_ok (unread : ∀ e ∈ d.lhs, e.readsTarget (.func f) = false) (run : j.step o f d s env = .ok s') :
    ∃ i v, evalIndex (j.source o) env d.lhs = .ok i ∧ d.value.eval (j.during o f s) env = .ok v ∧
      j.put f s i v = .ok s' := by
  obtain ⟨⟨i, v⟩, made, stored⟩ := bind_eq_ok.mp run
  obtain ⟨i', index, made⟩ := bind_eq_ok.mp made
  obtain ⟨v', value, made⟩ := bind_eq_ok.mp made
  obtain ⟨rfl, rfl⟩ := Prod.mk.inj (pure_eq_ok.mp made)
  exact ⟨_, _, (Overwriting.evalIndex_during unread).symm.trans index, value, stored⟩

theorem get?_foldlM_step (unread : ∀ e ∈ d.lhs, e.readsTarget (.func f) = false)
    (run : envs.foldlM (j.step o f d) s = .ok s') (apart : ∀ env ∈ envs, evalIndex (j.source o) env d.lhs ≠ .ok p) :
    s'.get? p = s.get? p := by
  refine foldlM_preserves run (fun t => t.get? p = s.get? p) rfl fun env mem t t' before step => ?_
  obtain ⟨i, v, index, -, stored⟩ := step_eq_ok unread step
  have other : p ≠ i := fun same => apart env mem (same ▸ index)
  rw [get?_put_of_ne stored other, before]

theorem filled_foldlM_step (filled : s.Filled) (unread : ∀ e ∈ d.lhs, e.readsTarget (.func f) = false)
    (run : envs.foldlM (j.step o f d) s = .ok s') : s'.Filled := by
  refine foldlM_preserves run Storage.Filled filled fun env _ t t' before step => ?_
  obtain ⟨i, v, -, -, stored⟩ := step_eq_ok unread step
  exact (get?_put before stored).2

end

/-! ### Scans -/

/-- An update of `f` that is classified as a scan, with as many coordinates in its position and in its read as the
region has, whose index arguments have the values of the coordinates that they are taken for. -/
structure Scanning (j : Job (Exact K) α) (o : Results α) (f : FuncId) (R : Domain) (d : Definition (Exact K))
    (rdom : ReductionDomain) (read : List (Expr (Exact K))) (accumulates : Bool) : Prop where
  kind : d.kindFor f = .ok (.scan read accumulates)
  reduced : d.rdom = some rdom
  names : rdom.names.Nodup
  length : d.lhs.length = R.dims
  arity : read.length = d.lhs.length
  located : d.Locates (j.source o) R rdom d.lhs ∧ d.Locates (j.source o) R rdom read

/-- `S` solves the update of `f` at an iteration, where `B` is what was stored before: at the written position `S` has
the value of the update, with old values at the written position and the values of `S` at all others. The read is never
at the written position. -/
def SolvedAt (j : Job (Exact K) α) (o : Results α) (f : FuncId) (d : Definition (Exact K))
    (read : List (Expr (Exact K))) (B S : Storage α) (env : Env α) : Prop :=
  ∃ i v, evalIndex (j.source o) env d.lhs = .ok i ∧ S.get? i = some v ∧
    (∀ q, evalIndex (j.source o) env read = .ok q → q ≠ i) ∧
    d.value.eval (j.source (Function.update o f fun q => if q = i then j.fetch f B q else j.fetch f S q)) env = .ok v

namespace Scanning

theorem reads (h : j.Scanning o f R d rdom read accumulates) {r : Read (Exact K)} (mem : r ∈ d.value.reads)
    (self : r.target = .func f) : r.args = read ∨ r.args = d.lhs := by
  obtain ⟨-, -, ⟨-, none⟩ | ⟨rdom', -, classified⟩⟩ := kindFor_cases h.kind
  · cases none
  cases classified with
  | scan _ _ _ others =>
    exact (others _ (mem_selfReads mem self)).imp Expr.eq_args_of_sameList Expr.eq_args_of_sameList

/-- Two iterations, possibly the same, at which the coordinates of the read are those of the written position: the one
that writes them comes before. -/
theorem ordered (h : j.Scanning o f R d rdom read accumulates) {p p' r r' : List Int}
    (memP : p ∈ (d.freeDomain R).points) (memP' : p' ∈ (d.freeDomain R).points) (memR : r ∈ rdom.points)
    (memR' : r' ∈ rdom.points) (found : evalIndex (j.source o) (d.iteration rdom p r) read = .ok q)
    (written : evalIndex (j.source o) (d.iteration rdom p' r') d.lhs = .ok q) : p = p' ∧ r'.reverse < r.reverse := by
  obtain ⟨coords, once, earlier, -⟩ := scan_of_kindFor h.kind h.reduced
  have writes : WritesOnce d rdom coords := ⟨h.reduced, h.names, once⟩
  obtain ⟨readCoords, listed, order⟩ := writes.order h.arity earlier
  have same := h.located.2 p memP r memR _ _ listed found
  rw [h.located.1 p' memP' r' memR' _ _ writes.listed written] at same
  obtain ⟨pure, before⟩ := order (Definition.length_of_mem_freeDomain h.length memP)
    (Definition.length_of_mem_freeDomain h.length memP') memR memR' same.symm
  exact ⟨pure, before.mpr rfl⟩

theorem written_once (h : j.Scanning o f R d rdom read accumulates) :
    (d.iterations R : List (Env α)).Pairwise fun x y => ∀ i, evalIndex (j.source o) x d.lhs = .ok i →
      evalIndex (j.source o) y d.lhs ≠ .ok i := by
  obtain ⟨coords, once, -⟩ := scan_of_kindFor h.kind h.reduced
  have writes : WritesOnce d rdom coords := ⟨h.reduced, h.names, once⟩
  refine Definition.pairwise_iterations h.length h.reduced ?_
  intro p memP p' memP' r memR r' memR' later i first second
  have same := h.located.1 p memP r memR _ _ writes.listed first
  rw [h.located.1 p' memP' r' memR' _ _ writes.listed second] at same
  obtain ⟨rfl, rfl⟩ := writes.place_inj (Definition.length_of_mem_freeDomain h.length memP')
    (Definition.length_of_mem_freeDomain h.length memP) memR' memR same
  exact lt_irrefl _ (later rfl)

theorem settled (h : j.Scanning o f R d rdom read accumulates) :
    (∀ x ∈ (d.iterations R : List (Env α)), ∀ q, evalIndex (j.source o) x read = .ok q →
      evalIndex (j.source o) x d.lhs ≠ .ok q) ∧
    (d.iterations R : List (Env α)).Pairwise fun x y => ∀ q, evalIndex (j.source o) x read = .ok q →
      evalIndex (j.source o) y d.lhs ≠ .ok q := by
  constructor
  · intro x mem q found written
    rw [Definition.iterations_reduced h.length h.reduced] at mem
    obtain ⟨p, memP, mem⟩ := List.mem_flatMap.mp mem
    obtain ⟨r, memR, rfl⟩ := List.mem_map.mp mem
    exact lt_irrefl _ (h.ordered memP memP memR memR found written).2
  · refine Definition.pairwise_iterations h.length h.reduced ?_
    intro p memP p' memP' r memR r' memR' later q found written
    obtain ⟨same, before⟩ := h.ordered memP memP' memR memR' found written
    exact lt_asymm (later same) before

/-- Step by step the iterations leave a storage that solves the update at each of them. -/
theorem solvedAt (h : j.Scanning o f R d rdom read accumulates) (filled : B.Filled)
    (run : (d.iterations R).foldlM (j.step o f d) B = .ok S) (mem : env ∈ (d.iterations R : List (Env α))) :
    j.SolvedAt o f d read B S env := by
  obtain ⟨unread, indices, -⟩ := kindFor_cases h.kind
  have once := h.written_once
  obtain ⟨own, settled⟩ := h.settled
  have own := own env mem
  obtain ⟨done, rest, split⟩ := List.append_of_mem mem
  rw [split] at run once settled
  obtain ⟨s, before, run⟩ := bind_eq_ok.mp (List.foldlM_append.symm.trans run)
  obtain ⟨s', now, after⟩ := bind_eq_ok.mp (List.foldlM_cons.symm.trans run)
  obtain ⟨i, v, index, value, stored⟩ := step_eq_ok unread now
  obtain ⟨-, onceRest, onceDone⟩ := List.pairwise_append.mp once
  obtain ⟨-, settledRest, -⟩ := List.pairwise_append.mp settled
  have old : s.get? i = B.get? i := get?_foldlM_step unread before fun x mem written =>
    onceDone x mem env List.mem_cons_self i written index
  have new : S.get? i = some v := by
    rw [get?_foldlM_step unread after fun y mem => (List.pairwise_cons.mp onceRest).1 y mem i index]
    exact (get?_put (filled_foldlM_step filled unread before) stored).1
  have kept (q : List Int) (found : evalIndex (j.source o) env read = .ok q) : q ≠ i ∧ S.get? q = s.get? q := by
    have other : q ≠ i := fun same => own q found (same ▸ index)
    refine ⟨other, ?_⟩
    rw [get?_foldlM_step unread after fun y mem => (List.pairwise_cons.mp settledRest).1 y mem q found,
      get?_put_of_ne stored other]
  refine ⟨i, v, index, new, fun q found => (kept q found).1, ?_⟩
  refine Eq.trans (Eq.symm ?_) value
  refine eval_eq_of_calls rfl rfl rfl fun g args q node found => ?_
  change Function.update o f _ g q = Function.update o f _ g q
  by_cases self : g = f
  swap
  · rw [Function.update_of_ne self, Function.update_of_ne self]
  subst self
  rw [Function.update_self, Function.update_self]
  have listed := mem_reads_of_call node
  rw [Overwriting.evalIndex_during (indices _ listed rfl)] at found
  unfold fetch
  -- a read that is not the one of the scan is at the written position
  rcases h.reads listed rfl with same | same <;> dsimp only at same <;> subst same
  · obtain ⟨other, same⟩ := kept q found
    rw [if_neg other, same]
  · obtain rfl : q = i := Except.ok.inj (found.symm.trans index)
    rw [if_pos rfl, old]

end Scanning

/-- The sequential run of a scan leaves a storage that solves its recurrence: wherever an iteration writes, it has the
value of the update with the read answered from this storage and a read at the written position from the storage
before; and no other position has changed. -/
theorem scan_solves {root : FuncId} {s : Schedule} (order : j.graph.schedule root = .ok s) (mem : f ∈ s.funcs)
    (update : d ∈ (j.graph.func f).updates)
    (h : j.Scanning (j.results s.funcs.idxOf) f R d rdom read accumulates) {depth : Nat}
    (deep : s.funcs.idxOf f < depth) {m m' : Memory α} (held : m.stored.get? f = some B) (filled : B.Filled)
    (exact : m.Exact j (j.results s.funcs.idxOf) s.funcs.idxOf (s.funcs.idxOf f))
    (run : j.runStepwise (j.reader (j.call depth)) f d (d.iterations R) m = .ok ((), m')) :
    ∃ S, m'.stored.get? f = some S ∧
      (∀ r ∈ d.value.reads, r.target = .func f → r.args = read ∨ r.args = d.lhs) ∧
      (∀ env ∈ (d.iterations R : List (Env α)), j.SolvedAt (j.results s.funcs.idxOf) f d read B S env) ∧
      ∀ p, (∀ env ∈ (d.iterations R : List (Env α)),
        evalIndex (j.source (j.results s.funcs.idxOf)) env d.lhs ≠ .ok p) → S.get? p = B.get? p := by
  obtain ⟨S, updated, stored⟩ :=
    updated_of_runStepwise order mem update (by rw [h.reduced]; rfl) deep held exact run
  have folded : (d.iterations R).foldlM (j.step (j.results s.funcs.idxOf) f d) B = .ok S := by
    rw [← updated]
    unfold Job.updated
    rw [if_pos (by rw [h.reduced]; rfl)]
    rfl
  obtain ⟨unread, -⟩ := kindFor_cases h.kind
  exact ⟨S, stored, fun r listed self => h.reads listed self, fun env mem => h.solvedAt filled folded mem,
    fun p apart => get?_foldlM_step unread folded apart⟩

end Job

/-! ### An example -/

/-- `f(r) := f(r - 1) + f(r)` for two successive values of `r`. -/
def summing (n : Int) : Definition (Exact ℚ) :=
  ⟨[.rvar "r"], .binary .add (.call ⟨0⟩ [.binary .sub (.rvar "r") .one]) (.call ⟨0⟩ [.rvar "r"]),
    some ⟨[("r", ⟨n, n + 1⟩)]⟩⟩

namespace summing

def graph (n : Int) : Graph (Exact ℚ) where
  funcs := #[{ name := "f", args := ["x"], init := some ⟨[.var "x"], .one, none⟩, updates := [summing n] }]

/-- The region that the update reads and writes. -/
def region (n : Int) : Domain := ⟨[⟨n - 1, n + 1⟩]⟩

/-- The read that sees what an earlier iteration wrote. -/
def read : List (Expr (Exact ℚ)) := [.binary .sub (.rvar "r") .one]

variable {α : Type} [Scalar α] [Embed (Exact ℚ) α]

def job (n : Int) : Job (Exact ℚ) α := ⟨graph n, {}, {}⟩

/-- What the calls of the job result in. -/
def results (n : Int) : Results α := (job n).results [⟨0⟩].idxOf

/-- All values of `f` are 1. -/
def ones (n : Int) (one : α) : Storage α := ⟨region n, #[one, one, one]⟩

/-- The update runs step by step. -/
def stepwise (n : Int) (m : Memory α) : Except EvalError (Unit × Memory α) :=
  (job n).runStepwise ((job n).reader ((job n).call 1)) ⟨0⟩ (summing n) ((summing n).iterations (region n)) m

/-- What is stored after the update, when all values were 1 before. -/
def after (n : Int) (one : α) : Except EvalError (Option (Storage α)) :=
  (stepwise n { stored := Table.empty.insert ⟨0⟩ (ones n one) }).map (·.2.stored.get? ⟨0⟩)

/-- What a storage holds, if there is one. -/
def contents (stored : Except EvalError (Option (Storage α))) : Except EvalError (Option (Domain × Array α)) :=
  stored.map (·.map fun S => (S.domain, S.values))

omit [Scalar α] [Embed (Exact ℚ) α] in
theorem eq_of_contents {S T : Storage α} (same : contents (.ok (some S)) = .ok (some (T.domain, T.values))) :
    S = T := by
  obtain ⟨domain, values⟩ := Prod.mk.inj (Option.some.inj (Except.ok.inj same))
  cases S
  cases T
  rw [Storage.mk.injEq]
  exact ⟨domain, values⟩

theorem scanning (o : Results ℚ) :
    (job 1 : Job (Exact ℚ) ℚ).Scanning o ⟨0⟩ (region 1) (summing 1) ⟨[("r", ⟨1, 2⟩)]⟩ read true where
  kind := rfl
  reduced := rfl
  names := by decide
  length := rfl
  arity := rfl
  located := by
    refine ⟨Definition.locates_of_plain Job.source_strict (Q := (· ≠ .logic)) (fun logic => logic rfl) ?_,
      Definition.locates_of_plain Job.source_strict (Q := (· ≠ .logic)) (fun logic => logic rfl) ?_⟩
    · simp [summing]
    · simp [read, Expr.one, Exact.isNumber]

/-- 1, 1, 1 becomes 1, 2, 3, and each sum is that of the two values that the recurrence names. -/
theorem solved : after 1 (1 : ℚ) = .ok (some ⟨region 1, #[1, 2, 3]⟩) ∧
    ∀ env ∈ (summing 1).iterations (region 1), (job 1).SolvedAt (results 1) ⟨0⟩ (summing 1) read (ones 1 (1 : ℚ))
      ⟨region 1, #[1, 2, 3]⟩ env := by
  have order : (job 1 : Job (Exact ℚ) ℚ).graph.schedule ⟨0⟩ = .ok
      ⟨[⟨0⟩], [(⟨0⟩, .initial), (⟨0⟩, .update 0)], [], []⟩ := by decide +kernel
  have sums : contents (after 1 (1 : ℚ)) = .ok (some (region 1, #[1, 2, 3])) := by decide +kernel
  have filled : (ones 1 (1 : ℚ)).Filled := show 3 = (region 1).points.length by decide
  have below {f : FuncId} (less : [⟨0⟩].idxOf f < 0) : False := absurd less (Nat.not_lt_zero _)
  unfold after at sums ⊢
  cases run : stepwise 1 { stored := Table.empty.insert ⟨0⟩ (ones 1 (1 : ℚ)) } with
  | error e =>
    rw [run] at sums
    cases sums
  | ok r =>
    obtain ⟨S, stored, -, each, -⟩ := Job.scan_solves order List.mem_cons_self List.mem_cons_self (scanning _)
      (by decide) rfl filled ⟨fun less => (below less).elim, fun less => (below less).elim⟩ run
    have found : (Except.ok r : Except EvalError (Unit × Memory ℚ)).map (·.2.stored.get? ⟨0⟩) = .ok (some S) :=
      congrArg Except.ok stored
    rw [run, found] at sums
    obtain rfl := eq_of_contents (T := ⟨region 1, #[1, 2, 3]⟩) sums
    exact ⟨found, each⟩

/-- In single precision both iterations are at 16777216, so that the second one adds to the sum of the first. -/
theorem solution_differs : (summing 16777216).kindFor ⟨0⟩ = .ok (.scan read true) ∧
    ¬∀ S, after 16777216 (⟨1⟩ : Short) = .ok (some S) → ∀ env ∈ (summing 16777216).iterations (region 16777216),
      (job 16777216).SolvedAt (results 16777216) ⟨0⟩ (summing 16777216) read (ones 16777216 ⟨1⟩) S env := by
  refine ⟨rfl, fun solves => ?_⟩
  have sums : contents (after 16777216 (⟨1⟩ : Short)) = .ok (some (region 16777216, #[⟨1⟩, ⟨3⟩, ⟨1⟩])) := by
    decide +kernel
  cases run : after 16777216 (⟨1⟩ : Short) with
  | error e =>
    rw [run] at sums
    cases sums
  | ok stored =>
    rw [run] at sums
    cases stored with
    | none => cases sums
    | some S =>
      obtain rfl := eq_of_contents (T := (⟨region 16777216, #[⟨1⟩, ⟨3⟩, ⟨1⟩]⟩ : Storage Short)) sums
      obtain ⟨i, v, index, found, -, value⟩ := solves _ run ⟨[], [("r", ⟨16777216⟩)]⟩ List.mem_cons_self
      obtain rfl : [16777216] = i := Except.ok.inj (Eq.trans (by decide +kernel) index)
      obtain rfl : (⟨2⟩ : Short) = v := Except.ok.inj (Eq.trans (by decide +kernel) value)
      exact absurd found (by decide +kernel)

end summing

end ArrayDiff
