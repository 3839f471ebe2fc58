import ArrayDiff.Adjoint.Sweep
import ArrayDiff.Proofs.Contribution
import ArrayDiff.Proofs.Growth
import ArrayDiff.Proofs.Outcome
import ArrayDiff.Proofs.Walk

/-!
# Adjoints that are still being collected

The terms that wait under a key add up to an array without bounds (`Sweep.collected`), and `Sweep.balance` pairs these
arrays with a value for every position. A contribution raises the balance by what the iterations of the reader send
(`balance_contribute`, `balance_passOn`).
-/

open ArrayDiff.Expr

namespace ArrayDiff

variable {K : Type} [Field K] [LinearOrder K] [FloorRing K] [Transcendental K]

/-! ### Sums -/

omit [FloorRing K] [Transcendental K] in
theorem sum_spread {X : Type} {Q : List (List Int)} (distinct : Q.Nodup) {l : List X} {at' : X → List Int} {w : X → K}
    (inside : ∀ x ∈ l, w x ≠ 0 → at' x ∈ Q) (τ : List Int → K) :
    (Q.map fun q => (l.map fun x => if at' x = q then w x else 0).sum * τ q).sum =
      (l.map fun x => w x * τ (at' x)).sum := by
  induction l with
  | nil => simp
  | cons x l ih =>
    have single : (Q.map fun q => (if at' x = q then w x else 0) * τ q).sum = w x * τ (at' x) := by
      by_cases zero : w x = 0
      · simp [zero]
      have others : ∀ q, q ≠ at' x → q ∈ Q → (if at' x = q then w x else 0) * τ q = 0 := by
        intro q other _
        rw [if_neg (Ne.symm other), zero_mul]
      rw [sum_map_single distinct (inside x List.mem_cons_self zero) others, if_pos rfl]
    simp only [List.map_cons, List.sum_cons, add_mul, List.sum_map_add]
    rw [single, ih fun y mem => inside y (List.mem_cons_of_mem _ mem)]

omit [LinearOrder K] [FloorRing K] [Transcendental K] in
theorem sum_exchange {A B : Type} (l : List A) (m : List B) (w : A → B → K) :
    (l.map fun a => (m.map fun b => w a b).sum).sum = (m.map fun b => (l.map fun a => w a b).sum).sum := by
  induction l with
  | nil => simp
  | cons a l ih => simp only [List.map_cons, List.sum_cons, List.sum_map_add, ih]

omit [LinearOrder K] [FloorRing K] [Transcendental K] in
theorem sum_map_grow {A : Type} [DecidableEq A] {l : List A} (distinct : l.Nodup) {a : A} (mem : a ∈ l) {w w' : A → K}
    {x : K} (own : w' a = w a + x) (others : ∀ b ∈ l, b ≠ a → w' b = w b) : (l.map w').sum = (l.map w).sum + x := by
  have difference : (l.map fun b => if b = a then x else 0).sum = x := by
    rw [sum_map_single distinct mem fun b other _ => if_neg other, if_pos rfl]
  rw [← difference, ← List.sum_map_add]
  refine congrArg List.sum (List.map_congr_left fun b listed => ?_)
  by_cases same : b = a
  · rw [if_pos same, same, own]
  · rw [if_neg same, add_zero, others b listed same]

/-! ### Terms under a key -/

namespace Sweep

/-- What the terms under a key add up to. -/
def collected (s : Sweep (Exact K)) (ρ : Valuation K) (key : Key) : List Int → K :=
  (s.pending key).foldl (Term.run ρ (s.source.argsOf key.target)) fun _ => 0

/-- Only terms have been added. -/
structure Beside (s s' : Sweep (Exact K)) : Prop where
  source : s'.source = s.source
  regions : s'.regions = s.regions
  extension : s'.extension = s.extension
  slots : s'.slots = s.slots
  progress : s'.progress = s.progress

variable {s s' s'' : Sweep (Exact K)} {ρ : Valuation K} {key k : Key} {f : FuncId} {d : Definition (Exact K)}
  {args : List (Expr (Exact K))} {v : Expr (Exact K)} {t : Term (Exact K)}

section

omit [Field K] [LinearOrder K] [FloorRing K] [Transcendental K]

theorem Beside.refl (s : Sweep (Exact K)) : s.Beside s := ⟨rfl, rfl, rfl, rfl, rfl⟩

theorem Beside.trans (h : s.Beside s') (h' : s'.Beside s'') : s.Beside s'' :=
  ⟨h'.source.trans h.source, h'.regions.trans h.regions, h'.extension.trans h.extension, h'.slots.trans h.slots,
    h'.progress.trans h.progress⟩

theorem Beside.regionOf (h : s.Beside s') (u : Target) : s'.regionOf u = s.regionOf u := by
  unfold Sweep.regionOf
  rw [h.source, h.regions]

theorem beside_addTerm : s.Beside (s.addTerm key t) := ⟨rfl, rfl, rfl, rfl, rfl⟩

end

theorem beside_contribute : s.Beside (s.contribute key f d args v) := by
  unfold contribute
  split
  · exact beside_addTerm
  · exact Beside.refl s

theorem collected_of_pending_append {s' : Sweep (Exact K)} (beside : s.Beside s') {more : List (Term (Exact K))}
    (pending : s'.pending k = s.pending k ++ more) :
    s'.collected ρ k = more.foldl (Term.run ρ (s.source.argsOf k.target)) (s.collected ρ k) := by
  unfold collected
  rw [pending, List.foldl_append, beside.source]

variable [IsStrictOrderedRing K] {T : Target → Prop} {adj : FuncId} {q : List Int}

/-- Contributions reach their own key only, and add what the iterations of the reader send. -/
theorem collected_contribute
    (outlined : Outlined (s.source.func f) (s.regionOf (.func f)) d T (s.source.argsOf key.target) args v)
    (carried : Carried ρ (s.regionOf (.func f)) d T adj args v) (length : q.length = (s.source.argsOf key.target).length) :
    (s.contribute key f d args v).collected ρ k q =
      s.collected ρ k q + if key = k then d.spread ρ (s.regionOf (.func f)) args (v.value ρ) q else 0 := by
  rw [collected_of_pending_append beside_contribute pending_contribute]
  split
  · rename_i same
    subst same
    exact run_contribution outlined carried length _
  · rw [add_zero]
    rfl

/-! ### The balance -/

/-- The collected adjoints of the targets inside their regions, paired with `τ`. -/
def balance (s : Sweep (Exact K)) (ρ : Valuation K) (τ : Target → List Int → K) (targets : List Target) : K :=
  (targets.map fun u =>
    ((s.regionOf u).points.map fun q => s.collected ρ (s.source.keyOf u) q * τ u q).sum).sum

/-- A read of `u` whose contribution is complete: all iterations that send something reach the region of `u`. -/
structure Sent (s : Sweep (Exact K)) (ρ : Valuation K) (T : Target → Prop) (f : FuncId) (d : Definition (Exact K))
    (adj : FuncId) (u : Target) (args : List (Expr (Exact K))) (v : Expr (Exact K)) : Prop where
  outlined : Outlined (s.source.func f) (s.regionOf (.func f)) d T (s.source.argsOf u) args v
  carried : Carried ρ (s.regionOf (.func f)) d T adj args v
  dims : (s.regionOf u).dims = (s.source.argsOf u).length
  inside {env : Env K} : env ∈ d.iterations (s.regionOf (.func f)) → v.value ρ env ≠ 0 →
    position ρ env args ∈ (s.regionOf u).points

variable {targets : List Target} {u : Target} {τ : Target → List Int → K}

omit [IsStrictOrderedRing K] in
theorem Sent.beside (h : s.Sent ρ T f d adj u args v) (beside : s.Beside s') : s'.Sent ρ T f d adj u args v := by
  obtain ⟨source, regions, extension, terms, slots, progress⟩ := s
  obtain ⟨source', regions', extension', terms', slots', progress'⟩ := s'
  obtain ⟨rfl, rfl, rfl, rfl, rfl⟩ := beside
  exact ⟨h.outlined, h.carried, h.dims, h.inside⟩

/-- What the iterations of a reader send, paired with `τ`. -/
def sentPairing (s : Sweep (Exact K)) (ρ : Valuation K) (τ : Target → List Int → K) (f : FuncId)
    (d : Definition (Exact K)) (u : Target) (args : List (Expr (Exact K))) (v : Expr (Exact K)) : K :=
  ((d.iterations (s.regionOf (.func f))).map fun env => v.value ρ env * τ u (position ρ env args)).sum

theorem balance_contribute (h : s.Sent ρ T f d adj u args v) (distinct : targets.Nodup) (mem : u ∈ targets) :
    (s.contribute (s.source.keyOf u) f d args v).balance ρ τ targets =
      s.balance ρ τ targets + s.sentPairing ρ τ f d u args v := by
  have beside : s.Beside (s.contribute (s.source.keyOf u) f d args v) := beside_contribute
  have target := s.source.keyOf_target u
  have collected (k : Key) {q : List Int} (length : q.length = (s.source.argsOf u).length) :
      (s.contribute (s.source.keyOf u) f d args v).collected ρ k q = s.collected ρ k q +
        if s.source.keyOf u = k then d.spread ρ (s.regionOf (.func f)) args (v.value ρ) q else 0 := by
    refine collected_contribute (T := T) ?_ h.carried ?_
    · rw [target]
      exact h.outlined
    · rw [target]
      exact length
  have others (k : Key) (other : s.source.keyOf u ≠ k) :
      (s.contribute (s.source.keyOf u) f d args v).collected ρ k = s.collected ρ k := by
    rw [collected_of_pending_append beside pending_contribute, if_neg other]
    rfl
  refine sum_map_grow distinct mem ?_ fun b _ other => ?_
  · rw [beside.regionOf, beside.source, sentPairing, ← sum_spread (Domain.nodup_points _) (fun env => h.inside) (τ u),
      ← List.sum_map_add]
    refine congrArg List.sum (List.map_congr_left fun q inside => ?_)
    rw [collected _ ((Domain.length_of_mem_points inside).trans h.dims), if_pos rfl, add_mul]
    rfl
  · rw [beside.regionOf, beside.source, others _ fun same => other (Graph.keyOf_inj same).symm]

/-! ### All reads of a definition -/

/-- The contributions of all reads apart from those of `f` itself. -/
def passOn (s : Sweep (Exact K)) (f : FuncId) (d : Definition (Exact K)) (ps : List (Partial (Exact K)))
    (adjoint : Expr (Exact K)) (copy : FuncId) : Sweep (Exact K) :=
  ps.foldl (fun s p =>
    if p.read.target = .func f then s
    else s.contribute (s.source.keyOf p.read.target) f d p.read.args (Smart.mul (p.slope.redirect f copy) adjoint)) s

theorem keyRead_eq {κ : Type} [Extended κ] {s : Sweep κ} (run : s.keyRead u = .ok key) : key = s.source.keyOf u := by
  cases u with
  | func h =>
    obtain ⟨-, -, made⟩ := bind_eq_ok.mp run
    exact (pure_eq_ok.mp made).symm
  | buffer b => exact (pure_eq_ok.mp run).symm
  | param p => exact (pure_eq_ok.mp run).symm

omit [IsStrictOrderedRing K] in
theorem contributeReads_eq {ps : List (Partial (Exact K))} {adjoint : Expr (Exact K)} {copy : FuncId}
    (run : s.contributeReads f d ps adjoint copy = .ok s') : s' = s.passOn f d ps adjoint copy := by
  induction ps generalizing s with
  | nil => exact (pure_eq_ok.mp run).symm
  | cons p ps ih =>
    unfold contributeReads at run
    rw [List.foldlM_cons] at run
    obtain ⟨s₁, first, rest⟩ := bind_eq_ok.mp run
    rw [ih rest]
    unfold passOn
    rw [List.foldl_cons]
    congr 1
    split at first
    · rename_i self
      rw [if_pos self, pure_eq_ok.mp first]
    · rename_i other
      obtain ⟨key, reached, made⟩ := bind_eq_ok.mp first
      rw [if_neg other, ← pure_eq_ok.mp made, keyRead_eq reached]

omit [IsStrictOrderedRing K] in
theorem beside_passOn {ps : List (Partial (Exact K))} {adjoint : Expr (Exact K)} {copy : FuncId} :
    s.Beside (s.passOn f d ps adjoint copy) := by
  induction ps generalizing s with
  | nil => exact Beside.refl s
  | cons p ps ih =>
    unfold passOn
    rw [List.foldl_cons]
    split
    · exact ih
    · exact beside_contribute.trans ih

theorem balance_passOn {ps : List (Partial (Exact K))} {adjoint : Expr (Exact K)} {copy : FuncId}
    (sent : ∀ p ∈ ps, p.read.target ≠ .func f → p.read.target ∈ targets ∧
      s.Sent ρ T f d adj p.read.target p.read.args (Smart.mul (p.slope.redirect f copy) adjoint))
    (distinct : targets.Nodup) :
    (s.passOn f d ps adjoint copy).balance ρ τ targets = s.balance ρ τ targets +
      (ps.map fun p => if p.read.target = .func f then 0
        else s.sentPairing ρ τ f d p.read.target p.read.args (Smart.mul (p.slope.redirect f copy) adjoint)).sum := by
  induction ps generalizing s with
  | nil => simp [passOn]
  | cons p ps ih =>
    unfold passOn
    rw [List.foldl_cons, List.map_cons, List.sum_cons]
    have later : ∀ p ∈ ps, p.read.target ≠ .func f → p.read.target ∈ targets ∧
        s.Sent ρ T f d adj p.read.target p.read.args (Smart.mul (p.slope.redirect f copy) adjoint) :=
      fun p mem => sent p (List.mem_cons_of_mem _ mem)
    split
    · rw [zero_add]
      exact ih later
    · rename_i other
      obtain ⟨mem, own⟩ := sent p List.mem_cons_self other
      have beside : s.Beside (s.contribute (s.source.keyOf p.read.target) f d p.read.args
          (Smart.mul (p.slope.redirect f copy) adjoint)) := beside_contribute
      refine (ih fun p mem other => ⟨(later p mem other).1, (later p mem other).2.beside beside⟩).trans ?_
      rw [balance_contribute own distinct mem, add_assoc]
      unfold sentPairing
      rw [beside.regionOf]

omit [IsStrictOrderedRing K] in
theorem exists_of_spread_ne_zero {R : Domain} {w : Env K → K} (nonzero : d.spread ρ R args w q ≠ 0) :
    ∃ env ∈ (d.iterations R : List (Env K)), position ρ env args = q ∧ w env ≠ 0 := by
  by_contra none
  refine nonzero (List.sum_eq_zero fun x mem => ?_)
  obtain ⟨env, listed, rfl⟩ := List.mem_map.mp mem
  by_cases at' : position ρ env args = q
  · have zero : w env = 0 := not_not.mp fun other => none ⟨env, listed, at', other⟩
    rw [zero, ite_self]
  · exact if_neg at'

/-- Where something has been collected it was there before, or some iteration has sent it. -/
theorem exists_of_collected_passOn {ps : List (Partial (Exact K))} {adjoint : Expr (Exact K)} {copy : FuncId}
    (sent : ∀ p ∈ ps, p.read.target ≠ .func f →
      s.Sent ρ T f d adj p.read.target p.read.args (Smart.mul (p.slope.redirect f copy) adjoint))
    (length : q.length = (s.source.argsOf u).length)
    (nonzero : (s.passOn f d ps adjoint copy).collected ρ (s.source.keyOf u) q ≠ 0) :
    s.collected ρ (s.source.keyOf u) q ≠ 0 ∨ ∃ p ∈ ps, p.read.target ≠ .func f ∧ p.read.target = u ∧
      ∃ env ∈ (d.iterations (s.regionOf (.func f)) : List (Env K)), position ρ env p.read.args = q ∧
        (Smart.mul (p.slope.redirect f copy) adjoint).value ρ env ≠ 0 := by
  induction ps generalizing s with
  | nil => exact Or.inl nonzero
  | cons p ps ih =>
    unfold passOn at nonzero
    rw [List.foldl_cons] at nonzero
    have later : ∀ p ∈ ps, p.read.target ≠ .func f →
        s.Sent ρ T f d adj p.read.target p.read.args (Smart.mul (p.slope.redirect f copy) adjoint) :=
      fun p mem => sent p (List.mem_cons_of_mem _ mem)
    split at nonzero
    · rcases ih later length nonzero with before | ⟨p', mem, found⟩
      · exact Or.inl before
      · exact Or.inr ⟨p', List.mem_cons_of_mem _ mem, found⟩
    rename_i other
    have own := sent p List.mem_cons_self other
    have target := s.source.keyOf_target p.read.target
    have beside : s.Beside (s.contribute (s.source.keyOf p.read.target) f d p.read.args
        (Smart.mul (p.slope.redirect f copy) adjoint)) := beside_contribute
    have outlined := own.outlined
    rw [← target] at outlined
    rcases ih (fun p mem other => (later p mem other).beside beside) (by rw [beside.source]; exact length)
      (by rw [beside.source]; exact nonzero) with before | ⟨p', mem, otherFunc, same, env, listed, found⟩
    · rw [beside.source] at before
      by_cases same : p.read.target = u
      · subst same
        rw [collected_contribute outlined own.carried (by rw [target]; exact length), if_pos rfl] at before
        by_cases zero : s.collected ρ (s.source.keyOf p.read.target) q = 0
        · rw [zero, zero_add] at before
          obtain ⟨env, listed, at', value⟩ := exists_of_spread_ne_zero before
          exact Or.inr ⟨p, List.mem_cons_self, other, rfl, env, listed, at', value⟩
        · exact Or.inl zero
      · have untouched : s.source.keyOf p.read.target ≠ s.source.keyOf u := fun equal => same (Graph.keyOf_inj equal)
        rw [collected_of_pending_append beside_contribute pending_contribute, if_neg untouched] at before
        exact Or.inl before
    · rw [beside.regionOf] at listed
      exact Or.inr ⟨p', List.mem_cons_of_mem _ mem, otherFunc, same, env, listed, found⟩

/-! ### Neat terms -/

/-- Terms are neat expressions of funcs that are known so far. -/
def Tidy (s : Sweep (Exact K)) (S : FuncId → Prop) : Prop :=
  ∀ k, ∀ t ∈ s.pending k, t.Neat (s.source.argsOf k.target) (s.extension.Known s.source S)

variable {S : FuncId → Prop}

omit [IsStrictOrderedRing K] in
theorem Tidy.addTerm (h : s.Tidy S) (neat : t.Neat (s.source.argsOf key.target) (s.extension.Known s.source S)) :
    (s.addTerm key t).Tidy S := by
  intro k term mem
  rw [pending_addTerm] at mem
  rcases List.mem_append.mp mem with old | new
  · exact h k term old
  · split at new
    · rename_i same
      rw [List.mem_singleton.mp new, ← same]
      exact neat
    · cases new

theorem Tidy.contribute (h : s.Tidy S) (outlined : Outlined (s.source.func f) (s.regionOf (.func f)) d
    (s.extension.Known s.source S) (s.source.argsOf key.target) args v) : (s.contribute key f d args v).Tidy S := by
  unfold Sweep.contribute
  split
  · rename_i term found
    exact h.addTerm (neat_contribution outlined found)
  · exact h

theorem Tidy.passOn {ps : List (Partial (Exact K))} {adjoint : Expr (Exact K)} {copy : FuncId} (h : s.Tidy S)
    (outlined : ∀ p ∈ ps, p.read.target ≠ .func f →
      Outlined (s.source.func f) (s.regionOf (.func f)) d (s.extension.Known s.source S)
        (s.source.argsOf p.read.target) p.read.args (Smart.mul (p.slope.redirect f copy) adjoint)) :
    (s.passOn f d ps adjoint copy).Tidy S := by
  induction ps generalizing s with
  | nil => exact h
  | cons p ps ih =>
    unfold Sweep.passOn
    rw [List.foldl_cons]
    split
    · exact ih h fun p mem => outlined p (List.mem_cons_of_mem _ mem)
    · rename_i other
      have beside : s.Beside (s.contribute (s.source.keyOf p.read.target) f d p.read.args
          (Smart.mul (p.slope.redirect f copy) adjoint)) := beside_contribute
      refine ih (h.contribute ?_) fun p mem other => ?_
      · rw [s.source.keyOf_target]
        exact outlined p List.mem_cons_self other
      · rw [beside.source, beside.extension, beside.regionOf]
        exact outlined p (List.mem_cons_of_mem _ mem) other

end Sweep

end ArrayDiff
