import ArrayDiff.Proofs.Classification
import ArrayDiff.Proofs.Coordinates
import ArrayDiff.Proofs.Differential

/-!
# Values that stand for the ones that an update sees

While an update runs, its func holds some old values and some new ones. The derivative of an iteration's value is the
same with values of one moment in their place: those before the update for an overwriting or accumulating one, those
after it for a scan (`Definition.derivative?_sight`). Where old values are accumulated they have to be summands
(`Expr.SummandOf`), since both moments differ at the written position.
-/

open ArrayDiff.Expr

namespace ArrayDiff

/-! ### Summands -/

/-- Wherever `old` stands in an expression, it is a summand of its value. -/
inductive Expr.SummandOf {κ : Type} (old : Expr κ) : Expr κ → Prop
  | self : SummandOf old old
  | apart {e : Expr κ} : old ∉ e.nodes → SummandOf old e
  | neg {a : Expr κ} : SummandOf old a → SummandOf old (.unary .neg a)
  | add {a b : Expr κ} : SummandOf old a → SummandOf old b → SummandOf old (.binary .add a b)
  | sub {a b : Expr κ} : SummandOf old a → SummandOf old b → SummandOf old (.binary .sub a b)
  | select {c t f : Expr κ} : old ∉ c.nodes → SummandOf old t → SummandOf old f → SummandOf old (.select c t f)

/-- Whether an update can use the value that it replaces. -/
def UpdateKind.accumulates {κ : Type} : UpdateKind κ → Bool
  | overwrite => false
  | inPlace => true
  | scan _ accumulates => accumulates

variable {K : Type} [Field K] [LinearOrder K] [FloorRing K] [Transcendental K]

namespace Expr

variable {ρ : Valuation K} {env : Env K} {e : Expr (Exact K)} {f : FuncId} {A B : List Int → K}

/-- A derivative does not depend on what is read at `lhs` if that is a summand. -/
theorem derivative?_summand {lhs : List (Expr (Exact K))} (unread : ∀ a ∈ lhs, a.readsTarget (.func f) = false)
    (summand : (Expr.call f lhs).SummandOf e) (same : ∀ args, .call f args ∈ e.nodes → args ≠ lhs →
      A (position (ρ.set f A) env args) = B (position (ρ.set f A) env args)) (τ : Target → Contents K) :
    e.derivative? (ρ.set f A) env τ = e.derivative? (ρ.set f B) env τ := by
  -- where it does not occur at all, all other reads see the same
  have values {e : Expr (Exact K)} (apart : .call f lhs ∉ e.nodes) (same : ∀ args, .call f args ∈ e.nodes → args ≠ lhs →
      A (position (ρ.set f A) env args) = B (position (ρ.set f A) env args)) :
      ∀ a ∈ e.nodes, a.value (ρ.set f A) env = a.value (ρ.set f B) env :=
    values_set fun args node => same args node fun own => apart (own ▸ node)
  obtain ⟨old, own⟩ : ∃ old, old = Expr.call f lhs := ⟨_, rfl⟩
  rw [← own] at summand
  induction summand with
  | self =>
    subst own
    rw [derivative?, derivative?, position_set_of_not_reads unread, position_set_of_not_reads unread]
  | apart none => exact derivative?_congr (values (own ▸ none) same) fun _ _ => rfl
  | neg _ ih =>
    rw [derivative?, derivative?, ih fun args node => same args (List.mem_cons_of_mem _ node)]
    rfl
  | add _ _ iha ihb | sub _ _ iha ihb =>
    rw [derivative?, derivative?, iha fun args node => same args (List.mem_cons_of_mem _ (List.mem_append_left _ node)),
      ihb fun args node => same args (List.mem_cons_of_mem _ (List.mem_append_right _ node))]
    rfl
  | select condition _ _ iht ihf =>
    rw [derivative?, derivative?,
      values (own ▸ condition) (fun args node => same args (by simp [nodes, node])) _ (mem_nodes_self _),
      iht fun args node => same args (by simp [nodes, node]), ihf fun args node => same args (by simp [nodes, node])]

end Expr

/-! ### What runs leave alone -/

section Frame

variable {P : Answers K} {ρ : Valuation K} {f : FuncId} {d : Definition (Exact K)} {start X Y : Contents K} {q : List Int}

theorem Definition.foldlM_step?_of_ne (ext : P.ExtendedBy ρ) (unread : ∀ e ∈ d.lhs, e.readsTarget (.func f) = false)
    {envs : List (Env K)} (apart : ∀ env ∈ envs, position ρ env d.lhs ≠ q)
    (run : envs.foldlM (d.step? P f start) X = some Y) : Y q = X q := by
  refine foldlM_some_invariant (fun Z => Z q = X q) run rfl fun env mem Z Z' before step => ?_
  obtain ⟨p, v, found, -, stored⟩ := step?_eq_some.mp step
  generalize (if d.rdom.isSome then Z else start) = seen at found
  have written : position (ρ.set f fun p => (seen p).getD 0) env d.lhs = p :=
    position_of_position? (ext.set fun p v held => by rw [held]; rfl) found
  rw [position_set_of_not_reads unread] at written
  obtain ⟨-, rfl⟩ := Contents.store?_eq_some.mp stored
  rw [Function.update_of_ne fun same => apart env mem (written.trans same.symm), before]

end Frame

/-! ### The moment that counts -/

/-- Of what a func holds before and after an update, what stands in the derivative of the update. -/
def UpdateKind.moment {κ A : Type} (kind : UpdateKind κ) (before after : A) : A :=
  match kind with
  | scan .. => after
  | _ => before

theorem Valuation.set_call_self {α : Type} (ρ : Valuation α) (f : FuncId) : ρ.set f (ρ.call f) = ρ := by
  unfold set
  congr 1
  funext g
  split
  · rename_i same
    rw [same]
  · rfl

/-- An update of `f` that reads `f` with the right arity and is made of numbers, bound variables and targets of `T`.
Operands of logic are truth values whatever `f` holds, and a value that is accumulated is a summand. -/
structure Definition.Regular (d : Definition (Exact K)) (ρ : Valuation K) (f : FuncId) (T : Target → Prop) : Prop where
  names : (namesOf d.rdom).Nodup
  arity : ∀ r ∈ d.value.reads, r.target = .func f → r.args.length = d.lhs.length
  neat : ∀ e ∈ d.exprs, e.Neat d.pureVars (namesOf d.rdom) T
  logical : ∀ (A : List Int → K) (env : Env K), ∀ e ∈ d.exprs, e.Logical (ρ.set f A) env
  summand {kind : UpdateKind (Exact K)} : d.kindFor f = .ok kind → kind.accumulates = true →
    (Expr.call f d.lhs).SummandOf d.value

namespace Definition.Regular

variable {d : Definition (Exact K)} {ρ : Valuation K} {f : FuncId} {T : Target → Prop} {R : Domain} {env : Env K}
  {P : Answers K} {X X₁ Y : Contents K} {C : List Int → K} {kind : UpdateKind (Exact K)}

theorem plain (h : d.Regular ρ f T) (env : Env K) : ∀ e ∈ d.exprs, e.Plain ρ env (d.Bound T) := by
  intro e mem
  have logical := h.logical (ρ.call f) env e mem
  rw [ρ.set_call_self] at logical
  exact (h.neat e mem).strict logical

section Reads

variable {args : List (Expr (Exact K))} {rdom : ReductionDomain} {written : List Coord} {done rest : List (Env K)}

theorem plain_read (h : d.Regular ρ f T) (node : .call f args ∈ d.value.nodes) (env : Env K) :
    ∀ e ∈ d.lhs ++ args, e.Plain ρ env (d.Bound T) := by
  refine List.forall_mem_append.mpr ⟨fun e mem => h.plain env e (List.mem_append_left _ mem), fun e mem => ?_⟩
  refine (h.plain env d.value (List.mem_append_right _ List.mem_cons_self)).of_mem_nodes ?_
  exact nodes_trans (mem_nodes_of_mem_args (r := ⟨.func f, args⟩) rfl mem) node

theorem writesOnce (h : d.Regular ρ f T) (reduced : d.rdom = some rdom) (found : d.distinctPositions? = some written) :
    WritesOnce d rdom written := by
  have names := h.names
  rw [reduced] at names
  exact ⟨reduced, names, found⟩

variable (h : d.Regular ρ f T) (length : d.lhs.length = R.dims) (ext : P.ExtendedBy ρ)
  (unwritten : ∀ e ∈ d.lhs, e.readsTarget (.func f) = false) (once : WritesOnce d rdom written)
  (node : .call f args ∈ d.value.nodes) (split : d.iterations R = done ++ env :: rest)
include h length ext unwritten once node split

variable [IsStrictOrderedRing K] in
/-- A read of old values finds what was there before the update. -/
theorem eq_before (old : seen? written rdom args = some .before)
    (before : done.foldlM (d.step? P f X) X = some X₁) : X₁ (position ρ env args) = X (position ρ env args) := by
  have apart := once.pairwise_before length id (h.arity _ (mem_reads_of_call node) rfl)
    (fun env _ => h.plain_read node env) old
  rw [split, List.pairwise_append] at apart
  exact foldlM_step?_of_ne ext unwritten (fun x mem same => apart.2.2 x mem env List.mem_cons_self same.symm) before

variable [IsStrictOrderedRing K] in
/-- A read of what an earlier iteration wrote finds what is there after the update. -/
theorem eq_after (earlier : seen? written rdom args = some .earlier)
    (after : (env :: rest).foldlM (d.step? P f X) X₁ = some Y) :
    X₁ (position ρ env args) = Y (position ρ env args) := by
  obtain ⟨apart, self⟩ := once.pairwise_earlier length id (h.arity _ (mem_reads_of_call node) rfl)
    (fun env _ => h.plain_read node env) earlier
  rw [split, List.pairwise_append] at apart
  have off : ∀ x ∈ env :: rest, position ρ x d.lhs ≠ position ρ env args := by
    refine List.forall_mem_cons.mpr ⟨fun same => ?_, fun x mem same => ?_⟩
    · exact self env (split ▸ List.mem_append_right _ List.mem_cons_self) same.symm
    · exact (List.pairwise_cons.mp apart.2.1).1 x mem same.symm
  exact (foldlM_step?_of_ne ext unwritten off after).symm

end Reads

variable [IsStrictOrderedRing K] in
/-- In the derivative of one iteration, the values that `f` holds before or after the whole update can take the place of
those that it holds when the iteration runs. -/
theorem derivative?_sight (h : d.Regular ρ f T) (length : d.lhs.length = R.dims) (ext : P.ExtendedBy ρ)
    (kinded : d.kindFor f = .ok kind) {done rest : List (Env K)} (split : d.iterations R = done ++ env :: rest)
    (before : done.foldlM (d.step? P f X) X = some X₁) (after : (env :: rest).foldlM (d.step? P f X) X₁ = some Y)
    (held : ∀ q v, kind.moment X Y q = some v → C q = v) (τ : Target → Contents K) :
    d.value.derivative? (ρ.set f fun q => ((if d.rdom.isSome then X₁ else X) q).getD (C q)) env τ =
      d.value.derivative? (ρ.set f C) env τ := by
  obtain ⟨unwritten, unread, cases⟩ := kindFor_cases kinded
  generalize seen : (if d.rdom.isSome then X₁ else X) = S
  -- positions do not depend on what `f` holds, so that only the values at them can differ
  have agree {args : List (Expr (Exact K))} (node : .call f args ∈ d.value.nodes)
      (same : S (position ρ env args) = kind.moment X Y (position ρ env args)) (A : List Int → K) :
      (S (position (ρ.set f A) env args)).getD (C (position (ρ.set f A) env args)) =
        C (position (ρ.set f A) env args) := by
    rw [position_set_of_not_reads (unread _ (mem_reads_of_call node) rfl), same]
    cases found : kind.moment X Y (position ρ env args) with
    | none => rfl
    | some v => exact (held _ v found).symm
  have everywhere (same : ∀ args, .call f args ∈ d.value.nodes →
      S (position ρ env args) = kind.moment X Y (position ρ env args)) :
      d.value.derivative? (ρ.set f fun q => (S q).getD (C q)) env τ = d.value.derivative? (ρ.set f C) env τ :=
    derivative?_congr (values_set fun args node => agree node (same args node) _) fun _ _ => rfl
  have own {args : List (Expr (Exact K))} (node : .call f args ∈ d.value.nodes) : args ∈ selfReads f d.value :=
    mem_selfReads (mem_reads_of_call node) rfl
  rcases cases with ⟨single | unseen, rfl⟩ | ⟨rdom, reduced, classified⟩
  · rw [single] at seen
    exact everywhere fun args _ => congrFun seen.symm _
  · exact everywhere fun args node => absurd (own node) (by rw [unseen]; exact List.not_mem_nil)
  rw [reduced, Option.isSome_some, if_pos rfl] at seen
  subst seen
  cases classified with
  | overwrite found old =>
    exact everywhere fun args node => h.eq_before length ext unwritten (h.writesOnce reduced found) node split
      (old args (own node)) before
  | inPlace same =>
    refine derivative?_summand unwritten (h.summand kinded rfl) (fun args node other => ?_) τ
    exact absurd (eq_args_of_sameList (same args (own node))) other
  | @scan _ read _ found earlier others =>
    have settled {args : List (Expr (Exact K))} (node : .call f args ∈ d.value.nodes) (scanned : args = read) :
        X₁ (position ρ env args) = Y (position ρ env args) :=
      h.eq_after length ext unwritten (h.writesOnce reduced found) node split (scanned ▸ earlier) after
    cases accumulates : (selfReads f d.value).any (sameList · d.lhs) with
    | true =>
      rw [accumulates] at kinded
      refine derivative?_summand unwritten (h.summand kinded rfl) (fun args node other => ?_) τ
      refine agree node (settled node ?_) _
      rcases others args (own node) with scanned | same
      · exact eq_args_of_sameList scanned
      · exact absurd (eq_args_of_sameList same) other
    | false =>
      refine everywhere fun args node => settled node ?_
      rcases others args (own node) with scanned | same
      · exact eq_args_of_sameList scanned
      · exact absurd same (List.any_eq_false.mp accumulates _ (own node))

end Definition.Regular

end ArrayDiff
