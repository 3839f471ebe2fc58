import ArrayDiff.Proofs.Derivative
import ArrayDiff.Proofs.Nodes
import ArrayDiff.Proofs.Slots

/-!
# Valuations that agree

Extensions of a graph leave the values of its own targets alone. What is made from neat expressions over these targets,
derivatives included, is the same under all valuations that agree on them.
-/

namespace ArrayDiff

/-- The two valuations have the same values for all targets of `T`. -/
structure Valuation.Agree {α : Type} (ρ ρ' : Valuation α) (T : Target → Prop) : Prop where
  call {f : FuncId} : T (.func f) → ρ.call f = ρ'.call f
  load {b : BufferId} : T (.buffer b) → ρ.load b = ρ'.load b
  param {i : ParamId} : T (.param i) → ρ.param i = ρ'.param i

theorem Valuation.Agree.mono {α : Type} {ρ ρ' : Valuation α} {T T' : Target → Prop} (h : ρ.Agree ρ' T)
    (sub : ∀ t, T' t → T t) : ρ.Agree ρ' T' :=
  ⟨fun mem => h.call (sub _ mem), fun mem => h.load (sub _ mem), fun mem => h.param (sub _ mem)⟩

theorem Valuation.Agree.symm {α : Type} {ρ ρ' : Valuation α} {T : Target → Prop} (h : ρ.Agree ρ' T) : ρ'.Agree ρ T :=
  ⟨fun mem => (h.call mem).symm, fun mem => (h.load mem).symm, fun mem => (h.param mem).symm⟩

namespace Expr

section Nodes

variable {κ : Type}

theorem mem_reads_unary {op : UnaryOp} {a : Expr κ} {r : Read κ} (mem : r ∈ a.reads) : r ∈ (unary op a).reads := by
  obtain ⟨x, node, read⟩ := List.mem_filterMap.mp mem
  exact List.mem_filterMap.mpr ⟨x, List.mem_cons_of_mem _ node, read⟩

theorem mem_reads_binary {op : BinaryOp} {a b : Expr κ} {r : Read κ} (mem : r ∈ a.reads ∨ r ∈ b.reads) :
    r ∈ (binary op a b).reads := by
  rcases mem with mem | mem
  · obtain ⟨x, node, read⟩ := List.mem_filterMap.mp mem
    exact List.mem_filterMap.mpr ⟨x, List.mem_cons_of_mem _ (List.mem_append_left _ node), read⟩
  · obtain ⟨x, node, read⟩ := List.mem_filterMap.mp mem
    exact List.mem_filterMap.mpr ⟨x, List.mem_cons_of_mem _ (List.mem_append_right _ node), read⟩

/-- The reads of the alternatives; those of the condition have no part in a derivative. -/
theorem mem_reads_select {c t f : Expr κ} {r : Read κ} (mem : r ∈ t.reads ∨ r ∈ f.reads) :
    r ∈ (select c t f).reads := by
  rcases mem with mem | mem
  · obtain ⟨x, node, read⟩ := List.mem_filterMap.mp mem
    exact List.mem_filterMap.mpr
      ⟨x, List.mem_cons_of_mem _ (List.mem_append_left _ (List.mem_append_right _ node)), read⟩
  · obtain ⟨x, node, read⟩ := List.mem_filterMap.mp mem
    exact List.mem_filterMap.mpr ⟨x, List.mem_cons_of_mem _ (List.mem_append_right _ node), read⟩

end Nodes

variable {K : Type} [Field K] [LinearOrder K] [FloorRing K] [Transcendental K] {vars rvars : List Name}
  {T : Target → Prop} {e : Expr (Exact K)} {ρ ρ' : Valuation K} {env : Env K} {Q : Atom → Prop}

theorem Plain.of_mem_nodes {a : Expr (Exact K)} (plain : e.Plain ρ env Q) (mem : a ∈ e.nodes) : a.Plain ρ env Q :=
  fun x node => plain x (nodes_trans node mem)

theorem Neat.of_mem_nodes {a : Expr (Exact K)} (neat : e.Neat vars rvars T) (mem : a ∈ e.nodes) :
    a.Neat vars rvars T := fun ρ env => (neat ρ env).of_mem_nodes mem

theorem Neat.of_mem_reads {r : Read (Exact K)} (neat : e.Neat vars rvars T) (mem : r ∈ e.reads) :
    ∀ a ∈ r.args, a.Neat vars rvars T := by
  intro a listed
  obtain ⟨x, node, read⟩ := List.mem_filterMap.mp mem
  exact (neat.of_mem_nodes node).of_mem_nodes (mem_nodes_of_mem_args read listed)

theorem Neat.value_agree (neat : e.Neat vars rvars T) (agree : ρ.Agree ρ' T) : e.value ρ env = e.value ρ' env := by
  have plain := neat ρ env
  refine value_congr (fun f args mem => ?_) (fun b args mem => ?_) fun i mem => ?_
  · exact congrFun (agree.call (plain.call_mem mem)) _
  · have known : T (.buffer b) := plain _ mem
    exact congrFun (agree.load known) _
  · have known : T (.param i) := plain _ mem
    exact agree.param known

theorem position_agree {args : List (Expr (Exact K))} (neat : ∀ a ∈ args, a.Neat vars rvars T)
    (agree : ρ.Agree ρ' T) : position ρ env args = position ρ' env args :=
  List.map_congr_left fun a mem => congrArg Scalar.index ((neat a mem).value_agree agree)

theorem plain_congr {P : Atom → Prop} (values : ∀ a ∈ e.nodes, a.value ρ env = a.value ρ' env)
    (plain : e.Plain ρ env P) : e.Plain ρ' env P := by
  intro x mem
  have before := plain x mem
  have operand {a : Expr (Exact K)} (inside : a ∈ x.nodes) : a.value ρ env = a.value ρ' env :=
    values a (nodes_trans inside mem)
  cases x with
  | and a b | or a b =>
    rcases before with loose | ⟨first, second⟩
    · exact Or.inl loose
    · rw [operand (List.mem_cons_of_mem _ (List.mem_append_left _ (mem_nodes_self a)))] at first
      rw [operand (List.mem_cons_of_mem _ (List.mem_append_right _ (mem_nodes_self b)))] at second
      exact Or.inr ⟨first, second⟩
  | _ => exact before

theorem derivative_congr {τ τ' : Target → List Int → K} (values : ∀ a ∈ e.nodes, a.value ρ env = a.value ρ' env)
    (moves : ∀ r ∈ e.reads, τ r.target (position ρ env r.args) = τ' r.target (position ρ env r.args)) :
    e.derivative ρ env τ = e.derivative ρ' env τ' := by
  induction e with
  | const _ | var _ | rvar _ => rfl
  | compare _ _ _ _ _ | and _ _ _ _ | or _ _ _ _ | not _ _ => rfl
  | param p => exact moves ⟨.param p, []⟩ (List.mem_filterMap.mpr ⟨_, mem_nodes_self _, rfl⟩)
  | call f args ih =>
    have moved := moves ⟨.func f, args⟩ (List.mem_filterMap.mpr ⟨_, mem_nodes_self _, rfl⟩)
    have there : position ρ env args = position ρ' env args := List.map_congr_left fun a mem =>
      congrArg Scalar.index (values a (mem_nodes_of_mem_args (r := ⟨.func f, args⟩) rfl mem))
    exact moved.trans (congrArg (τ' (.func f)) there)
  | load b args ih =>
    have moved := moves ⟨.buffer b, args⟩ (List.mem_filterMap.mpr ⟨_, mem_nodes_self _, rfl⟩)
    have there : position ρ env args = position ρ' env args := List.map_congr_left fun a mem =>
      congrArg Scalar.index (values a (mem_nodes_of_mem_args (r := ⟨.buffer b, args⟩) rfl mem))
    exact moved.trans (congrArg (τ' (.buffer b)) there)
  | unary op a ih =>
    have inner : ∀ x ∈ a.nodes, x ∈ (unary op a).nodes := fun x mem => List.mem_cons_of_mem _ mem
    have move := ih (fun x mem => values x (inner x mem)) fun r mem => moves r (mem_reads_unary mem)
    simp only [derivative]
    rw [values a (inner a (mem_nodes_self a)), move]
  | binary op a b iha ihb =>
    have left : ∀ x ∈ a.nodes, x ∈ (binary op a b).nodes := fun x mem =>
      List.mem_cons_of_mem _ (List.mem_append_left _ mem)
    have right : ∀ x ∈ b.nodes, x ∈ (binary op a b).nodes := fun x mem =>
      List.mem_cons_of_mem _ (List.mem_append_right _ mem)
    have moveLeft := iha (fun x mem => values x (left x mem)) fun r mem => moves r (mem_reads_binary (Or.inl mem))
    have moveRight := ihb (fun x mem => values x (right x mem)) fun r mem => moves r (mem_reads_binary (Or.inr mem))
    simp only [derivative]
    rw [values a (left a (mem_nodes_self a)), values b (right b (mem_nodes_self b)), moveLeft, moveRight]
  | select c t f ihc iht ihf =>
    have onTrue : ∀ x ∈ t.nodes, x ∈ (select c t f).nodes := fun x mem => by simp [nodes, mem]
    have onFalse : ∀ x ∈ f.nodes, x ∈ (select c t f).nodes := fun x mem => by simp [nodes, mem]
    have moveTrue := iht (fun x mem => values x (onTrue x mem)) fun r mem => moves r (mem_reads_select (Or.inl mem))
    have moveFalse := ihf (fun x mem => values x (onFalse x mem)) fun r mem => moves r (mem_reads_select (Or.inr mem))
    simp only [derivative]
    rw [values c (by simp [nodes, mem_nodes_self]), moveTrue, moveFalse]

theorem Neat.values_agree (neat : e.Neat vars rvars T) (agree : ρ.Agree ρ' T) :
    ∀ a ∈ e.nodes, a.value ρ env = a.value ρ' env := fun _ mem => (neat.of_mem_nodes mem).value_agree agree

theorem values_set {f : FuncId} {A B : List Int → K} (same : ∀ args, .call f args ∈ e.nodes →
    A (position (ρ.set f A) env args) = B (position (ρ.set f A) env args)) :
    ∀ a ∈ e.nodes, a.value (ρ.set f A) env = a.value (ρ.set f B) env := by
  intro a mem
  refine value_congr (fun g args node => ?_) (fun _ _ _ => rfl) fun _ _ => rfl
  by_cases own : g = f
  · subst own
    rw [Valuation.set_self, Valuation.set_self]
    exact same args (nodes_trans node mem)
  · rw [Valuation.set_of_ne _ _ own, Valuation.set_of_ne _ _ own]

omit [Field K] [LinearOrder K] [FloorRing K] [Transcendental K] in
theorem readsTarget_of_call {f : FuncId} {args : List (Expr (Exact K))} (node : .call f args ∈ e.nodes) :
    e.readsTarget (.func f) = true :=
  List.any_eq_true.mpr ⟨⟨.func f, args⟩, List.mem_filterMap.mpr ⟨_, node, rfl⟩, decide_eq_true rfl⟩

theorem value_set_of_not_reads {f : FuncId} (unread : e.readsTarget (.func f) = false) (A : List Int → K) :
    e.value (ρ.set f A) env = e.value ρ env := by
  refine value_congr (fun g args node => ?_) (fun _ _ _ => rfl) fun _ _ => rfl
  rw [Valuation.set_of_ne]
  rintro rfl
  rw [readsTarget_of_call node] at unread
  cases unread

theorem position_set_of_not_reads {f : FuncId} {args : List (Expr (Exact K))}
    (unread : ∀ a ∈ args, a.readsTarget (.func f) = false) (A : List Int → K) :
    position (ρ.set f A) env args = position ρ env args :=
  List.map_congr_left fun a mem => congrArg Scalar.index (value_set_of_not_reads (unread a mem) A)

/-! ### Slopes -/

theorem plain_record {read : Read (Exact K)} {slope : Expr (Exact K)} {ps : List (Partial (Exact K))}
    (before : ∀ p ∈ ps, p.slope.Plain ρ env Q) (plain : slope.Plain ρ env Q) :
    ∀ p ∈ Partial.record read slope ps, p.slope.Plain ρ env Q := by
  induction ps with
  | nil =>
    intro p mem
    rw [List.mem_singleton.mp mem]
    exact plain
  | cons q ps ih =>
    obtain ⟨first, rest⟩ := List.forall_mem_cons.mp before
    unfold Partial.record
    split
    · have sum := Smart.represents_add (Represents.of_plain first) (Represents.of_plain plain)
      exact List.forall_mem_cons.mpr ⟨sum.plain, rest⟩
    · exact List.forall_mem_cons.mpr ⟨first, ih rest⟩

/-- Slopes are made of what the expression is made of, whatever the operands of logic. -/
theorem plain_accumulate {adjoint : Expr (Exact K)} {ps : List (Partial (Exact K))} (plain : e.Plain ρ env Q)
    (ha : adjoint.Plain ρ env Q) (before : ∀ p ∈ ps, p.slope.Plain ρ env Q) :
    ∀ p ∈ e.accumulate adjoint ps, p.slope.Plain ρ env Q := by
  induction e generalizing adjoint ps with
  | const _ | var _ | rvar _ | compare _ _ _ _ _ | and _ _ _ _ | or _ _ _ _ | not _ _ =>
    unfold Expr.accumulate
    split <;> exact before
  | param p | call f args ih | load b args ih =>
    unfold Expr.accumulate
    split
    · exact before
    · exact plain_record before ha
  | unary op a ih =>
    unfold Expr.accumulate
    rw [plain_unary] at plain
    split
    · exact before
    · have slope := represents_slope op (Represents.of_plain plain)
      exact ih plain (Smart.represents_mul (Represents.of_plain ha) slope).plain before
  | binary op a b iha ihb =>
    unfold Expr.accumulate
    rw [plain_binary] at plain
    split
    · exact before
    · have slopes := represents_slopes op (Represents.of_plain plain.1) (Represents.of_plain plain.2)
      have left := iha plain.1 (Smart.represents_mul (Represents.of_plain ha) slopes.1).plain before
      exact ihb plain.2 (Smart.represents_mul (Represents.of_plain ha) slopes.2).plain left
  | select c t f ihc iht ihf =>
    unfold Expr.accumulate
    rw [plain_select] at plain
    split
    · exact before
    · have hc := Represents.of_plain (plain_simplify plain.1)
      have onTrue := iht plain.2.1 (Smart.represents_select hc (Represents.of_plain ha) Represents.zero).plain before
      exact ihf plain.2.2 (Smart.represents_select hc Represents.zero (Represents.of_plain ha)).plain onTrue

theorem Neat.partials (neat : e.Neat vars rvars T) : ∀ p ∈ e.partials, p.slope.Neat vars rvars T := by
  intro p mem ρ env
  have start : ∀ p ∈ ([] : List (Partial (Exact K))), p.slope.Plain ρ env (Atom.Among vars rvars T True) :=
    fun _ mem => absurd mem List.not_mem_nil
  exact plain_accumulate (neat ρ env) Represents.one.plain start p (List.mem_filter.mp mem).1

/-! ### Tangents -/

theorem Neat.tangent {T' : Target → Prop} {direction : Read (Exact K) → Option (Expr (Exact K))}
    (neat : e.Neat vars rvars T) (known : ∀ t, T t → T' t)
    (directions : ∀ r ∈ e.reads, ∀ a, direction r = some a → a.Neat vars rvars T') :
    (e.tangent direction).Neat vars rvars T' := by
  intro ρ env
  have wide {a : Expr (Exact K)} (inner : a.Neat vars rvars T) :
      a.Represents ρ env (Atom.Among vars rvars T' True) (a.value ρ env) :=
    (inner.mono (fun _ m => m) (fun _ m => m) known).represents ρ env
  have read {r : Read (Exact K)} (mem : r ∈ e.reads) :
      ((direction r).getD .zero).Plain ρ env (Atom.Among vars rvars T' True) := by
    cases found : direction r with
    | none => exact Represents.zero.plain
    | some a => exact directions r mem a found ρ env
  induction e with
  | const _ | var _ | rvar _ | compare _ _ _ _ _ | and _ _ _ _ | or _ _ _ _ | not _ _ => exact Represents.zero.plain
  | param p => exact read (List.mem_filterMap.mpr ⟨_, mem_nodes_self _, rfl⟩)
  | call f args ih => exact read (List.mem_filterMap.mpr ⟨_, mem_nodes_self _, rfl⟩)
  | load b args ih => exact read (List.mem_filterMap.mpr ⟨_, mem_nodes_self _, rfl⟩)
  | unary op a ih =>
    have inner : a.Neat vars rvars T := neat.of_mem_nodes (List.mem_cons_of_mem _ (mem_nodes_self a))
    have tangent := ih inner (fun r mem => directions r (mem_reads_unary mem)) fun mem => read (mem_reads_unary mem)
    exact (Smart.represents_mul (represents_slope op (wide inner)) (Represents.of_plain tangent)).plain
  | binary op a b iha ihb =>
    have left : a.Neat vars rvars T :=
      neat.of_mem_nodes (List.mem_cons_of_mem _ (List.mem_append_left _ (mem_nodes_self a)))
    have right : b.Neat vars rvars T :=
      neat.of_mem_nodes (List.mem_cons_of_mem _ (List.mem_append_right _ (mem_nodes_self b)))
    have slopes := represents_slopes op (wide left) (wide right)
    have tangentA := iha left (fun r mem => directions r (mem_reads_binary (Or.inl mem)))
      fun mem => read (mem_reads_binary (Or.inl mem))
    have tangentB := ihb right (fun r mem => directions r (mem_reads_binary (Or.inr mem)))
      fun mem => read (mem_reads_binary (Or.inr mem))
    exact (Smart.represents_add (Smart.represents_mul slopes.1 (Represents.of_plain tangentA))
      (Smart.represents_mul slopes.2 (Represents.of_plain tangentB))).plain
  | select c t f ihc iht ihf =>
    have cond : c.Neat vars rvars T := neat.of_mem_nodes
      (List.mem_cons_of_mem _ (List.mem_append_left _ (List.mem_append_left _ (mem_nodes_self c))))
    have onTrue : t.Neat vars rvars T := neat.of_mem_nodes
      (List.mem_cons_of_mem _ (List.mem_append_left _ (List.mem_append_right _ (mem_nodes_self t))))
    have onFalse : f.Neat vars rvars T := neat.of_mem_nodes
      (List.mem_cons_of_mem _ (List.mem_append_right _ (mem_nodes_self f)))
    have simple := plain_simplify (wide cond).plain
    have tangentT := iht onTrue (fun r mem => directions r (mem_reads_select (Or.inl mem)))
      fun mem => read (mem_reads_select (Or.inl mem))
    have tangentF := ihf onFalse (fun r mem => directions r (mem_reads_select (Or.inr mem)))
      fun mem => read (mem_reads_select (Or.inr mem))
    exact (Smart.represents_select (Represents.of_plain simple) (Represents.of_plain tangentT)
      (Represents.of_plain tangentF)).plain

theorem tangent_congr {κ : Type} [Scalar κ] {e : Expr κ} {direction direction' : Read κ → Option (Expr κ)}
    (same : ∀ r ∈ e.reads, direction r = direction' r) : e.tangent direction = e.tangent direction' := by
  induction e with
  | const _ | var _ | rvar _ | compare _ _ _ _ _ | and _ _ _ _ | or _ _ _ _ | not _ _ => rfl
  | param p => exact congrArg (Option.getD · _) (same _ (List.mem_filterMap.mpr ⟨_, mem_nodes_self _, rfl⟩))
  | call f args ih => exact congrArg (Option.getD · _) (same _ (List.mem_filterMap.mpr ⟨_, mem_nodes_self _, rfl⟩))
  | load b args ih => exact congrArg (Option.getD · _) (same _ (List.mem_filterMap.mpr ⟨_, mem_nodes_self _, rfl⟩))
  | unary op a ih =>
    simp only [tangent]
    rw [ih fun r mem => same r (mem_reads_unary mem)]
  | binary op a b iha ihb =>
    simp only [tangent]
    rw [iha fun r mem => same r (mem_reads_binary (Or.inl mem)), ihb fun r mem => same r (mem_reads_binary (Or.inr mem))]
  | select c t f ihc iht ihf =>
    simp only [tangent]
    rw [iht fun r mem => same r (mem_reads_select (Or.inl mem)), ihf fun r mem => same r (mem_reads_select (Or.inr mem))]

theorem derivative_eq_zero {τ : Target → List Int → K} (still : ∀ r ∈ e.reads, ∀ p, τ r.target p = 0) :
    e.derivative ρ env τ = 0 := by
  induction e with
  | const _ | var _ | rvar _ | compare _ _ _ _ _ | and _ _ _ _ | or _ _ _ _ | not _ _ => rfl
  | param p => exact still ⟨.param p, []⟩ (List.mem_filterMap.mpr ⟨_, mem_nodes_self _, rfl⟩) []
  | call f args ih => exact still ⟨.func f, args⟩ (List.mem_filterMap.mpr ⟨_, mem_nodes_self _, rfl⟩) _
  | load b args ih => exact still ⟨.buffer b, args⟩ (List.mem_filterMap.mpr ⟨_, mem_nodes_self _, rfl⟩) _
  | unary op a ih =>
    simp only [derivative]
    rw [ih fun r mem => still r (mem_reads_unary mem), mul_zero]
  | binary op a b iha ihb =>
    simp only [derivative]
    rw [iha fun r mem => still r (mem_reads_binary (Or.inl mem)),
      ihb fun r mem => still r (mem_reads_binary (Or.inr mem)), mul_zero, mul_zero, add_zero]
  | select c t f ihc iht ihf =>
    simp only [derivative]
    rw [iht fun r mem => still r (mem_reads_select (Or.inl mem)),
      ihf fun r mem => still r (mem_reads_select (Or.inr mem)), ite_self]

/-! ### Products -/

theorem Neat.mul {a b : Expr (Exact K)} (ha : a.Neat vars rvars T) (hb : b.Neat vars rvars T) :
    (Smart.mul a b).Neat vars rvars T :=
  fun ρ env => (Smart.represents_mul (ha.represents ρ env) (hb.represents ρ env)).plain

theorem Neat.value_mul {a b : Expr (Exact K)} (ha : a.Neat vars rvars T) (hb : b.Neat vars rvars T) :
    (Smart.mul a b).value ρ env = a.value ρ env * b.value ρ env :=
  (Smart.represents_mul (ha.represents ρ env) (hb.represents ρ env)).value

/-! ### Redirection -/

section

omit [Field K] [LinearOrder K] [FloorRing K] [Transcendental K]

theorem redirect_eq_self {f g : FuncId} {e : Expr (Exact K)} (same : ∀ args, .call f args ∈ e.nodes → f = g) :
    e.redirect f g = e := by
  have list {args : List (Expr (Exact K))} (ih : ∀ a ∈ args, (∀ as, .call f as ∈ a.nodes → f = g) → a.redirect f g = a)
      (inner : ∀ as, .call f as ∈ nodesList args → f = g) : redirectList f g args = args := by
    rw [redirectList_eq_map]
    refine (List.map_congr_left fun a mem => ?_).trans (List.map_id' _)
    exact ih a mem fun as node => inner as (mem_nodesList.mpr ⟨a, mem, node⟩)
  induction e with
  | const _ | var _ | rvar _ | param _ => rfl
  | call h args ih =>
    simp only [redirect]
    rw [list ih fun as node => same as (List.mem_cons_of_mem _ node)]
    congr 1
    split
    · rename_i own
      rw [own, same args (by rw [own]; exact mem_nodes_self _)]
    · rfl
  | load b args ih =>
    simp only [redirect]
    rw [list ih fun as node => same as (List.mem_cons_of_mem _ node)]
  | unary op a ih | not a ih =>
    simp only [redirect]
    rw [ih fun as node => same as (List.mem_cons_of_mem _ node)]
  | binary op a b iha ihb | compare op a b iha ihb | and a b iha ihb | or a b iha ihb =>
    simp only [redirect]
    rw [iha fun as node => same as (List.mem_cons_of_mem _ (List.mem_append_left _ node)),
      ihb fun as node => same as (List.mem_cons_of_mem _ (List.mem_append_right _ node))]
  | select c t f ihc iht ihf =>
    simp only [redirect]
    rw [ihc fun as node => same as (by simp [nodes, node]), iht fun as node => same as (by simp [nodes, node]),
      ihf fun as node => same as (by simp [nodes, node])]

theorem redirect_self (e : Expr (Exact K)) (f : FuncId) : e.redirect f f = e := redirect_eq_self fun _ _ => rfl

theorem redirect_of_not_reads {f g : FuncId} {e : Expr (Exact K)} (unread : e.readsTarget (.func f) = false) :
    e.redirect f g = e := by
  refine redirect_eq_self fun args node => ?_
  rw [readsTarget_of_call node] at unread
  cases unread

end

theorem Neat.redirect {f g : FuncId} (neat : e.Neat vars rvars T) (known : T (.func g)) :
    (e.redirect f g).Neat vars rvars T := by
  intro ρ env
  have here := neat.represents (ρ.set f (ρ.call g)) env
  refine (here.redirect (fun _ mem => mem) (fun _ mem => mem) ?_ fun loose => loose).plain
  intro t listed
  split
  · exact known
  · exact listed

end Expr

end ArrayDiff
