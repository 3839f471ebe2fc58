import ArrayDiff.Expr.Derivative
import ArrayDiff.Proofs.Building
import ArrayDiff.Proofs.Contents
import ArrayDiff.Proofs.Nodes

/-!
# The variables and reads of derived expressions

An expression fits when its pure variables and its reads are allowed (`Expr.Fits`). Simplification, substitution and
differentiation put nothing into an expression that was not in what they are given.
-/

namespace ArrayDiff

variable {κ : Type}

namespace Expr

/-- A pure variable that satisfies `V`, or a read of a target with a number of arguments that satisfy `R`. -/
def Allowed (V : Name → Prop) (R : Target → Nat → Prop) : Expr κ → Prop
  | var x => V x
  | param p => R (.param p) 0
  | call f args => R (.func f) args.length
  | load b args => R (.buffer b) args.length
  | _ => True

/-- All pure variables of the expression satisfy `V`, all reads satisfy `R`. -/
def Fits (V : Name → Prop) (R : Target → Nat → Prop) (e : Expr κ) : Prop := e.Everywhere (Allowed V R)

variable {V V' : Name → Prop} {R R' : Target → Nat → Prop} {a b c e : Expr κ}

theorem allowed_iff : Allowed V R e ↔ (∀ x, e = var x → V x) ∧ ∀ r, e.read? = some r → R r.target r.args.length := by
  cases e <;> simp [Allowed, read?]

theorem fits_iff : e.Fits V R ↔ (∀ x ∈ e.freeVars, V x) ∧ ∀ r ∈ e.reads, R r.target r.args.length := by
  unfold Fits Everywhere reads
  simp only [allowed_iff, mem_freeVars, List.mem_filterMap]
  constructor
  · exact fun h => ⟨fun x mem => (h _ mem).1 x rfl, fun r ⟨a, mem, read⟩ => (h a mem).2 r read⟩
  · exact fun h a mem => ⟨fun x same => h.1 x (same ▸ mem), fun r read => h.2 r ⟨a, mem, read⟩⟩

theorem Fits.mono (h : e.Fits V R) (vars : ∀ x, V x → V' x) (reads : ∀ t n, R t n → R' t n) : e.Fits V' R' := by
  refine Everywhere.mono h fun a allowed => ?_
  rw [allowed_iff] at allowed ⊢
  exact ⟨fun x same => vars x (allowed.1 x same), fun r read => reads _ _ (allowed.2 r read)⟩

theorem kept_allowed : Kept (κ := κ) (Allowed V R) where
  const _ := trivial
  call f as bs same h := by
    change R (.func f) bs.length
    rw [← same]
    exact h
  load b as bs same h := by
    change R (.buffer b) bs.length
    rw [← same]
    exact h
  unary _ _ _ := trivial
  binary _ _ _ := trivial
  compare _ _ _ := trivial
  and _ _ := trivial
  or _ _ := trivial
  not _ := trivial
  select _ _ _ := trivial

@[simp] theorem fits_const (c : κ) : (const c).Fits V R := .const kept_allowed c

@[simp] theorem fits_var {x : Name} : (var x : Expr κ).Fits V R ↔ V x := everywhere_leaf rfl

@[simp] theorem fits_rvar (x : Name) : (rvar x : Expr κ).Fits V R := (everywhere_leaf rfl).mpr trivial

@[simp] theorem fits_param {p : ParamId} : (param p : Expr κ).Fits V R ↔ R (.param p) 0 := everywhere_leaf rfl

@[simp] theorem fits_call {f : FuncId} {args : List (Expr κ)} :
    (call f args).Fits V R ↔ R (.func f) args.length ∧ ∀ a ∈ args, a.Fits V R := everywhere_iff

@[simp] theorem fits_load {b : BufferId} {args : List (Expr κ)} :
    (load b args).Fits V R ↔ R (.buffer b) args.length ∧ ∀ a ∈ args, a.Fits V R := everywhere_iff

@[simp] theorem fits_unary {op : UnaryOp} : (unary op a).Fits V R ↔ a.Fits V R :=
  (everywhere_one rfl).trans (and_iff_right trivial)

@[simp] theorem fits_binary {op : BinaryOp} : (binary op a b).Fits V R ↔ a.Fits V R ∧ b.Fits V R :=
  (everywhere_two rfl).trans (and_iff_right trivial)

@[simp] theorem fits_compare {op : Comparison} : (compare op a b).Fits V R ↔ a.Fits V R ∧ b.Fits V R :=
  (everywhere_two rfl).trans (and_iff_right trivial)

@[simp] theorem fits_and : (and a b).Fits V R ↔ a.Fits V R ∧ b.Fits V R :=
  (everywhere_two rfl).trans (and_iff_right trivial)

@[simp] theorem fits_or : (or a b).Fits V R ↔ a.Fits V R ∧ b.Fits V R :=
  (everywhere_two rfl).trans (and_iff_right trivial)

@[simp] theorem fits_not : (not a).Fits V R ↔ a.Fits V R := (everywhere_one rfl).trans (and_iff_right trivial)

@[simp] theorem fits_select : (select c a b).Fits V R ↔ c.Fits V R ∧ a.Fits V R ∧ b.Fits V R :=
  (everywhere_three rfl).trans (and_iff_right trivial)

theorem fits_vars {names : List Name} (h : ∀ x ∈ names, V x) : ∀ a ∈ names.map (var (κ := κ)), a.Fits V R := by
  intro a mem
  obtain ⟨x, listed, rfl⟩ := List.mem_map.mp mem
  exact fits_var.mpr (h x listed)

theorem fits_callVars {f : FuncId} {names : List Name} (h : R (.func f) names.length) :
    (call (κ := κ) f (names.map var)).Fits (· ∈ names) R :=
  fits_call.mpr ⟨(List.length_map (var (κ := κ))).symm ▸ h, fits_vars fun _ mem => mem⟩

theorem Fits.freeVars (h : e.Fits V R) {x : Name} (mem : x ∈ e.freeVars) : V x := (fits_iff.mp h).1 x mem

theorem Fits.reads (h : e.Fits V R) {r : Read κ} (mem : r ∈ e.reads) : R r.target r.args.length := (fits_iff.mp h).2 r mem

theorem Fits.args (h : e.Fits V R) {r : Read κ} (mem : r ∈ e.reads) : ∀ a ∈ r.args, a.Fits V R := by
  intro a arg x node
  obtain ⟨y, own, read⟩ := List.mem_filterMap.mp mem
  exact h x (nodes_trans node (nodes_trans (mem_nodes_of_mem_args read arg) own))

/-! ### Substitution -/

theorem Fits.bind {σ τ : Name → Option (Expr κ)} (h : e.Fits V R) (vars : ∀ x, V x → ((σ x).getD (var x)).Fits V' R)
    (rvars : ∀ x, ((τ x).getD (rvar x)).Fits V' R) : (e.bind σ τ).Fits V' R := by
  induction e with
  | const c => exact fits_const c
  | var x => exact vars x (fits_var.mp h)
  | rvar x => exact rvars x
  | param p => exact fits_param.mpr (fits_param.mp h)
  | call f args ih =>
    rw [fits_call] at h
    rw [Expr.bind, bindList_eq_map, fits_call, List.length_map]
    exact ⟨h.1, List.forall_mem_map.mpr fun a mem => ih a mem (h.2 a mem)⟩
  | load b args ih =>
    rw [fits_load] at h
    rw [Expr.bind, bindList_eq_map, fits_load, List.length_map]
    exact ⟨h.1, List.forall_mem_map.mpr fun a mem => ih a mem (h.2 a mem)⟩
  | unary op a ih => exact fits_unary.mpr (ih (fits_unary.mp h))
  | not a ih => exact fits_not.mpr (ih (fits_not.mp h))
  | binary op a b iha ihb => exact fits_binary.mpr ((fits_binary.mp h).imp iha ihb)
  | compare op a b iha ihb => exact fits_compare.mpr ((fits_compare.mp h).imp iha ihb)
  | and a b iha ihb => exact fits_and.mpr ((fits_and.mp h).imp iha ihb)
  | or a b iha ihb => exact fits_or.mpr ((fits_or.mp h).imp iha ihb)
  | select c t f ihc iht ihf => exact fits_select.mpr ((fits_select.mp h).imp ihc (And.imp iht ihf))

theorem Fits.redirect {f g : FuncId} (h : e.Fits V R) (copy : ∀ n, R (.func f) n → R (.func g) n) :
    (e.redirect f g).Fits V R := by
  induction e with
  | const c => exact fits_const c
  | var x => exact h
  | rvar x => exact h
  | param p => exact h
  | call k args ih =>
    rw [fits_call] at h
    rw [Expr.redirect, redirectList_eq_map, fits_call, List.length_map]
    refine ⟨?_, List.forall_mem_map.mpr fun a mem => ih a mem (h.2 a mem)⟩
    split
    · rename_i same
      exact copy _ (same ▸ h.1)
    · exact h.1
  | load b args ih =>
    rw [fits_load] at h
    rw [Expr.redirect, redirectList_eq_map, fits_load, List.length_map]
    exact ⟨h.1, List.forall_mem_map.mpr fun a mem => ih a mem (h.2 a mem)⟩
  | unary op a ih => exact fits_unary.mpr (ih (fits_unary.mp h))
  | not a ih => exact fits_not.mpr (ih (fits_not.mp h))
  | binary op a b iha ihb => exact fits_binary.mpr ((fits_binary.mp h).imp iha ihb)
  | compare op a b iha ihb => exact fits_compare.mpr ((fits_compare.mp h).imp iha ihb)
  | and a b iha ihb => exact fits_and.mpr ((fits_and.mp h).imp iha ihb)
  | or a b iha ihb => exact fits_or.mpr ((fits_or.mp h).imp iha ihb)
  | select c t f ihc iht ihf => exact fits_select.mpr ((fits_select.mp h).imp ihc (And.imp iht ihf))

/-! ### Simplification -/

section Smart

variable [Scalar κ]

theorem Fits.simplify (h : e.Fits V R) : e.simplify.Fits V R := everywhere_simplify kept_allowed fun a mem _ => h a mem

theorem Fits.neg (ha : a.Fits V R) : (Smart.neg a).Fits V R := Smart.everywhere_unary kept_allowed ha _

theorem Fits.add (ha : a.Fits V R) (hb : b.Fits V R) : (Smart.add a b).Fits V R := Smart.everywhere_add kept_allowed ha hb

theorem Fits.sub (ha : a.Fits V R) (hb : b.Fits V R) : (Smart.sub a b).Fits V R := Smart.everywhere_sub kept_allowed ha hb

theorem Fits.mul (ha : a.Fits V R) (hb : b.Fits V R) : (Smart.mul a b).Fits V R := Smart.everywhere_mul kept_allowed ha hb

theorem Fits.div (ha : a.Fits V R) (hb : b.Fits V R) : (Smart.div a b).Fits V R := Smart.everywhere_div kept_allowed ha hb

theorem Fits.select (hc : c.Fits V R) (ha : a.Fits V R) (hb : b.Fits V R) : (Smart.select c a b).Fits V R :=
  Smart.everywhere_select kept_allowed ha hb hc

theorem Fits.compare (op : Comparison) (ha : a.Fits V R) (hb : b.Fits V R) : (Smart.compare op a b).Fits V R :=
  Smart.everywhere_compare kept_allowed ha hb op

theorem fits_containsExpr (D : Domain) {args : List (Expr κ)} (h : ∀ a ∈ args, a.Fits V R) :
    (D.containsExpr args).Fits V R := by
  refine Smart.everywhere_all kept_allowed fun a mem => ?_
  rw [← List.map_uncurry_zip_eq_zipWith] at mem
  obtain ⟨⟨i, b⟩, pair, rfl⟩ := List.mem_map.mp mem
  have hb := h b (List.of_mem_zip pair).2
  exact Smart.everywhere_and kept_allowed (Fits.compare _ hb (fits_const _)) (Fits.compare _ hb (fits_const _))

/-! ### Derivatives -/

theorem fits_slope (op : UnaryOp) (h : a.Fits V R) : (op.slope a).Fits V R := by
  have unary (op : UnaryOp) : (Smart.unary op a).Fits V R := Smart.everywhere_unary kept_allowed h op
  cases op with
  | neg | floor => exact fits_const _
  | exp => exact unary .exp
  | log => exact .div (fits_const _) h
  | sin => exact unary .cos
  | cos => exact (unary .sin).neg
  | tanh => exact .sub (fits_const _) ((unary .tanh).mul (unary .tanh))
  | sqrt => exact .div (fits_const _) (unary .sqrt)
  | abs => exact .select (.compare _ h (fits_const _)) (fits_const _) (fits_const _)

theorem fits_slopes (op : BinaryOp) (ha : a.Fits V R) (hb : b.Fits V R) :
    (op.slopes a b).1.Fits V R ∧ (op.slopes a b).2.Fits V R := by
  have pow {x y : Expr κ} (hx : x.Fits V R) (hy : y.Fits V R) : (Smart.pow x y).Fits V R :=
    Smart.everywhere_pow kept_allowed hx hy
  have one : (Expr.one : Expr κ).Fits V R := fits_const _
  have zero : (Expr.zero : Expr κ).Fits V R := fits_const _
  cases op with
  | add => exact ⟨one, one⟩
  | sub => exact ⟨one, fits_const _⟩
  | mul => exact ⟨hb, ha⟩
  | div => exact ⟨one.div hb, ha.neg.div (hb.mul hb)⟩
  | min | max => exact ⟨.select (.compare _ ha hb) one zero, .select (.compare _ ha hb) zero one⟩
  | pow => exact ⟨hb.mul (pow ha (hb.sub one)), (pow ha hb).mul (Smart.everywhere_unary kept_allowed ha .log)⟩

end Smart

end Expr

/-- What is read and the slope fit. -/
structure Partial.Fits (V : Name → Prop) (R : Target → Nat → Prop) (p : Partial κ) : Prop where
  read : R p.read.target p.read.args.length
  args : ∀ a ∈ p.read.args, a.Fits V R
  slope : p.slope.Fits V R

namespace Expr

variable [Scalar κ] {V : Name → Prop} {R : Target → Nat → Prop} {e : Expr κ} {out : List (Partial κ)}

theorem fits_record {read : Read κ} {slope : Expr κ} (own : Partial.Fits V R ⟨read, slope⟩) (h : ∀ p ∈ out, p.Fits V R) :
    ∀ p ∈ Partial.record read slope out, p.Fits V R := by
  induction out with
  | nil => exact List.forall_mem_singleton.mpr own
  | cons q out ih =>
    obtain ⟨first, rest⟩ := List.forall_mem_cons.mp h
    unfold Partial.record
    split
    · exact List.forall_mem_cons.mpr ⟨⟨first.read, first.args, first.slope.add own.slope⟩, rest⟩
    · exact List.forall_mem_cons.mpr ⟨first, ih rest⟩

theorem fits_accumulate {adjoint : Expr κ} (own : e.Fits V R) (ha : adjoint.Fits V R) (h : ∀ p ∈ out, p.Fits V R) :
    ∀ p ∈ e.accumulate adjoint out, p.Fits V R := by
  induction e generalizing adjoint out with
  | const _ | var _ | rvar _ | compare _ _ _ | and _ _ | or _ _ | not _ =>
    unfold accumulate
    split <;> exact h
  | param p =>
    unfold accumulate
    split
    · exact h
    · exact fits_record ⟨fits_param.mp own, fun _ mem => absurd mem List.not_mem_nil, ha⟩ h
  | call f args =>
    rw [fits_call] at own
    unfold accumulate
    split
    · exact h
    · exact fits_record ⟨own.1, own.2, ha⟩ h
  | load b args =>
    rw [fits_load] at own
    unfold accumulate
    split
    · exact h
    · exact fits_record ⟨own.1, own.2, ha⟩ h
  | unary op a ih =>
    rw [fits_unary] at own
    unfold accumulate
    split
    · exact h
    · exact ih own (ha.mul (fits_slope op own)) h
  | binary op a b iha ihb =>
    rw [fits_binary] at own
    obtain ⟨left, right⟩ := fits_slopes op own.1 own.2
    unfold accumulate
    split
    · exact h
    · exact ihb own.2 (ha.mul right) (iha own.1 (ha.mul left) h)
  | select c t f _ iht ihf =>
    obtain ⟨hc, ht, hf⟩ := fits_select.mp own
    have zero : (Expr.zero : Expr κ).Fits V R := fits_const _
    unfold accumulate
    split
    · exact h
    · exact ihf hf (hc.simplify.select zero ha) (iht ht (hc.simplify.select ha zero) h)

theorem fits_partials (own : e.Fits V R) : ∀ p ∈ e.partials, p.Fits V R := by
  intro p mem
  exact fits_accumulate own (fits_const _) (fun _ none => absurd none List.not_mem_nil) p (List.mem_filter.mp mem).1

theorem fits_tangent {R' : Target → Nat → Prop} {direction : Read κ → Option (Expr κ)} (wider : ∀ t n, R t n → R' t n)
    (own : e.Fits V R)
    (moved : ∀ r d, R r.target r.args.length → (∀ a ∈ r.args, a.Fits V R') → direction r = some d → d.Fits V R') :
    (e.tangent direction).Fits V R' := by
  have zero : (Expr.zero : Expr κ).Fits V R' := fits_const _
  have wide {a : Expr κ} (fits : a.Fits V R) : a.Fits V R' := fits.mono (fun _ free => free) wider
  have read {r : Read κ} (arity : R r.target r.args.length) (args : ∀ a ∈ r.args, a.Fits V R) :
      ((direction r).getD .zero).Fits V R' := by
    cases found : direction r with
    | none => exact zero
    | some d => exact moved r d arity (fun a mem => wide (args a mem)) found
  induction e with
  | const _ | var _ | rvar _ | compare _ _ _ | and _ _ | or _ _ | not _ => exact zero
  | param p => exact read (r := ⟨.param p, []⟩) (fits_param.mp own) fun _ mem => absurd mem List.not_mem_nil
  | call f args => exact read (r := ⟨.func f, args⟩) (fits_call.mp own).1 (fits_call.mp own).2
  | load b args => exact read (r := ⟨.buffer b, args⟩) (fits_load.mp own).1 (fits_load.mp own).2
  | unary op a ih =>
    rw [fits_unary] at own
    exact (fits_slope op (wide own)).mul (ih own)
  | binary op a b iha ihb =>
    rw [fits_binary] at own
    obtain ⟨left, right⟩ := fits_slopes op (wide own.1) (wide own.2)
    exact (left.mul (iha own.1)).add (right.mul (ihb own.2))
  | select c t f ihc iht ihf =>
    obtain ⟨hc, ht, hf⟩ := fits_select.mp own
    exact (wide hc).simplify.select (iht ht) (ihf hf)

end Expr

end ArrayDiff
