import ArrayDiff.Expr.Derivative
import ArrayDiff.Proofs.Evaluation
import ArrayDiff.Proofs.Number

/-!
# Where derivatives can be evaluated

The backward rule multiplies what the operators of an expression contribute, and takes their operands out of the
branches of selections for that. So its entries can be evaluated where all these operands can, also those in branches
that are not taken (`Expr.computes_partials`). An expression without selections evaluates all of them itself
(`Expr.computes_partials_of_unguarded`); a read that a selection guards may lose its guard.
-/

open ArrayDiff.Expr

namespace ArrayDiff

variable {κ α : Type} [Scalar α] [Embed κ α] {P : Answers α} {env : Env α} {a b c t f e : Expr κ}

namespace Expr

/-- Evaluating `e` meets no error. -/
def Computes (P : Answers α) (env : Env α) (e : Expr κ) : Prop := (e.value? P env).isSome

instance : Decidable (e.Computes P env) := inferInstanceAs (Decidable (_ = true))

theorem Computes.const (k : κ) : (Expr.const k).Computes P env := rfl

theorem computes_unary {op : UnaryOp} : (unary op a).Computes P env ↔ a.Computes P env := by
  change ((a.value? P env).bind fun x => some (op.apply x)).isSome ↔ _
  unfold Computes
  cases a.value? P env <;> simp

theorem computes_binary {op : BinaryOp} : (binary op a b).Computes P env ↔ a.Computes P env ∧ b.Computes P env := by
  change ((a.value? P env).bind fun x => (b.value? P env).bind fun y => some (op.apply x y)).isSome ↔ _
  unfold Computes
  cases a.value? P env <;> cases b.value? P env <;> simp

theorem Computes.compare {op : Comparison} (ha : a.Computes P env) (hb : b.Computes P env) :
    (Expr.compare op a b).Computes P env := by
  obtain ⟨x, left⟩ := Option.isSome_iff_exists.mp ha
  obtain ⟨y, right⟩ := Option.isSome_iff_exists.mp hb
  change ((a.value? P env).bind fun x => (b.value? P env).bind fun y => some _).isSome
  rw [left, right]
  rfl

theorem Computes.select (hc : c.Computes P env) (ht : t.Computes P env) (hf : f.Computes P env) :
    (Expr.select c t f).Computes P env := by
  obtain ⟨x, condition⟩ := Option.isSome_iff_exists.mp hc
  change ((c.value? P env).bind fun x => if Scalar.isZero x then f.value? P env else t.value? P env).isSome
  rw [condition, Option.bind_some]
  split
  · exact hf
  · exact ht

end Expr

/-! ### Operators that fold -/

variable [Scalar κ]

namespace Smart

theorem computes_unary (ha : a.Computes P env) (op : UnaryOp) : (unary op a).Computes P env := by
  unfold unary
  split
  · exact .const _
  · split
    · exact Expr.computes_unary.mp ha
    · exact Expr.computes_unary.mpr ha
  · exact Expr.computes_unary.mpr ha

section Binary

variable (ha : a.Computes P env) (hb : b.Computes P env)
include ha hb

theorem computes_add : (add a b).Computes P env := by
  unfold add
  repeat' split
  all_goals first | exact .const _ | exact ha | exact hb | exact computes_binary.mpr ⟨ha, hb⟩

theorem computes_sub : (sub a b).Computes P env := by
  unfold sub
  repeat' split
  all_goals first | exact .const _ | exact ha | exact computes_unary hb .neg | exact computes_binary.mpr ⟨ha, hb⟩

theorem computes_mul : (mul a b).Computes P env := by
  unfold mul
  repeat' split
  all_goals
    first
    | exact .const _ | exact ha | exact hb | exact computes_unary ha .neg | exact computes_unary hb .neg
    | exact computes_binary.mpr ⟨ha, hb⟩

theorem computes_div : (div a b).Computes P env := by
  unfold div divOpen
  repeat' split
  all_goals first | exact .const _ | exact ha | exact computes_binary.mpr ⟨ha, hb⟩

theorem computes_pow : (pow a b).Computes P env := by
  unfold pow
  repeat' split
  all_goals first | exact .const _ | exact ha | exact computes_binary.mpr ⟨ha, hb⟩

theorem computes_compare (op : Comparison) : (compare op a b).Computes P env := by
  unfold compare
  split
  · exact .const _
  · exact .compare ha hb

theorem computes_select (hc : c.Computes P env) : (select c a b).Computes P env := by
  unfold select
  split
  · split
    · exact hb
    · exact ha
  · split
    · exact ha
    · exact .select hc ha hb

end Binary

end Smart

/-! ### Slopes -/

theorem UnaryOp.computes_slope (op : UnaryOp) (ha : a.Computes P env) : (op.slope a).Computes P env := by
  have one : (Expr.one : Expr κ).Computes P env := .const _
  cases op with
  | neg | floor => exact .const _
  | exp => exact Smart.computes_unary ha .exp
  | log => exact Smart.computes_div one ha
  | sin => exact Smart.computes_unary ha .cos
  | cos => exact Smart.computes_unary (Smart.computes_unary ha .sin) .neg
  | tanh =>
    have tanh := Smart.computes_unary ha .tanh
    exact Smart.computes_sub one (Smart.computes_mul tanh tanh)
  | sqrt => exact Smart.computes_div (.const _) (Smart.computes_unary ha .sqrt)
  | abs => exact Smart.computes_select one (.const _) (Smart.computes_compare ha (.const _) .ge)

theorem BinaryOp.computes_slopes (op : BinaryOp) (ha : a.Computes P env) (hb : b.Computes P env) :
    (op.slopes a b).1.Computes P env ∧ (op.slopes a b).2.Computes P env := by
  have zero : (Expr.zero : Expr κ).Computes P env := .const _
  have one : (Expr.one : Expr κ).Computes P env := .const _
  cases op with
  | add | sub => exact ⟨one, .const _⟩
  | mul => exact ⟨hb, ha⟩
  | div =>
    exact ⟨Smart.computes_div one hb, Smart.computes_div (Smart.computes_unary ha .neg) (Smart.computes_mul hb hb)⟩
  | min =>
    have left := Smart.computes_compare ha hb .le
    exact ⟨Smart.computes_select one zero left, Smart.computes_select zero one left⟩
  | max =>
    have left := Smart.computes_compare ha hb .ge
    exact ⟨Smart.computes_select one zero left, Smart.computes_select zero one left⟩
  | pow =>
    exact ⟨Smart.computes_mul hb (Smart.computes_pow ha (Smart.computes_sub hb one)),
      Smart.computes_mul (Smart.computes_pow ha hb) (Smart.computes_unary ha .log)⟩

/-! ### Entries -/

namespace Expr

/-- Every slope in `out` can be evaluated. -/
def SlopesCompute (P : Answers α) (env : Env α) (out : List (Partial κ)) : Prop :=
  ∀ p ∈ out, p.slope.Computes P env

theorem SlopesCompute.record {out : List (Partial κ)} (h : SlopesCompute P env out) (read : Read κ)
    (hb : b.Computes P env) : SlopesCompute P env (Partial.record read b out) := by
  induction out with
  | nil => exact List.forall_mem_singleton.mpr hb
  | cons p ps ih =>
    obtain ⟨first, rest⟩ := List.forall_mem_cons.mp h
    unfold Partial.record
    split
    · exact List.forall_mem_cons.mpr ⟨Smart.computes_add first hb, rest⟩
    · exact List.forall_mem_cons.mpr ⟨first, ih rest⟩

/-- The operands whose derivatives are taken can be evaluated, in both branches of a selection, and so can conditions as
they are simplified. -/
def OperandsCompute (P : Answers α) (env : Env α) : Expr κ → Prop
  | unary _ a => a.Computes P env ∧ a.OperandsCompute P env
  | binary _ a b => (a.Computes P env ∧ b.Computes P env) ∧ a.OperandsCompute P env ∧ b.OperandsCompute P env
  | select c t f => c.simplify.Computes P env ∧ t.OperandsCompute P env ∧ f.OperandsCompute P env
  | _ => True

theorem computes_accumulate (operands : e.OperandsCompute P env) {adjoint : Expr κ} {out : List (Partial κ)}
    (ha : adjoint.Computes P env) (h : SlopesCompute P env out) : SlopesCompute P env (e.accumulate adjoint out) := by
  induction e generalizing adjoint out with
  | const _ | var _ | rvar _ | compare _ _ _ | and _ _ | or _ _ | not _ =>
    unfold accumulate
    split <;> exact h
  | param _ | call _ _ | load _ _ =>
    unfold accumulate
    split
    · exact h
    · exact h.record _ ha
  | unary op a ih =>
    unfold accumulate
    split
    · exact h
    · exact ih operands.2 (Smart.computes_mul ha (op.computes_slope operands.1)) h
  | binary op a b iha ihb =>
    obtain ⟨⟨ca, cb⟩, inA, inB⟩ := operands
    obtain ⟨left, right⟩ := op.computes_slopes ca cb
    unfold accumulate
    split
    · exact h
    · exact ihb inB (Smart.computes_mul ha right) (iha inA (Smart.computes_mul ha left) h)
  | select c t f _ iht ihf =>
    obtain ⟨condition, inT, inF⟩ := operands
    have zero : (Expr.zero : Expr κ).Computes P env := .const _
    unfold accumulate
    split
    · exact h
    · exact ihf inF (Smart.computes_select zero ha condition)
        (iht inT (Smart.computes_select ha zero condition) h)

theorem computes_partials (operands : e.OperandsCompute P env) {p : Partial κ} (mem : p ∈ e.partials) :
    p.slope.Computes P env :=
  computes_accumulate operands (.const _) (fun _ none => absurd none List.not_mem_nil) p (List.mem_filter.mp mem).1

theorem operandsCompute_of_unguarded (unguarded : ∀ c t f, select c t f ∉ e.nodes)
    (he : e.Computes P env) : e.OperandsCompute P env := by
  induction e with
  | unary op a ih =>
    have ha := computes_unary.mp he
    exact ⟨ha, ih (fun c t f mem => unguarded c t f (List.mem_cons_of_mem _ mem)) ha⟩
  | binary op a b iha ihb =>
    obtain ⟨ha, hb⟩ := computes_binary.mp he
    exact ⟨⟨ha, hb⟩,
      iha (fun c t f mem => unguarded c t f (List.mem_cons_of_mem _ (List.mem_append_left _ mem))) ha,
      ihb (fun c t f mem => unguarded c t f (List.mem_cons_of_mem _ (List.mem_append_right _ mem))) hb⟩
  | select c t f => exact absurd (mem_nodes_self _) (unguarded c t f)
  | _ => trivial

/-- Without selections the derivatives can be evaluated where the expression can. -/
theorem computes_partials_of_unguarded (unguarded : ∀ c t f, select c t f ∉ e.nodes) (he : e.Computes P env)
    {p : Partial κ} (mem : p ∈ e.partials) : p.slope.Computes P env :=
  computes_partials (operandsCompute_of_unguarded unguarded he) mem

-- Where `b(x)` does not exist, the guarded square is 0, but the slope multiplies by `b(x)`.
example :
    let read : Expr (Exact ℚ) := .load ⟨0⟩ [.var "x"]
    let square : Expr (Exact ℚ) := .select (.compare .lt (.var "x") (.ofInt 3)) (.binary .mul read read) .zero
    let nothing : Answers ℚ := ⟨fun _ _ => none, fun _ _ => none, fun _ => none⟩
    let env : Env ℚ := ⟨[("x", 3)], []⟩
    square.Computes nothing env ∧ ¬∀ p ∈ square.partials, p.slope.Computes nothing env := by
  decide +kernel

end Expr

end ArrayDiff
