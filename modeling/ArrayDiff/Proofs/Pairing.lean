import Mathlib.Tactic.Abel
import ArrayDiff.Expr.Derivative
import ArrayDiff.Proofs.Substitution

/-!
# Forwards and backwards

The entries of the backward rule, paired with directions for the reads, give the value of the forward rule along these
directions (`Expr.value_tangent`). Sums, products and signs have to be those of a ring; every other operator can be any
function, since both rules take its slopes from the same place.
-/

open ArrayDiff.Expr

namespace ArrayDiff

/-- Constants `κ` and values `α` without rounding: signs, sums and products are those of a ring. -/
class Precise (κ α : Type) [Scalar κ] [Ring α] [Scalar α] [Embed κ α] : Prop where
  embed_ofInt (k : Int) : (Embed.embed (Scalar.ofInt k : κ) : α) = k
  embed_neg (x : κ) : (Embed.embed (Scalar.neg x) : α) = -Embed.embed x
  embed_add (x y : κ) : (Embed.embed (Scalar.add x y) : α) = Embed.embed x + Embed.embed y
  embed_mul (x y : κ) : (Embed.embed (Scalar.mul x y) : α) = Embed.embed x * Embed.embed y
  neg (x : α) : Scalar.neg x = -x
  add (x y : α) : Scalar.add x y = x + y
  mul (x y : α) : Scalar.mul x y = x * y

namespace Expr

variable {κ : Type} [Scalar κ]

variable {α : Type} [Ring α] [Scalar α] [Embed κ α]

/-- The products of the entries with the directions of their reads, added up; reads without direction are left out. -/
def paired (ρ : Valuation α) (env : Env α) (direction : Read κ → Option (Expr κ)) (ps : List (Partial κ)) : α :=
  (ps.filterMap fun p => (direction p.read).map fun d => p.slope.value ρ env * d.value ρ env).sum

/-- The change of a read along its direction, 0 without one. -/
def change (ρ : Valuation α) (env : Env α) (direction : Read κ → Option (Expr κ)) (r : Read κ) : α :=
  ((direction r).getD .zero).value ρ env

/-- Whether a selection by `c` takes its second branch. -/
def declines (ρ : Valuation α) (env : Env α) (c : Expr κ) : Bool :=
  match c.const? with
  | some x => Scalar.isZero x
  | none => Scalar.isZero (c.value ρ env)

variable [LawfulEquality κ] [Precise κ α] {ρ : Valuation α} {env : Env α} {a b c t f e : Expr κ}

/-! ### Values of smart constructors -/

omit [LawfulEquality κ] in
theorem value_zero : (zero : Expr κ).value ρ env = 0 := (Precise.embed_ofInt 0).trans Int.cast_zero

omit [LawfulEquality κ] in
theorem value_one : (one : Expr κ).value ρ env = 1 := (Precise.embed_ofInt 1).trans Int.cast_one

theorem value_of_isZero (h : a.isZero = true) : a.value ρ env = 0 := by
  cases a with
  | const x =>
    obtain rfl : x = Scalar.zero := LawfulEquality.eq_of_equal h
    exact value_zero
  | _ => cases h

theorem value_of_isOne (h : a.isOne = true) : a.value ρ env = 1 := by
  cases a with
  | const x =>
    obtain rfl : x = Scalar.one := LawfulEquality.eq_of_equal h
    exact value_one
  | _ => cases h

theorem value_of_isMinusOne (h : Smart.isMinusOne a = true) : a.value ρ env = -1 := by
  cases a with
  | const x =>
    obtain rfl : x = Scalar.minusOne := LawfulEquality.eq_of_equal h
    exact (Precise.embed_ofInt (-1)).trans (by simp)
  | _ => cases h

end Expr

namespace Smart

variable {κ α : Type} [Scalar κ] [Ring α] [Scalar α] [Embed κ α] [LawfulEquality κ] [Precise κ α]
  {ρ : Valuation α} {env : Env α}

omit [LawfulEquality κ] in
theorem value_neg (a : Expr κ) : (neg a).value ρ env = -a.value ρ env := by
  have node (a : Expr κ) : (Expr.unary .neg a).value ρ env = -a.value ρ env := Precise.neg κ _
  unfold neg unary
  split
  · exact Precise.embed_neg _
  · rw [if_pos rfl, node, neg_neg]
  · exact node a

theorem value_add (a b : Expr κ) : (add a b).value ρ env = a.value ρ env + b.value ρ env := by
  unfold add
  split
  · rename_i foundA foundB
    rw [const?_eq_some foundA, const?_eq_some foundB]
    exact Precise.embed_add _ _
  split
  · rename_i zero
    rw [value_of_isZero zero, zero_add]
  split
  · rename_i zero
    rw [value_of_isZero zero, add_zero]
  · exact Precise.add κ _ _

theorem value_mul (a b : Expr κ) : (mul a b).value ρ env = a.value ρ env * b.value ρ env := by
  unfold mul
  split
  · rename_i foundA foundB
    rw [const?_eq_some foundA, const?_eq_some foundB]
    exact Precise.embed_mul _ _
  split
  · rename_i zero
    rcases (Bool.or_eq_true _ _).mp zero with zero | zero
    · rw [value_of_isZero zero, zero_mul, value_zero]
    · rw [value_of_isZero zero, mul_zero, value_zero]
  split
  · rename_i one
    rw [value_of_isOne one, one_mul]
  split
  · rename_i one
    rw [value_of_isOne one, mul_one]
  split
  · rename_i minusOne
    rw [value_of_isMinusOne minusOne, neg_one_mul, value_neg]
  split
  · rename_i minusOne
    rw [value_of_isMinusOne minusOne, mul_neg_one, value_neg]
  · exact Precise.mul κ _ _

omit [Ring α] [Precise κ α] in
theorem value_select (c t f : Expr κ) :
    (select c t f).value ρ env = if c.declines ρ env then f.value ρ env else t.value ρ env := by
  unfold select declines
  cases c.const? with
  | some x => exact apply_ite (value ρ env) _ _ _
  | none =>
    dsimp only
    split
    · rename_i same
      rw [eq_of_same same, ite_self]
    · exact Expr.value_select ρ env c t f

end Smart

/-! ### The two rules -/

namespace Expr

variable {κ α : Type} [Scalar κ] [Ring α] [Scalar α] [Embed κ α] [LawfulEquality κ] [Precise κ α]
  {ρ : Valuation α} {env : Env α} (direction : Read κ → Option (Expr κ))

omit [LawfulEquality κ] in
theorem paired_cons (p : Partial κ) (ps : List (Partial κ)) :
    paired ρ env direction (p :: ps) =
      p.slope.value ρ env * change ρ env direction p.read + paired ρ env direction ps := by
  unfold paired change
  cases found : direction p.read with
  | none => simp [found, value_zero]
  | some d => simp [found]

theorem paired_record (read : Read κ) (slope : Expr κ) (ps : List (Partial κ)) :
    paired ρ env direction (Partial.record read slope ps) =
      paired ρ env direction ps + slope.value ρ env * change ρ env direction read := by
  induction ps with
  | nil => rw [Partial.record, paired_cons, add_comm]
  | cons p ps ih =>
    unfold Partial.record
    split
    · rename_i same
      have reads := eq_read_of_same same
      rw [paired_cons, paired_cons, Smart.value_add, reads, add_mul]
      abel
    · rw [paired_cons, paired_cons, ih, add_assoc]

theorem paired_accumulate (e adjoint : Expr κ) (ps : List (Partial κ)) :
    paired ρ env direction (e.accumulate adjoint ps) =
      paired ρ env direction ps + adjoint.value ρ env * (e.tangent direction).value ρ env := by
  induction e generalizing adjoint ps with
  | const _ | var _ | rvar _ | compare _ _ _ _ _ | and _ _ _ _ | or _ _ _ _ | not _ _ =>
    simp [accumulate, tangent, value_zero]
  | param _ | call _ _ _ | load _ _ _ =>
    unfold accumulate
    split
    · rename_i zero
      rw [value_of_isZero zero, zero_mul, add_zero]
    · exact paired_record direction _ adjoint ps
  | unary op a ih =>
    unfold accumulate
    split
    · rename_i zero
      rw [value_of_isZero zero, zero_mul, add_zero]
    · rw [ih, tangent, Smart.value_mul, Smart.value_mul, mul_assoc]
  | binary op a b iha ihb =>
    unfold accumulate
    split
    · rename_i zero
      rw [value_of_isZero zero, zero_mul, add_zero]
    · dsimp only
      rw [ihb, iha, tangent, Smart.value_add]
      simp only [Smart.value_mul, mul_add, mul_assoc, add_assoc]
  | select c t f ihc iht ihf =>
    unfold accumulate
    split
    · rename_i zero
      rw [value_of_isZero zero, zero_mul, add_zero]
    · dsimp only
      rw [ihf, iht, tangent, Smart.value_select, Smart.value_select, Smart.value_select, value_zero]
      split <;> simp

theorem paired_filter (ps : List (Partial κ)) :
    paired ρ env direction (ps.filter fun p => !p.slope.isZero) = paired ρ env direction ps := by
  induction ps with
  | nil => rfl
  | cons p ps ih =>
    by_cases zero : p.slope.isZero = true
    · rw [List.filter_cons_of_neg (by simp [zero]), ih, paired_cons, value_of_isZero zero, zero_mul, zero_add]
    · rw [List.filter_cons_of_pos (by simp [zero]), paired_cons, paired_cons, ih]

/-- The forward rule and the backward rule agree: the derivative of `e` along directions for its reads is the sum of the
entries of its reads with a direction, each times its direction. -/
theorem value_tangent (e : Expr κ) (ρ : Valuation α) (env : Env α) (direction : Read κ → Option (Expr κ)) :
    (e.tangent direction).value ρ env =
      (e.partials.filterMap fun p => (direction p.read).map fun d => p.slope.value ρ env * d.value ρ env).sum := by
  have empty : paired ρ env direction [] = 0 := rfl
  have all : paired ρ env direction (e.accumulate .one []) = _ := paired_accumulate direction e .one []
  rw [empty, zero_add, value_one, one_mul] at all
  rw [← all]
  exact (paired_filter direction _).symm

end Expr

section Numbers

variable {K : Type} [Field K] [LinearOrder K] [FloorRing K] [Transcendental K]

instance : Embed K K := ⟨id⟩

instance : LawfulEquality K := ⟨of_decide_eq_true⟩

instance : Precise K K where
  embed_ofInt _ := rfl
  embed_neg _ := rfl
  embed_add _ _ := rfl
  embed_mul _ _ := rfl
  neg _ := rfl
  add _ _ := rfl
  mul _ _ := rfl

end Numbers

/-- `weight * weight + (if bias < 1 then |bias| else weight / bias)`. -/
def bending : Expr ℚ :=
  .binary .add (.binary .mul (.param ⟨0⟩) (.param ⟨0⟩))
    (.select (.compare .lt (.param ⟨1⟩) .one) (.unary .abs (.param ⟨1⟩)) (.binary .div (.param ⟨0⟩) (.param ⟨1⟩)))

/-- The weight moves along the bias, and the bias stays. -/
theorem bending.rules_agree :
    let ρ : Valuation ℚ := { call _ _ := 0, load _ _ := 0, param p := if p = ⟨0⟩ then 3 else 2 }
    let direction (r : Read ℚ) : Option (Expr ℚ) := if r.target = .param ⟨0⟩ then some (.param ⟨1⟩) else none
    (bending.tangent direction).value ρ {} = 13 ∧
      (bending.partials.filterMap fun p => (direction p.read).map fun d => p.slope.value ρ {} * d.value ρ {}).sum = 13 ∧
      bending.partials.length = 2 := by
  intro ρ direction
  have forward : (bending.tangent direction).value ρ {} = 13 := by decide +kernel
  have agree := bending.value_tangent ρ {} direction
  exact ⟨forward, agree.symm.trans forward, by decide +kernel⟩

end ArrayDiff
