import ArrayDiff.Proofs.Nodes
import ArrayDiff.Proofs.Simplification

/-!
# Substitution in simplified expressions

Whether an expression is simplified before its variables are replaced makes no difference once the result is simplified
(`simplify_bind`). This rests on the identities of the smart constructors for 0, 1 and -1, and on the fact that no sign
in a simplified expression stands before a number or before another sign.
-/

open ArrayDiff.Expr

namespace ArrayDiff

/-! ### Identities -/

variable {K : Type} [Field K] [LinearOrder K] [FloorRing K] [Transcendental K]

namespace Expr

variable {ρ : Valuation K} {env : Env K} {Q : Atom → Prop} {a b : Expr (Exact K)} {x y : K}

theorem Represents.eq_const {k : Exact K} (h : a.Represents ρ env Q x) (found : a.const? = some k) :
    a = const (.number x) := by
  rw [const?_eq_some found, h.const? found]

theorem Represents.eq_zero (h : a.Represents ρ env Q x) (zero : a.isZero = true) : a = const (.number 0) := by
  cases a with
  | const k => rw [h.eq_const rfl, h.of_isZero zero]
  | _ => simp [isZero] at zero

theorem Represents.eq_one (h : a.Represents ρ env Q x) (one : a.isOne = true) : a = const (.number 1) := by
  cases a with
  | const k => rw [h.eq_const rfl, h.of_isOne one]
  | _ => simp [isOne] at one

end Expr

namespace Smart

variable {ρ : Valuation K} {env : Env K} {Q : Atom → Prop} {a b c : Expr (Exact K)} {x y : K}

theorem eq_minusOne (h : a.Represents ρ env Q x) (minusOne : isMinusOne a = true) : a = const (.number (-1)) := by
  cases a with
  | const k => rw [h.eq_const rfl, of_isMinusOne h minusOne]
  | _ => simp [isMinusOne] at minusOne

theorem add_zeroLeft (h : b.Represents ρ env Q y) : add (const (.number 0)) b = b := by
  cases b with
  | const k => rw [h.eq_const rfl]; simp [add, Expr.const?, Scalar.add, Exact.add]
  | _ => simp [add, Expr.const?, Expr.isZero]

theorem add_zeroRight (h : a.Represents ρ env Q x) : add a (const (.number 0)) = a := by
  cases a with
  | const k => rw [h.eq_const rfl]; simp [add, Expr.const?, Scalar.add, Exact.add]
  | _ => simp [add, Expr.const?, Expr.isZero]

theorem sub_zeroRight (h : a.Represents ρ env Q x) : sub a (const (.number 0)) = a := by
  cases a with
  | const k => rw [h.eq_const rfl]; simp [sub, Expr.const?, Scalar.sub, Exact.add, Exact.neg, Exact.map]
  | _ => simp [sub, Expr.const?, Expr.isZero]

theorem sub_zeroLeft (h : b.Represents ρ env Q y) : sub (const (.number 0)) b = neg b := by
  cases b with
  | const k =>
    rw [h.eq_const rfl]
    simp [sub, neg, unary, Expr.const?, Scalar.sub, UnaryOp.apply, Scalar.neg, Exact.add, Exact.neg, Exact.map]
  | _ => simp [sub, Expr.const?, Expr.isZero]

theorem mul_zeroLeft (h : b.Represents ρ env Q y) : mul (const (.number 0)) b = Expr.zero := by
  cases b with
  | const k => rw [h.eq_const rfl]; simp [mul, Expr.const?, Scalar.mul, Exact.mul, Expr.zero]
  | _ => simp [mul, Expr.const?, Expr.isZero]

theorem mul_zeroRight (h : a.Represents ρ env Q x) : mul a (const (.number 0)) = Expr.zero := by
  cases a with
  | const k => rw [h.eq_const rfl]; simp [mul, Expr.const?, Scalar.mul, Exact.mul, Expr.zero]
  | _ => simp [mul, Expr.const?, Expr.isZero]

theorem mul_oneLeft (h : b.Represents ρ env Q y) : mul (const (.number 1)) b = b := by
  cases b with
  | const k => rw [h.eq_const rfl]; simp [mul, Expr.const?, Scalar.mul, Exact.mul]
  | _ => simp [mul, Expr.const?, Expr.isZero, Expr.isOne]

theorem mul_oneRight (h : a.Represents ρ env Q x) : mul a (const (.number 1)) = a := by
  cases a with
  | const k => rw [h.eq_const rfl]; simp [mul, Expr.const?, Scalar.mul, Exact.mul]
  | _ => simp [mul, Expr.const?, Expr.isZero, Expr.isOne]

variable [IsStrictOrderedRing K] in
omit [Transcendental K] in
theorem minusOne_ne_one : (-1 : K) ≠ 1 := (neg_lt_self zero_lt_one).ne

variable [IsStrictOrderedRing K] in
theorem mul_minusOneLeft (h : b.Represents ρ env Q y) : mul (const (.number (-1))) b = neg b := by
  cases b with
  | const k =>
    rw [h.eq_const rfl]
    simp [mul, neg, unary, Expr.const?, Scalar.mul, UnaryOp.apply, Scalar.neg, Exact.mul, Exact.neg, Exact.map]
  | _ => simp [mul, Expr.const?, Expr.isZero, Expr.isOne, isMinusOne, Scalar.equal, Exact.equal, minusOne_ne_one]

variable [IsStrictOrderedRing K] in
theorem mul_minusOneRight (h : a.Represents ρ env Q x) : mul a (const (.number (-1))) = neg a := by
  cases a with
  | const k =>
    rw [h.eq_const rfl]
    simp [mul, neg, unary, Expr.const?, Scalar.mul, UnaryOp.apply, Scalar.neg, Exact.mul, Exact.neg, Exact.map]
  | _ => simp [mul, Expr.const?, Expr.isZero, Expr.isOne, isMinusOne, Scalar.equal, Exact.equal, minusOne_ne_one]

theorem div_zeroLeft (h : b.Represents ρ env Q y) : div (const (.number 0)) b = Expr.zero := by
  cases b with
  | const k => rw [h.eq_const rfl]; simp [div, divOpen, Expr.const?, Expr.isZero, Scalar.div, Exact.div, Expr.zero]
  | _ => simp [div, divOpen, Expr.const?, Expr.isZero]

theorem div_oneRight (h : a.Represents ρ env Q x) : div a (const (.number 1)) = a := by
  cases a with
  | const k => rw [h.eq_const rfl]; simp [div, Expr.const?, Scalar.div, Exact.div]
  | _ => simp [div, divOpen, Expr.const?, Expr.isZero, Expr.isOne]

theorem pow_oneRight (h : a.Represents ρ env Q x) : pow a (const (.number 1)) = a := by
  cases a with
  | const k => rw [h.eq_const rfl]; simp [pow, Expr.const?, Scalar.pow, Exact.pow, Transcendental.pow_one]
  | _ => simp [pow, Expr.const?, Expr.isOne]

theorem pow_zeroRight (h : a.Represents ρ env Q x) : pow a (const (.number 0)) = Expr.one := by
  cases a with
  | const k => rw [h.eq_const rfl]; simp [pow, Expr.const?, Scalar.pow, Exact.pow, Transcendental.pow_zero, Expr.one]
  | _ => simp [pow, Expr.const?, Expr.isOne, Expr.isZero]

theorem and_zeroLeft (b : Expr (Exact K)) : and (const (.number 0)) b = Expr.zero := by simp [and, Expr.isZero]

theorem and_zeroRight (a : Expr (Exact K)) : and a (const (.number 0)) = Expr.zero := by simp [and, Expr.isZero]

theorem or_oneLeft (b : Expr (Exact K)) : or (const (.number 1)) b = Expr.one := by simp [or, isTrue, Expr.const?]

theorem or_oneRight (a : Expr (Exact K)) : or a (const (.number 1)) = Expr.one := by simp [or, isTrue, Expr.const?]

theorem eq_one_of_isTrue (h : a.Represents ρ env Q x) (truth : IsTruth x) (holds : isTrue a = true) :
    a = const (.number 1) := by
  cases a with
  | const k => rw [h.eq_const rfl, truth.resolve_left (of_isTrue h holds)]
  | _ => simp [isTrue, Expr.const?] at holds

theorem and_oneLeft (h : b.Represents ρ env Q y) : and (const (.number 1)) b = b := by
  have notZero : (const (.number 1) : Expr (Exact K)).isZero = false := by simp [Expr.isZero]
  unfold and
  rw [notZero, Bool.false_or]
  split
  · rename_i zero
    rw [h.eq_zero zero]
    simp [Expr.zero]
  · exact if_pos (by simp [isTrue, Expr.const?])

theorem and_oneRight (h : a.Represents ρ env Q x) (truth : IsTruth x) : and a (const (.number 1)) = a := by
  have notZero : (const (.number 1) : Expr (Exact K)).isZero = false := by simp [Expr.isZero]
  unfold and
  rw [notZero, Bool.or_false]
  split
  · rename_i zero
    rw [h.eq_zero zero]
    simp [Expr.zero]
  split
  · rename_i holds
    exact (eq_one_of_isTrue h truth holds).symm
  · exact if_pos (by simp [isTrue, Expr.const?])

theorem or_zeroLeft (h : b.Represents ρ env Q y) (truth : IsTruth y) : or (const (.number 0)) b = b := by
  have notTrue : isTrue (const (.number 0) : Expr (Exact K)) = false := by simp [isTrue, Expr.const?]
  unfold or
  rw [notTrue, Bool.false_or]
  split
  · rename_i holds
    rw [eq_one_of_isTrue h truth holds]
    simp [Expr.one]
  · exact if_pos (by simp [Expr.isZero])

theorem or_zeroRight (h : a.Represents ρ env Q x) (truth : IsTruth x) : or a (const (.number 0)) = a := by
  have notTrue : isTrue (const (.number 0) : Expr (Exact K)) = false := by simp [isTrue, Expr.const?]
  unfold or
  rw [notTrue, Bool.or_false]
  split
  · rename_i holds
    rw [eq_one_of_isTrue h truth holds]
    simp [Expr.one]
  split
  · rename_i zero
    exact (h.eq_zero zero).symm
  · exact if_pos (by simp [Expr.isZero])

theorem neg_negated (h : a.Represents ρ env Q x) (short : a.ShortSigns) : neg (neg a) = a := by
  unfold neg
  cases a with
  | const k => rw [h.eq_const rfl]; simp [unary, UnaryOp.apply, Scalar.neg, Exact.neg, Exact.map]
  | unary op b =>
    cases op with
    | neg =>
      obtain ⟨noConst, noSign⟩ := short b (mem_nodes_self _)
      cases b with
      | const k => cases noConst
      | unary op c =>
        cases op with
        | neg => exact absurd rfl (noSign c)
        | _ => simp [unary]
      | _ => simp [unary]
    | _ => simp [unary]
  | _ => simp [unary]

end Smart

/-! ### Sameness -/

/-- Constants that compare as equal are equal. -/
class LawfulEquality (κ : Type) [Scalar κ] : Prop where
  eq_of_equal {x y : κ} : Scalar.equal x y = true → x = y

instance : LawfulEquality (Exact K) where
  eq_of_equal := by
    intro x y h
    cases x <;> cases y <;> simp_all [Scalar.equal, Exact.equal]

namespace Expr

section Equality

variable {κ : Type} [Scalar κ] [LawfulEquality κ]

omit [LawfulEquality κ] in
theorem eq_of_sameList {as bs : List (Expr κ)} (ih : ∀ a ∈ as, ∀ b, a.same b = true → a = b)
    (h : sameList as bs = true) : as = bs := by
  induction as generalizing bs with
  | nil => cases bs <;> simp_all [sameList]
  | cons a as rest =>
    cases bs with
    | nil => simp [sameList] at h
    | cons b bs =>
      simp only [sameList, Bool.and_eq_true] at h
      rw [ih a List.mem_cons_self b h.1, rest (fun a mem => ih a (List.mem_cons_of_mem _ mem)) h.2]

theorem eq_of_same {a b : Expr κ} (h : a.same b = true) : a = b := by
  induction a generalizing b with
  | const k =>
    cases b <;> simp only [same, Bool.false_eq_true] at h
    rw [LawfulEquality.eq_of_equal h]
  | var x | rvar x | param x => cases b <;> simp_all [same]
  | call f as ih | load f as ih =>
    cases b <;> simp only [same, Bool.and_eq_true, beq_iff_eq, Bool.false_eq_true] at h
    rw [h.1, eq_of_sameList (fun a mem b => ih a mem) h.2]
  | unary op a ih =>
    cases b <;> simp only [same, Bool.and_eq_true, beq_iff_eq, Bool.false_eq_true] at h
    rw [h.1, ih h.2]
  | not a ih =>
    cases b <;> simp only [same, Bool.false_eq_true] at h
    rw [ih h]
  | binary op a a' iha iha' | compare op a a' iha iha' =>
    cases b <;> simp only [same, Bool.and_eq_true, beq_iff_eq, Bool.false_eq_true] at h
    rw [h.1.1, iha h.1.2, iha' h.2]
  | and a a' iha iha' | or a a' iha iha' =>
    cases b <;> simp only [same, Bool.and_eq_true, Bool.false_eq_true] at h
    rw [iha h.1, iha' h.2]
  | select c t f ihc iht ihf =>
    cases b <;> simp only [same, Bool.and_eq_true, Bool.false_eq_true] at h
    rw [ihc h.1.1, iht h.1.2, ihf h.2]

theorem eq_args_of_sameList {as bs : List (Expr κ)} (h : sameList as bs = true) : as = bs :=
  eq_of_sameList (fun _ _ _ same => eq_of_same same) h

theorem eq_read_of_same {r s : Read κ} (h : r.same s = true) : r = s := by
  obtain ⟨target, args⟩ := r
  obtain ⟨target', args'⟩ := s
  obtain ⟨targets, same⟩ := (Bool.and_eq_true _ _).mp h
  exact congrArg₂ Read.mk (of_decide_eq_true targets) (eq_args_of_sameList same)

end Equality

variable {ρ : Valuation K} {env : Env K} {Q : Atom → Prop}

theorem sameList_self {as : List (Expr (Exact K))} (h : ∀ a ∈ as, a.same a = true) : sameList as as = true := by
  induction as with
  | nil => rfl
  | cons a as ih =>
    simp only [sameList, Bool.and_eq_true]
    exact ⟨h a List.mem_cons_self, ih fun b mem => h b (List.mem_cons_of_mem _ mem)⟩

theorem same_self {a : Expr (Exact K)} (plain : a.Plain ρ env Q) : a.same a = true := by
  induction a with
  | const k =>
    cases k with
    | number x => simp [same, Scalar.equal, Exact.equal]
    | _ => simp [Exact.isNumber] at plain
  | var x | rvar x | param x => simp [same]
  | call f as ih | load f as ih =>
    simp only [plain_call, plain_load] at plain
    simpa [same] using sameList_self fun a mem => ih a mem (plain.2 a mem)
  | unary op a ih | not a ih =>
    simp only [plain_unary, plain_not] at plain
    simp [same, ih plain]
  | binary op a b iha ihb | compare op a b iha ihb =>
    simp only [plain_binary, plain_compare] at plain
    simp [same, iha plain.1, ihb plain.2]
  | and a b iha ihb | or a b iha ihb =>
    simp only [plain_and, plain_or] at plain
    simp [same, iha plain.2.1, ihb plain.2.2]
  | select c t f ihc iht ihf =>
    simp only [plain_select] at plain
    simp [same, ihc plain.1, iht plain.2.1, ihf plain.2.2]

end Expr

theorem Smart.select_self {ρ : Valuation K} {env : Env K} {Q : Atom → Prop} {b : Expr (Exact K)} {y : K}
    (c : Expr (Exact K)) (h : b.Represents ρ env Q y) : select c b b = b := by
  unfold select
  split
  · split <;> rfl
  · exact if_pos (same_self h.plain)

/-! ### Replacing variables -/

/-- The simplified expression with variables replaced. -/
def Expr.instantiated {κ : Type} [Scalar κ] (σ τ : Name → Option (Expr κ)) (e : Expr κ) : Expr κ :=
  (e.bind σ τ).simplify

namespace Smart

variable {ρ : Valuation K} {env env' : Env K} {Q Q' : Atom → Prop} {σ τ : Name → Option (Expr (Exact K))}
  {a b c : Expr (Exact K)}
  (kept : ∀ e : Expr (Exact K), e.Plain ρ env Q → (e.instantiated σ τ).Represents ρ env' Q' (e.value ρ env))

include kept

theorem instantiated_unary (op : UnaryOp) (ha : a.Plain ρ env Q) :
    (unary op a).instantiated σ τ = unary op (a.instantiated σ τ) := by
  cases a with
  | const k => rfl
  | unary op' b =>
    by_cases signs : op = .neg ∧ op' = .neg
    · obtain ⟨rfl, rfl⟩ := signs
      exact (neg_negated (kept b (by simpa using ha)) (shortSigns_simplify _)).symm
    · cases op' with
      | neg =>
        have other : op ≠ .neg := fun same => signs ⟨same, rfl⟩
        conv_lhs => simp only [unary, if_neg other]
        rfl
      | _ => rfl
  | _ => rfl

theorem instantiated_add (ha : a.Plain ρ env Q) (hb : b.Plain ρ env Q) :
    (add a b).instantiated σ τ = add (a.instantiated σ τ) (b.instantiated σ τ) := by
  conv_lhs => unfold add
  split
  · rename_i foundA foundB
    rw [const?_eq_some foundA, const?_eq_some foundB]
    rfl
  split
  · rename_i zero
    rw [(Represents.of_plain ha).eq_zero zero]
    exact (add_zeroLeft (kept b hb)).symm
  split
  · rename_i zero
    rw [(Represents.of_plain hb).eq_zero zero]
    exact (add_zeroRight (kept a ha)).symm
  rfl

theorem instantiated_sub (ha : a.Plain ρ env Q) (hb : b.Plain ρ env Q) :
    (sub a b).instantiated σ τ = sub (a.instantiated σ τ) (b.instantiated σ τ) := by
  conv_lhs => unfold sub
  split
  · rename_i foundA foundB
    rw [const?_eq_some foundA, const?_eq_some foundB]
    rfl
  split
  · rename_i zero
    rw [(Represents.of_plain hb).eq_zero zero]
    exact (sub_zeroRight (kept a ha)).symm
  split
  · rename_i zero
    rw [(Represents.of_plain ha).eq_zero zero]
    exact (instantiated_unary kept .neg hb).trans (sub_zeroLeft (kept b hb)).symm
  rfl

variable [IsStrictOrderedRing K] in
theorem instantiated_mul (ha : a.Plain ρ env Q) (hb : b.Plain ρ env Q) :
    (mul a b).instantiated σ τ = mul (a.instantiated σ τ) (b.instantiated σ τ) := by
  have left := Represents.of_plain ha
  have right := Represents.of_plain hb
  conv_lhs => unfold mul
  split
  · rename_i foundA foundB
    rw [const?_eq_some foundA, const?_eq_some foundB]
    rfl
  split
  · rename_i zero
    rcases (Bool.or_eq_true _ _).mp zero with zero | zero
    · rw [left.eq_zero zero]
      exact (mul_zeroLeft (kept b hb)).symm
    · rw [right.eq_zero zero]
      exact (mul_zeroRight (kept a ha)).symm
  split
  · rename_i one
    rw [left.eq_one one]
    exact (mul_oneLeft (kept b hb)).symm
  split
  · rename_i one
    rw [right.eq_one one]
    exact (mul_oneRight (kept a ha)).symm
  split
  · rename_i minusOne
    rw [eq_minusOne left minusOne]
    exact (instantiated_unary kept .neg hb).trans (mul_minusOneLeft (kept b hb)).symm
  split
  · rename_i minusOne
    rw [eq_minusOne right minusOne]
    exact (instantiated_unary kept .neg ha).trans (mul_minusOneRight (kept a ha)).symm
  rfl

theorem instantiated_divOpen (ha : a.Plain ρ env Q) (hb : b.Plain ρ env Q) :
    (divOpen a b).instantiated σ τ = div (a.instantiated σ τ) (b.instantiated σ τ) := by
  conv_lhs => unfold divOpen
  split
  · rename_i zero
    rw [(Represents.of_plain ha).eq_zero zero]
    exact (div_zeroLeft (kept b hb)).symm
  split
  · rename_i one
    rw [(Represents.of_plain hb).eq_one one]
    exact (div_oneRight (kept a ha)).symm
  rfl

theorem instantiated_div (ha : a.Plain ρ env Q) (hb : b.Plain ρ env Q) :
    (div a b).instantiated σ τ = div (a.instantiated σ τ) (b.instantiated σ τ) := by
  conv_lhs => unfold div
  split
  · rename_i foundA foundB
    split
    · exact instantiated_divOpen kept ha hb
    · rename_i nonzero
      rw [const?_eq_some foundA, const?_eq_some foundB]
      exact (if_neg nonzero).symm
  · exact instantiated_divOpen kept ha hb

theorem instantiated_pow (ha : a.Plain ρ env Q) (hb : b.Plain ρ env Q) :
    (pow a b).instantiated σ τ = pow (a.instantiated σ τ) (b.instantiated σ τ) := by
  conv_lhs => unfold pow
  split
  · rename_i foundA foundB
    rw [const?_eq_some foundA, const?_eq_some foundB]
    rfl
  split
  · rename_i one
    rw [(Represents.of_plain hb).eq_one one]
    exact (pow_oneRight (kept a ha)).symm
  split
  · rename_i zero
    rw [(Represents.of_plain hb).eq_zero zero]
    exact (pow_zeroRight (kept a ha)).symm
  rfl

omit kept in
theorem instantiated_foldOnly (op : BinaryOp) (other : binary (κ := Exact K) op = foldOnly op) :
    (foldOnly op a b).instantiated σ τ = foldOnly op (a.instantiated σ τ) (b.instantiated σ τ) := by
  conv_lhs => unfold foldOnly
  split
  · rename_i foundA foundB
    rw [const?_eq_some foundA, const?_eq_some foundB]
    rfl
  · rw [← other]
    rfl

omit kept in
theorem instantiated_compare (op : Comparison) :
    (compare op a b).instantiated σ τ = compare op (a.instantiated σ τ) (b.instantiated σ τ) := by
  conv_lhs => unfold compare
  split
  · rename_i foundA foundB
    rw [const?_eq_some foundA, const?_eq_some foundB]
    rfl
  · rfl

omit kept in
theorem instantiated_not : (not a).instantiated σ τ = not (a.instantiated σ τ) := by
  conv_lhs => unfold not
  split
  · rename_i found
    rw [const?_eq_some found]
    rfl
  · rfl

variable [IsStrictOrderedRing K] in
theorem instantiated_binary (op : BinaryOp) (ha : a.Plain ρ env Q) (hb : b.Plain ρ env Q) :
    (binary op a b).instantiated σ τ = binary op (a.instantiated σ τ) (b.instantiated σ τ) := by
  cases op with
  | add => exact instantiated_add kept ha hb
  | sub => exact instantiated_sub kept ha hb
  | mul => exact instantiated_mul kept ha hb
  | div => exact instantiated_div kept ha hb
  | pow => exact instantiated_pow kept ha hb
  | min => exact instantiated_foldOnly .min rfl
  | max => exact instantiated_foldOnly .max rfl

theorem instantiated_and (ha : a.Plain ρ env Q) (hb : b.Plain ρ env Q) (ta : IsTruth (a.value ρ env))
    (tb : IsTruth (b.value ρ env)) : (and a b).instantiated σ τ = and (a.instantiated σ τ) (b.instantiated σ τ) := by
  have left := Represents.of_plain ha
  have right := Represents.of_plain hb
  conv_lhs => unfold and
  split
  · rename_i zero
    rcases (Bool.or_eq_true _ _).mp zero with zero | zero
    · rw [left.eq_zero zero]
      exact (and_zeroLeft _).symm
    · rw [right.eq_zero zero]
      exact (and_zeroRight _).symm
  split
  · rename_i holds
    rw [eq_one_of_isTrue left ta holds]
    exact (and_oneLeft (kept b hb)).symm
  split
  · rename_i holds
    rw [eq_one_of_isTrue right tb holds]
    exact (and_oneRight (kept a ha) ta).symm
  rfl

theorem instantiated_or (ha : a.Plain ρ env Q) (hb : b.Plain ρ env Q) (ta : IsTruth (a.value ρ env))
    (tb : IsTruth (b.value ρ env)) : (or a b).instantiated σ τ = or (a.instantiated σ τ) (b.instantiated σ τ) := by
  have left := Represents.of_plain ha
  have right := Represents.of_plain hb
  conv_lhs => unfold or
  split
  · rename_i holds
    rcases (Bool.or_eq_true _ _).mp holds with holds | holds
    · rw [eq_one_of_isTrue left ta holds]
      exact (or_oneLeft _).symm
    · rw [eq_one_of_isTrue right tb holds]
      exact (or_oneRight _).symm
  split
  · rename_i zero
    rw [left.eq_zero zero]
    exact (or_zeroLeft (kept b hb) tb).symm
  split
  · rename_i zero
    rw [right.eq_zero zero]
    exact (or_zeroRight (kept a ha) ta).symm
  rfl

theorem instantiated_select (hb : b.Plain ρ env Q) :
    (select a b c).instantiated σ τ = select (a.instantiated σ τ) (b.instantiated σ τ) (c.instantiated σ τ) := by
  conv_lhs => unfold select
  split
  · rename_i found
    rw [const?_eq_some found]
    split
    · rename_i zero
      exact (if_pos zero).symm
    · rename_i nonzero
      exact (if_neg nonzero).symm
  split
  · rename_i same
    rw [← eq_of_same same]
    exact (select_self _ (kept b hb)).symm
  rfl

end Smart

variable [IsStrictOrderedRing K] in
/-- Simplifying before variables are replaced makes no difference. -/
theorem Expr.simplify_bind {ρ : Valuation K} {env env' : Env K} {Q Q' : Atom → Prop}
    {σ τ : Name → Option (Expr (Exact K))} {e : Expr (Exact K)} (strict : ¬Q .logic) (strict' : ¬Q' .logic)
    (vars : ∀ x, Q (.var x) → ((σ x).getD (.var x)).Represents ρ env' Q' (env.var x))
    (rvars : ∀ x, Q (.rvar x) → ((τ x).getD (.rvar x)).Represents ρ env' Q' (env.rvar x))
    (targets : ∀ t, Q (.target t) → Q' (.target t)) (plain : e.Plain ρ env Q) :
    (e.bind σ τ).simplify = (e.simplify.bind σ τ).simplify := by
  have kept (a : Expr (Exact K)) (plain : a.Plain ρ env Q) :
      (a.instantiated σ τ).Represents ρ env' Q' (a.value ρ env) :=
    ((Represents.of_plain plain).bind vars rvars targets fun logic => absurd logic strict).simplify strict'
  change e.instantiated σ τ = e.simplify.instantiated σ τ
  induction e with
  | const _ | var _ | rvar _ | param _ => rfl
  | call f args ih | load f args ih =>
    simp only [plain_call, plain_load] at plain
    simp only [simplify, instantiated, Expr.bind, simplifyList_eq_map, bindList_eq_map, List.map_map]
    congr 1
    exact List.map_congr_left fun a mem => ih a mem (plain.2 a mem)
  | unary op a ih =>
    rw [plain_unary] at plain
    exact (congrArg _ (ih plain)).trans (Smart.instantiated_unary kept op (plain_simplify plain)).symm
  | binary op a b iha ihb =>
    rw [plain_binary] at plain
    exact (congrArg₂ _ (iha plain.1) (ihb plain.2)).trans
      (Smart.instantiated_binary kept op (plain_simplify plain.1) (plain_simplify plain.2)).symm
  | compare op a b iha ihb =>
    rw [plain_compare] at plain
    exact (congrArg₂ _ (iha plain.1) (ihb plain.2)).trans (Smart.instantiated_compare op).symm
  | and a b iha ihb =>
    rw [plain_and] at plain
    obtain ⟨ta, tb⟩ := plain.1.resolve_left strict
    rw [← value_simplify strict plain.2.1] at ta
    rw [← value_simplify strict plain.2.2] at tb
    exact (congrArg₂ _ (iha plain.2.1) (ihb plain.2.2)).trans
      (Smart.instantiated_and kept (plain_simplify plain.2.1) (plain_simplify plain.2.2) ta tb).symm
  | or a b iha ihb =>
    rw [plain_or] at plain
    obtain ⟨ta, tb⟩ := plain.1.resolve_left strict
    rw [← value_simplify strict plain.2.1] at ta
    rw [← value_simplify strict plain.2.2] at tb
    exact (congrArg₂ _ (iha plain.2.1) (ihb plain.2.2)).trans
      (Smart.instantiated_or kept (plain_simplify plain.2.1) (plain_simplify plain.2.2) ta tb).symm
  | not a ih =>
    rw [plain_not] at plain
    exact (congrArg _ (ih plain)).trans Smart.instantiated_not.symm
  | select c t f ihc iht ihf =>
    rw [plain_select] at plain
    refine Eq.trans ?_ (Smart.instantiated_select kept (plain_simplify plain.2.1)).symm
    rw [← ihc plain.1, ← iht plain.2.1, ← ihf plain.2.2]
    rfl

end ArrayDiff
