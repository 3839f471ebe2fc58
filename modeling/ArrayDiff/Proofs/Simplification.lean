import Mathlib.Tactic.Ring
import ArrayDiff.Proofs.Nodes
import ArrayDiff.Proofs.Number

/-!
# Simplification keeps values

In exact arithmetic every smart constructor computes what its operator computes, as long as constants are numbers and
the operands of logic are 0 or 1 (`Expr.Plain`). No constructor brings in variables or targets of its own.
`represents_simplify` puts the constructors together.
-/

open ArrayDiff.Expr

namespace ArrayDiff

variable {K : Type} [Field K] [LinearOrder K] [FloorRing K] [Transcendental K]

@[simp] theorem exact_zero : (Scalar.zero : K) = 0 := Int.cast_zero

@[simp] theorem exact_one : (Scalar.one : K) = 1 := Int.cast_one

@[simp] theorem exact_isZero (x : K) : Scalar.isZero x = decide (x = 0) := by
  simp [Scalar.isZero, Scalar.equal]

@[simp] theorem exact_ofBool (b : Bool) : (Scalar.ofBool b : K) = if b then 1 else 0 := by
  cases b <;> simp [Scalar.ofBool]

omit [LinearOrder K] [FloorRing K] [Transcendental K] in
@[simp] theorem embed_number (x : K) : (Embed.embed (Exact.number x) : K) = x := rfl

@[simp] theorem number_zero : (Scalar.zero : Exact K) = .number 0 := congrArg Exact.number Int.cast_zero

@[simp] theorem number_one : (Scalar.one : Exact K) = .number 1 := congrArg Exact.number Int.cast_one

@[simp] theorem number_minusOne : (Scalar.minusOne : Exact K) = .number (-1) :=
  congrArg Exact.number (by simp)

@[simp] theorem number_half : (Scalar.half : Exact K) = .number (1 / 2) :=
  congrArg Exact.number (by simp)

@[simp] theorem number_ofBool (b : Bool) : (Scalar.ofBool b : Exact K) = .number (if b then 1 else 0) := by
  cases b <;> simp [Scalar.ofBool]

@[simp] theorem number_isZero (x : K) : Scalar.isZero (Exact.number x) = decide (x = 0) := by
  simp [Scalar.isZero, Scalar.equal, Exact.equal]

@[simp] theorem number_isOne (x : K) : Scalar.isOne (Exact.number x) = decide (x = 1) := by
  simp [Scalar.isOne, Scalar.equal, Exact.equal]

theorem UnaryOp.apply_number (op : UnaryOp) (x : K) : op.apply (Exact.number x) = .number (op.apply x) := by
  cases op <;> rfl

theorem BinaryOp.apply_number (op : BinaryOp) (x y : K) :
    op.apply (Exact.number x) (.number y) = .number (op.apply x y) := by
  cases op with
  | sub => exact congrArg Exact.number (sub_eq_add_neg x y).symm
  | min =>
    simp only [apply, Scalar.min, Exact.min, Exact.isUndefined, Exact.lessEq, Exact.less, Exact.equal]
    rcases lt_trichotomy x y with h | h | h <;> simp [h, le_of_lt, not_le_of_gt, ne_of_gt, not_lt_of_gt]
  | max =>
    simp only [apply, Scalar.max, Exact.max, Exact.isUndefined, Exact.lessEq, Exact.less, Exact.equal]
    rcases lt_trichotomy x y with h | h | h <;> simp [h, le_of_lt, not_le_of_gt, ne_of_gt, not_lt_of_gt]
  | _ => rfl

theorem Comparison.holds_number (op : Comparison) (x y : K) :
    op.holds (Exact.number x) (.number y) = op.holds x y := by
  cases op <;>
    simp [holds, Scalar.less, Scalar.lessEq, Scalar.equal, Exact.less, Exact.lessEq, Exact.equal, le_iff_lt_or_eq,
      eq_comm]

/-- A truth value. -/
def IsTruth (x : K) : Prop := x = 0 ∨ x = 1

omit [LinearOrder K] [FloorRing K] [Transcendental K] in
theorem isTruth_ite (c : Prop) [Decidable c] : IsTruth (if c then (1 : K) else 0) := by
  split
  · exact Or.inr rfl
  · exact Or.inl rfl

/-- What an expression can be made of besides numbers and operators. -/
inductive Atom where
  | var (x : Name)
  | rvar (x : Name)
  | target (t : Target)
  /-- Logic whose operands can have any value. -/
  | logic

namespace Expr

variable (ρ : Valuation K) (env : Env K) (Q : Atom → Prop)

/-- What is asked of one node: a constant is a number, operands of logic are truth values unless `Q` allows others, and
variables and targets are among the allowed ones. -/
def PlainNode : Expr (Exact K) → Prop
  | const c => c.isNumber
  | var x => Q (.var x)
  | rvar x => Q (.rvar x)
  | param p => Q (.target (.param p))
  | call f _ => Q (.target (.func f))
  | load b _ => Q (.target (.buffer b))
  | and a b | or a b => Q .logic ∨ IsTruth (a.value ρ env) ∧ IsTruth (b.value ρ env)
  | _ => True

/-- Constants are numbers, the operands of logic have truth values, and only what is allowed occurs. -/
def Plain (e : Expr (Exact K)) : Prop := ∀ x ∈ e.nodes, x.PlainNode ρ env Q

@[simp] theorem plain_const (c : Exact K) : (const c).Plain ρ env Q ↔ c.isNumber := everywhere_leaf rfl

@[simp] theorem plain_var (x : Name) : (var x).Plain ρ env Q ↔ Q (.var x) := everywhere_leaf rfl

@[simp] theorem plain_rvar (x : Name) : (rvar x).Plain ρ env Q ↔ Q (.rvar x) := everywhere_leaf rfl

@[simp] theorem plain_param (p : ParamId) : (param p).Plain ρ env Q ↔ Q (.target (.param p)) := everywhere_leaf rfl

@[simp] theorem plain_call (f : FuncId) (args : List (Expr (Exact K))) :
    (call f args).Plain ρ env Q ↔ Q (.target (.func f)) ∧ ∀ a ∈ args, a.Plain ρ env Q := everywhere_iff

@[simp] theorem plain_load (b : BufferId) (args : List (Expr (Exact K))) :
    (load b args).Plain ρ env Q ↔ Q (.target (.buffer b)) ∧ ∀ a ∈ args, a.Plain ρ env Q := everywhere_iff

@[simp] theorem plain_unary (op : UnaryOp) (a : Expr (Exact K)) : (unary op a).Plain ρ env Q ↔ a.Plain ρ env Q :=
  (everywhere_one rfl).trans (and_iff_right trivial)

@[simp] theorem plain_binary (op : BinaryOp) (a b : Expr (Exact K)) :
    (binary op a b).Plain ρ env Q ↔ a.Plain ρ env Q ∧ b.Plain ρ env Q :=
  (everywhere_two rfl).trans (and_iff_right trivial)

@[simp] theorem plain_compare (op : Comparison) (a b : Expr (Exact K)) :
    (compare op a b).Plain ρ env Q ↔ a.Plain ρ env Q ∧ b.Plain ρ env Q :=
  (everywhere_two rfl).trans (and_iff_right trivial)

@[simp] theorem plain_and (a b : Expr (Exact K)) : (and a b).Plain ρ env Q ↔
    (Q .logic ∨ IsTruth (a.value ρ env) ∧ IsTruth (b.value ρ env)) ∧ a.Plain ρ env Q ∧ b.Plain ρ env Q :=
  everywhere_two rfl

@[simp] theorem plain_or (a b : Expr (Exact K)) : (or a b).Plain ρ env Q ↔
    (Q .logic ∨ IsTruth (a.value ρ env) ∧ IsTruth (b.value ρ env)) ∧ a.Plain ρ env Q ∧ b.Plain ρ env Q :=
  everywhere_two rfl

@[simp] theorem plain_not (a : Expr (Exact K)) : (not a).Plain ρ env Q ↔ a.Plain ρ env Q :=
  (everywhere_one rfl).trans (and_iff_right trivial)

@[simp] theorem plain_select (c t f : Expr (Exact K)) :
    (select c t f).Plain ρ env Q ↔ c.Plain ρ env Q ∧ t.Plain ρ env Q ∧ f.Plain ρ env Q :=
  (everywhere_three rfl).trans (and_iff_right trivial)

variable {ρ env} in
theorem plain_of_constants {e : Expr (Exact K)} (numbers : ∀ c, .const c ∈ e.nodes → c.isNumber) :
    e.Plain ρ env fun _ => True := by
  intro x node
  cases x with
  | const c => exact numbers c node
  | and a b | or a b => exact Or.inl trivial
  | _ => trivial

/-- `e` is plain and has the value `v`. -/
structure Represents (e : Expr (Exact K)) (v : K) : Prop where
  plain : e.Plain ρ env Q
  value : e.value ρ env = v

variable {ρ env Q} {a b c : Expr (Exact K)} {x y z : K}

theorem Represents.of_plain (h : a.Plain ρ env Q) : a.Represents ρ env Q (a.value ρ env) := ⟨h, rfl⟩

theorem Represents.number (x : K) : (const (.number x)).Represents ρ env Q x := ⟨by simp [Exact.isNumber], rfl⟩

theorem Represents.zero : (Expr.zero : Expr (Exact K)).Represents ρ env Q 0 := by
  simpa [Expr.zero] using Represents.number (0 : K)

theorem Represents.one : (Expr.one : Expr (Exact K)).Represents ρ env Q 1 := by
  simpa [Expr.one] using Represents.number (1 : K)

theorem Represents.ofInt (k : Int) : (Expr.ofInt k : Expr (Exact K)).Represents ρ env Q (k : K) :=
  Represents.number (k : K)

theorem Represents.const? {k : Exact K} (h : a.Represents ρ env Q x) (found : a.const? = some k) : k = .number x := by
  obtain rfl := const?_eq_some found
  obtain ⟨plain, value⟩ := h
  cases k with
  | number y => exact congrArg Exact.number value
  | _ => simp [Exact.isNumber] at plain

theorem Represents.of_isZero (h : a.Represents ρ env Q x) (zero : a.isZero = true) : x = 0 := by
  cases a with
  | const k => simpa [isZero, h.const? rfl] using zero
  | _ => simp [isZero] at zero

theorem Represents.of_isOne (h : a.Represents ρ env Q x) (one : a.isOne = true) : x = 1 := by
  cases a with
  | const k => simpa [isOne, h.const? rfl] using one
  | _ => simp [isOne] at one

end Expr

namespace Smart

variable {ρ : Valuation K} {env : Env K} {Q : Atom → Prop} {a b c : Expr (Exact K)} {x y z : K}

theorem represents_truth (t : Bool) : (truth t : Expr (Exact K)).Represents ρ env Q (if t then 1 else 0) := by
  simpa [truth] using Represents.number (if t then (1 : K) else 0)

theorem represents_unary (op : UnaryOp) (h : a.Represents ρ env Q x) :
    (unary op a).Represents ρ env Q (op.apply x) := by
  unfold unary
  split
  · rename_i k
    rw [h.const? rfl, UnaryOp.apply_number]
    exact Represents.number _
  · rename_i b
    split
    · rename_i isNeg
      refine ⟨by simpa using h.plain, ?_⟩
      have value : -(b.value ρ env) = x := h.value
      rw [← value, isNeg]
      exact (neg_neg _).symm
    · exact ⟨by simpa using h.plain, congrArg op.apply h.value⟩
  · exact ⟨by simpa using h.plain, congrArg op.apply h.value⟩

theorem represents_neg (h : a.Represents ρ env Q x) : (neg a).Represents ρ env Q (-x) := represents_unary .neg h

theorem of_isMinusOne (h : a.Represents ρ env Q x) (minusOne : isMinusOne a = true) : x = -1 := by
  cases a with
  | const k =>
    have number := h.const? rfl
    subst number
    simpa [isMinusOne, Scalar.equal, Exact.equal] using minusOne
  | _ => simp [isMinusOne] at minusOne

theorem represents_binaryNode (op : BinaryOp) (ha : a.Represents ρ env Q x) (hb : b.Represents ρ env Q y) :
    (Expr.binary op a b).Represents ρ env Q (op.apply x y) :=
  ⟨by simpa using ⟨ha.plain, hb.plain⟩, by simp [ha.value, hb.value]⟩

theorem represents_fold (op : BinaryOp) {k l : Exact K} (ha : a.Represents ρ env Q x) (hb : b.Represents ρ env Q y)
    (foundA : a.const? = some k) (foundB : b.const? = some l) :
    (const (op.apply k l)).Represents ρ env Q (op.apply x y) := by
  rw [ha.const? foundA, hb.const? foundB, BinaryOp.apply_number]
  exact Represents.number _

theorem represents_add (ha : a.Represents ρ env Q x) (hb : b.Represents ρ env Q y) :
    (add a b).Represents ρ env Q (x + y) := by
  unfold add
  split
  · rename_i foundA foundB
    exact represents_fold .add ha hb foundA foundB
  split
  · rename_i zero
    rw [ha.of_isZero zero, zero_add]
    exact hb
  split
  · rename_i zero
    rw [hb.of_isZero zero, add_zero]
    exact ha
  exact represents_binaryNode .add ha hb

theorem represents_sub (ha : a.Represents ρ env Q x) (hb : b.Represents ρ env Q y) :
    (sub a b).Represents ρ env Q (x - y) := by
  unfold sub
  split
  · rename_i foundA foundB
    exact represents_fold .sub ha hb foundA foundB
  split
  · rename_i zero
    rw [hb.of_isZero zero, sub_zero]
    exact ha
  split
  · rename_i zero
    rw [ha.of_isZero zero, zero_sub]
    exact represents_neg hb
  exact represents_binaryNode .sub ha hb

theorem represents_mul (ha : a.Represents ρ env Q x) (hb : b.Represents ρ env Q y) :
    (mul a b).Represents ρ env Q (x * y) := by
  unfold mul
  split
  · rename_i foundA foundB
    exact represents_fold .mul ha hb foundA foundB
  split
  · rename_i zero
    have vanishes : x * y = 0 := by
      rcases (Bool.or_eq_true _ _).mp zero with zero | zero
      · rw [ha.of_isZero zero, zero_mul]
      · rw [hb.of_isZero zero, mul_zero]
    rw [vanishes]
    exact Represents.zero
  split
  · rename_i one
    rw [ha.of_isOne one, one_mul]
    exact hb
  split
  · rename_i one
    rw [hb.of_isOne one, mul_one]
    exact ha
  split
  · rename_i minusOne
    rw [of_isMinusOne ha minusOne, neg_one_mul]
    exact represents_neg hb
  split
  · rename_i minusOne
    rw [of_isMinusOne hb minusOne, mul_neg_one]
    exact represents_neg ha
  exact represents_binaryNode .mul ha hb

theorem represents_divOpen (ha : a.Represents ρ env Q x) (hb : b.Represents ρ env Q y) :
    (divOpen a b).Represents ρ env Q (x / y) := by
  unfold divOpen
  split
  · rename_i zero
    rw [ha.of_isZero zero, zero_div]
    exact Represents.zero
  split
  · rename_i one
    rw [hb.of_isOne one, div_one]
    exact ha
  exact represents_binaryNode .div ha hb

theorem represents_div (ha : a.Represents ρ env Q x) (hb : b.Represents ρ env Q y) :
    (div a b).Represents ρ env Q (x / y) := by
  unfold div
  split
  · rename_i foundA foundB
    split
    · exact represents_divOpen ha hb
    · exact represents_fold .div ha hb foundA foundB
  · exact represents_divOpen ha hb

theorem represents_pow (ha : a.Represents ρ env Q x) (hb : b.Represents ρ env Q y) :
    (pow a b).Represents ρ env Q (Transcendental.pow x y) := by
  unfold pow
  split
  · rename_i foundA foundB
    exact represents_fold .pow ha hb foundA foundB
  split
  · rename_i one
    rw [hb.of_isOne one, Transcendental.pow_one]
    exact ha
  split
  · rename_i zero
    rw [hb.of_isZero zero, Transcendental.pow_zero]
    exact Represents.one
  exact represents_binaryNode .pow ha hb

theorem represents_foldOnly (op : BinaryOp) (ha : a.Represents ρ env Q x) (hb : b.Represents ρ env Q y) :
    (foldOnly op a b).Represents ρ env Q (op.apply x y) := by
  unfold foldOnly
  split
  · rename_i foundA foundB
    exact represents_fold op ha hb foundA foundB
  · exact represents_binaryNode op ha hb

theorem represents_binary (op : BinaryOp) (ha : a.Represents ρ env Q x) (hb : b.Represents ρ env Q y) :
    (binary op a b).Represents ρ env Q (op.apply x y) := by
  cases op with
  | add => exact represents_add ha hb
  | sub => exact represents_sub ha hb
  | mul => exact represents_mul ha hb
  | div => exact represents_div ha hb
  | pow => exact represents_pow ha hb
  | min => exact represents_foldOnly .min ha hb
  | max => exact represents_foldOnly .max ha hb

theorem represents_compare (op : Comparison) (ha : a.Represents ρ env Q x) (hb : b.Represents ρ env Q y) :
    (compare op a b).Represents ρ env Q (if op.holds x y then 1 else 0) := by
  unfold compare
  split
  · rename_i foundA foundB
    rw [ha.const? foundA, hb.const? foundB, Comparison.holds_number]
    exact represents_truth _
  · exact ⟨by simpa using ⟨ha.plain, hb.plain⟩, by simp [ha.value, hb.value]⟩

theorem of_isTrue (h : a.Represents ρ env Q x) (truth : isTrue a = true) : x ≠ 0 := by
  cases a with
  | const k => simpa [isTrue, Expr.const?, h.const? rfl] using truth
  | _ => simp [isTrue, Expr.const?] at truth

theorem represents_and (ha : a.Represents ρ env Q x) (hb : b.Represents ρ env Q y) (tx : IsTruth x) (ty : IsTruth y) :
    (and a b).Represents ρ env Q (x * y) := by
  unfold and
  split
  · rename_i zero
    have vanishes : x * y = 0 := by
      rcases (Bool.or_eq_true _ _).mp zero with zero | zero
      · rw [ha.of_isZero zero, zero_mul]
      · rw [hb.of_isZero zero, mul_zero]
    rw [vanishes]
    exact Represents.zero
  split
  · rename_i truth
    rw [tx.resolve_left (of_isTrue ha truth), one_mul]
    exact hb
  split
  · rename_i truth
    rw [ty.resolve_left (of_isTrue hb truth), mul_one]
    exact ha
  refine ⟨by simpa [ha.value, hb.value] using ⟨Or.inr ⟨tx, ty⟩, ha.plain, hb.plain⟩, ?_⟩
  rcases tx with rfl | rfl <;> rcases ty with rfl | rfl <;> simp [ha.value, hb.value]

theorem represents_or (ha : a.Represents ρ env Q x) (hb : b.Represents ρ env Q y) (tx : IsTruth x) (ty : IsTruth y) :
    (or a b).Represents ρ env Q (if x = 0 then y else 1) := by
  unfold or
  split
  · rename_i truth
    have holds : (if x = 0 then y else 1) = 1 := by
      rcases (Bool.or_eq_true _ _).mp truth with truth | truth
      · rw [if_neg (of_isTrue ha truth)]
      · rw [ty.resolve_left (of_isTrue hb truth), ite_self]
    rw [holds]
    exact Represents.one
  split
  · rename_i zero
    rw [if_pos (ha.of_isZero zero)]
    exact hb
  split
  · rename_i zero
    rw [hb.of_isZero zero]
    rcases tx with rfl | rfl <;> simpa using ha
  refine ⟨by simpa [ha.value, hb.value] using ⟨Or.inr ⟨tx, ty⟩, ha.plain, hb.plain⟩, ?_⟩
  rcases tx with rfl | rfl <;> rcases ty with rfl | rfl <;> simp [ha.value, hb.value]

theorem plain_and (loose : Q .logic) (ha : a.Plain ρ env Q) (hb : b.Plain ρ env Q) : (and a b).Plain ρ env Q := by
  unfold and
  split
  · exact Represents.zero.plain
  split
  · exact hb
  split
  · exact ha
  · simpa using ⟨Or.inl loose, ha, hb⟩

theorem plain_or (loose : Q .logic) (ha : a.Plain ρ env Q) (hb : b.Plain ρ env Q) : (or a b).Plain ρ env Q := by
  unfold or
  split
  · exact Represents.one.plain
  split
  · exact hb
  split
  · exact ha
  · simpa using ⟨Or.inl loose, ha, hb⟩

theorem represents_not (ha : a.Represents ρ env Q x) :
    (not a).Represents ρ env Q (if x = 0 then 1 else 0) := by
  unfold not
  split
  · rename_i found
    rw [ha.const? found]
    have decided : (truth (decide (x = 0)) : Expr (Exact K)).Represents ρ env Q _ := represents_truth _
    simpa using decided
  · exact ⟨by simpa using ha.plain, by simp [ha.value]⟩

end Smart

namespace Expr

variable {ρ : Valuation K} {env : Env K} {Q : Atom → Prop}

theorem values_of_sameList {as bs : List (Expr (Exact K))}
    (ih : ∀ a ∈ as, ∀ b, a.same b = true → b.Plain ρ env Q → a.value ρ env = b.value ρ env)
    (h : sameList as bs = true) (plain : ∀ b ∈ bs, b.Plain ρ env Q) : position ρ env as = position ρ env bs := by
  induction as generalizing bs with
  | nil => cases bs <;> simp_all [sameList]
  | cons a as iht =>
    cases bs with
    | nil => simp [sameList] at h
    | cons b bs =>
      simp only [sameList, Bool.and_eq_true] at h
      have head := ih a List.mem_cons_self b h.1 (plain b List.mem_cons_self)
      have rest := iht (fun a mem => ih a (List.mem_cons_of_mem _ mem)) h.2
        fun b mem => plain b (List.mem_cons_of_mem _ mem)
      rw [position_cons, position_cons, head, rest]

theorem value_of_same {a b : Expr (Exact K)} (h : a.same b = true) (plainA : a.Plain ρ env Q)
    (plainB : b.Plain ρ env Q) : a.value ρ env = b.value ρ env := by
  induction a generalizing b with
  | const k =>
    cases b <;> simp [same] at h
    rename_i l
    cases k <;> cases l <;> simp_all [Scalar.equal, Exact.equal, Exact.isNumber]
  | var x | rvar x | param x => cases b <;> simp_all [same]
  | call f as ih =>
    cases b <;> simp only [same, Bool.and_eq_true, beq_iff_eq, Bool.false_eq_true] at h
    rw [plain_call] at plainA plainB
    rw [value_call, value_call, h.1,
      values_of_sameList (fun a mem b hb plain => ih a mem hb (plainA.2 a mem) plain) h.2 plainB.2]
  | load f as ih =>
    cases b <;> simp only [same, Bool.and_eq_true, beq_iff_eq, Bool.false_eq_true] at h
    rw [plain_load] at plainA plainB
    rw [value_load, value_load, h.1,
      values_of_sameList (fun a mem b hb plain => ih a mem hb (plainA.2 a mem) plain) h.2 plainB.2]
  | unary op a ih =>
    cases b <;> simp only [same, Bool.and_eq_true, beq_iff_eq, Bool.false_eq_true] at h
    rw [plain_unary] at plainA plainB
    rw [value_unary, value_unary, h.1, ih h.2 plainA plainB]
  | not a ih =>
    cases b <;> simp only [same, Bool.false_eq_true] at h
    rw [plain_not] at plainA plainB
    rw [value_not, value_not, ih h plainA plainB]
  | binary op a a' iha iha' =>
    cases b <;> simp only [same, Bool.and_eq_true, beq_iff_eq, Bool.false_eq_true] at h
    rw [plain_binary] at plainA plainB
    rw [value_binary, value_binary, h.1.1, iha h.1.2 plainA.1 plainB.1, iha' h.2 plainA.2 plainB.2]
  | compare op a a' iha iha' =>
    cases b <;> simp only [same, Bool.and_eq_true, beq_iff_eq, Bool.false_eq_true] at h
    rw [plain_compare] at plainA plainB
    rw [value_compare, value_compare, h.1.1, iha h.1.2 plainA.1 plainB.1, iha' h.2 plainA.2 plainB.2]
  | and a a' iha iha' =>
    cases b <;> simp only [same, Bool.and_eq_true, Bool.false_eq_true] at h
    rw [plain_and] at plainA plainB
    rw [value_and, value_and, iha h.1 plainA.2.1 plainB.2.1, iha' h.2 plainA.2.2 plainB.2.2]
  | or a a' iha iha' =>
    cases b <;> simp only [same, Bool.and_eq_true, Bool.false_eq_true] at h
    rw [plain_or] at plainA plainB
    rw [value_or, value_or, iha h.1 plainA.2.1 plainB.2.1, iha' h.2 plainA.2.2 plainB.2.2]
  | select c t f ihc iht ihf =>
    cases b <;> simp only [same, Bool.and_eq_true, Bool.false_eq_true] at h
    rw [plain_select] at plainA plainB
    rw [value_select, value_select, ihc h.1.1 plainA.1 plainB.1, iht h.1.2 plainA.2.1 plainB.2.1,
      ihf h.2 plainA.2.2 plainB.2.2]

theorem position_of_sameList {as bs : List (Expr (Exact K))} (h : sameList as bs = true)
    (plainA : ∀ a ∈ as, a.Plain ρ env Q) (plainB : ∀ b ∈ bs, b.Plain ρ env Q) :
    position ρ env as = position ρ env bs :=
  values_of_sameList (fun _ mem _ same plain => value_of_same same (plainA _ mem) plain) h plainB

end Expr

theorem Smart.represents_select {ρ : Valuation K} {env : Env K} {Q : Atom → Prop} {c t f : Expr (Exact K)} {x y z : K}
    (hc : c.Represents ρ env Q x) (ht : t.Represents ρ env Q y) (hf : f.Represents ρ env Q z) :
    (select c t f).Represents ρ env Q (if x = 0 then z else y) := by
  unfold select
  split
  · rename_i found
    rw [hc.const? found, number_isZero]
    by_cases zero : x = 0
    · simpa [zero] using hf
    · simpa [zero] using ht
  split
  · rename_i same
    have equal : y = z := by
      rw [← ht.value, ← hf.value]
      exact value_of_same same ht.plain hf.plain
    rw [equal, ite_self, ← equal]
    exact ht
  · exact ⟨by simpa using ⟨hc.plain, ht.plain, hf.plain⟩, by simp [hc.value, ht.value, hf.value]⟩

namespace Expr

variable {ρ : Valuation K} {env : Env K} {Q : Atom → Prop}

/-- Simplification keeps the value of a plain expression. -/
theorem represents_simplify {e : Expr (Exact K)} (strict : ¬Q .logic) (plain : e.Plain ρ env Q) :
    e.simplify.Represents ρ env Q (e.value ρ env) := by
  induction e with
  | const _ | var _ | rvar _ | param _ => exact Represents.of_plain plain
  | call f args ih | load b args ih =>
    simp only [plain_call, plain_load] at plain
    have moved : position ρ env (args.map simplify) = position ρ env args := by
      simpa [position] using fun a mem => congrArg Scalar.index (ih a mem (plain.2 a mem)).value
    refine ⟨?_, by simp [simplify, simplifyList_eq_map, moved]⟩
    simpa [simplify, simplifyList_eq_map, plain.1] using fun a mem => (ih a mem (plain.2 a mem)).plain
  | unary op a ih => exact Smart.represents_unary op (ih (by simpa using plain))
  | binary op a b iha ihb =>
    rw [plain_binary] at plain
    exact Smart.represents_binary op (iha plain.1) (ihb plain.2)
  | compare op a b iha ihb =>
    rw [plain_compare] at plain
    rw [value_compare, exact_ofBool]
    exact Smart.represents_compare op (iha plain.1) (ihb plain.2)
  | and a b iha ihb =>
    rw [plain_and] at plain
    have truths := plain.1.resolve_left strict
    have both := Smart.represents_and (iha plain.2.1) (ihb plain.2.2) truths.1 truths.2
    have value : (and a b).value ρ env = a.value ρ env * b.value ρ env := by
      rcases truths with ⟨ha | ha, hb | hb⟩ <;> simp [ha, hb]
    rwa [value]
  | or a b iha ihb =>
    rw [plain_or] at plain
    have truths := plain.1.resolve_left strict
    have both := Smart.represents_or (iha plain.2.1) (ihb plain.2.2) truths.1 truths.2
    have value : (or a b).value ρ env = if a.value ρ env = 0 then b.value ρ env else 1 := by
      rcases truths with ⟨ha | ha, hb | hb⟩ <;> simp [ha, hb]
    rwa [value]
  | not a ih =>
    rw [plain_not] at plain
    simp only [simplify, value_not, exact_ofBool, exact_isZero, decide_eq_true_eq]
    exact Smart.represents_not (ih plain)
  | select c t f ihc iht ihf =>
    rw [plain_select] at plain
    simp only [simplify, value_select, exact_isZero, decide_eq_true_eq]
    exact Smart.represents_select (ihc plain.1) (iht plain.2.1) (ihf plain.2.2)

theorem plain_simplify {e : Expr (Exact K)} (plain : e.Plain ρ env Q) : e.simplify.Plain ρ env Q := by
  by_cases strict : ¬Q .logic
  · exact (represents_simplify strict plain).plain
  have loose : Q .logic := not_not.mp strict
  clear strict
  induction e with
  | const _ | var _ | rvar _ | param _ => exact plain
  | call f args ih | load b args ih =>
    simp only [plain_call, plain_load] at plain
    simpa [simplify, simplifyList_eq_map, plain.1] using fun a mem => ih a mem (plain.2 a mem)
  | unary op a ih =>
    exact (Smart.represents_unary op (Represents.of_plain (ih (by simpa using plain)))).plain
  | binary op a b iha ihb =>
    rw [plain_binary] at plain
    exact (Smart.represents_binary op (Represents.of_plain (iha plain.1)) (Represents.of_plain (ihb plain.2))).plain
  | compare op a b iha ihb =>
    rw [plain_compare] at plain
    exact (Smart.represents_compare op (Represents.of_plain (iha plain.1)) (Represents.of_plain (ihb plain.2))).plain
  | and a b iha ihb =>
    rw [plain_and] at plain
    exact Smart.plain_and loose (iha plain.2.1) (ihb plain.2.2)
  | or a b iha ihb =>
    rw [plain_or] at plain
    exact Smart.plain_or loose (iha plain.2.1) (ihb plain.2.2)
  | not a ih =>
    rw [plain_not] at plain
    exact (Smart.represents_not (Represents.of_plain (ih plain))).plain
  | select c t f ihc iht ihf =>
    rw [plain_select] at plain
    exact (Smart.represents_select (Represents.of_plain (ihc plain.1)) (Represents.of_plain (iht plain.2.1))
      (Represents.of_plain (ihf plain.2.2))).plain

theorem value_simplify {e : Expr (Exact K)} (strict : ¬Q .logic) (plain : e.Plain ρ env Q) :
    e.simplify.value ρ env = e.value ρ env := (represents_simplify strict plain).value

theorem Represents.simplify {e : Expr (Exact K)} {v : K} (strict : ¬Q .logic) (h : e.Represents ρ env Q v) :
    e.simplify.Represents ρ env Q v := h.value ▸ represents_simplify strict h.plain

/-! ### Substitution -/

theorem Plain.mono {Q' : Atom → Prop} {e : Expr (Exact K)} (plain : e.Plain ρ env Q) (h : ∀ a, Q a → Q' a) :
    e.Plain ρ env Q' := by
  intro x mem
  have node := plain x mem
  cases x <;> first | exact node.imp_left (h _) | exact h _ node | exact node

theorem Plain.loosen {ρ' : Valuation K} {env' : Env K} {Q' : Atom → Prop} {e : Expr (Exact K)}
    (plain : e.Plain ρ env Q) (loose : Q' .logic) (h : ∀ a, Q a → Q' a) : e.Plain ρ' env' Q' := by
  intro x mem
  have node := plain x mem
  cases x <;> first | exact Or.inl loose | exact h _ node | exact node

theorem Plain.var_mem {e : Expr (Exact K)} {x : Name} (plain : e.Plain ρ env Q) (mem : var x ∈ e.nodes) : Q (.var x) :=
  plain _ mem

theorem Plain.rvar_mem {e : Expr (Exact K)} {x : Name} (plain : e.Plain ρ env Q) (mem : rvar x ∈ e.nodes) :
    Q (.rvar x) := plain _ mem

theorem Plain.call_mem {e : Expr (Exact K)} {f : FuncId} {args : List (Expr (Exact K))} (plain : e.Plain ρ env Q)
    (mem : call f args ∈ e.nodes) : Q (.target (.func f)) := plain _ mem

theorem Represents.bind {e : Expr (Exact K)} {v : K} {Q' : Atom → Prop} {env' : Env K}
    {σ τ : Name → Option (Expr (Exact K))} (h : e.Represents ρ env Q v)
    (vars : ∀ x, Q (.var x) → ((σ x).getD (.var x)).Represents ρ env' Q' (env.var x))
    (rvars : ∀ x, Q (.rvar x) → ((τ x).getD (.rvar x)).Represents ρ env' Q' (env.rvar x))
    (targets : ∀ t, Q (.target t) → Q' (.target t)) (logic : Q .logic → Q' .logic) :
    (e.bind σ τ).Represents ρ env' Q' v := by
  obtain ⟨plain, rfl⟩ := h
  have valued : ∀ a : Expr (Exact K), a.Plain ρ env Q → (a.bind σ τ).value ρ env' = a.value ρ env := fun a plain =>
    value_bind (fun x mem => (vars x (plain.var_mem mem)).value) fun x mem => (rvars x (plain.rvar_mem mem)).value
  refine ⟨?_, valued e plain⟩
  induction e with
  | const _ => simpa [Expr.bind] using plain
  | param p => exact (plain_param ρ env' Q' p).mpr (targets _ ((plain_param ρ env Q p).mp plain))
  | var x => exact (vars x (by simpa using plain)).plain
  | rvar x => exact (rvars x (by simpa using plain)).plain
  | call f args ih =>
    rw [plain_call] at plain
    simpa [Expr.bind, bindList_eq_map, targets _ plain.1] using fun a mem => ih a mem (plain.2 a mem)
  | load b args ih =>
    rw [plain_load] at plain
    simpa [Expr.bind, bindList_eq_map, targets _ plain.1] using fun a mem => ih a mem (plain.2 a mem)
  | unary op a ih | not a ih =>
    simp only [plain_unary, plain_not] at plain
    simpa [Expr.bind] using ih plain
  | binary op a b iha ihb | compare op a b iha ihb =>
    simp only [plain_binary, plain_compare] at plain
    simpa [Expr.bind] using ⟨iha plain.1, ihb plain.2⟩
  | and a b iha ihb | or a b iha ihb =>
    simp only [plain_and, plain_or] at plain
    simpa [Expr.bind, valued a plain.2.1, valued b plain.2.2] using ⟨plain.1.imp_left logic, iha plain.2.1, ihb plain.2.2⟩
  | select c t f ihc iht ihf =>
    rw [plain_select] at plain
    simpa [Expr.bind] using ⟨ihc plain.1, iht plain.2.1, ihf plain.2.2⟩

theorem Represents.redirect {e : Expr (Exact K)} {v : K} {Q' : Atom → Prop} {f g : FuncId}
    (h : e.Represents (ρ.set f (ρ.call g)) env Q v) (vars : ∀ x, Q (.var x) → Q' (.var x))
    (rvars : ∀ x, Q (.rvar x) → Q' (.rvar x))
    (targets : ∀ t, Q (.target t) → Q' (.target (if t = .func f then .func g else t))) (logic : Q .logic → Q' .logic) :
    (e.redirect f g).Represents ρ env Q' v := by
  obtain ⟨plain, rfl⟩ := h
  refine ⟨?_, value_redirect ρ env f g e⟩
  induction e with
  | const _ => simpa [Expr.redirect] using plain
  | param p => simpa [Expr.redirect] using targets _ ((plain_param _ env Q p).mp plain)
  | var x => simpa [Expr.redirect] using vars x ((plain_var _ env Q x).mp plain)
  | rvar x => simpa [Expr.redirect] using rvars x ((plain_rvar _ env Q x).mp plain)
  | call k args ih =>
    rw [plain_call] at plain
    have allowed : Q' (.target (.func (if k = f then g else k))) := by
      have := targets _ plain.1
      by_cases same : k = f <;> simpa [same] using this
    simpa [Expr.redirect, redirectList_eq_map, allowed] using fun a mem => ih a mem (plain.2 a mem)
  | load b args ih =>
    rw [plain_load] at plain
    have allowed : Q' (.target (.buffer b)) := by simpa using targets _ plain.1
    simpa [Expr.redirect, redirectList_eq_map, allowed] using fun a mem => ih a mem (plain.2 a mem)
  | unary op a ih | not a ih =>
    simp only [plain_unary, plain_not] at plain
    simpa [Expr.redirect] using ih plain
  | binary op a b iha ihb | compare op a b iha ihb =>
    simp only [plain_binary, plain_compare] at plain
    simpa [Expr.redirect] using ⟨iha plain.1, ihb plain.2⟩
  | and a b iha ihb | or a b iha ihb =>
    simp only [plain_and, plain_or] at plain
    simpa [Expr.redirect, value_redirect] using ⟨plain.1.imp_left logic, iha plain.2.1, ihb plain.2.2⟩
  | select c t e ihc iht ihe =>
    rw [plain_select] at plain
    simpa [Expr.redirect] using ⟨ihc plain.1, iht plain.2.1, ihe plain.2.2⟩

end Expr

end ArrayDiff
