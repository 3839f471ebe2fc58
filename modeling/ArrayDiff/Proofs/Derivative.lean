import Mathlib.Tactic.Ring
import ArrayDiff.Expr.Derivative
import ArrayDiff.Proofs.Simplification

/-!
# The two ways to differentiate an expression

`Expr.derivative` is the derivative of an expression along given changes of its reads. The forward rule computes it
(`represents_tangent`); the entries of the backward rule pair with the changes to the same number, and an entry that is
not 0 belongs to a read that is performed (`collected_partials`).
-/

namespace ArrayDiff

variable {K : Type} [Field K] [LinearOrder K] [FloorRing K] [Transcendental K]

/-- The derivative of the operator at `x`; the function `abs` has slope 1 at 0. -/
def UnaryOp.rate (op : UnaryOp) (x : K) : K :=
  match op with
  | neg => -1
  | exp => Transcendental.exp x
  | log => 1 / x
  | sin => Transcendental.cos x
  | cos => -Transcendental.sin x
  | tanh => 1 - Transcendental.tanh x * Transcendental.tanh x
  | sqrt => 1 / 2 / Transcendental.sqrt x
  | abs => if 0 ≤ x then 1 else -1
  | floor => 0

/-- The derivatives of the operator along its operands; ties go to the left one. -/
def BinaryOp.rates (op : BinaryOp) (x y : K) : K × K :=
  match op with
  | add => (1, 1)
  | sub => (1, -1)
  | mul => (y, x)
  | div => (1 / y, -x / (y * y))
  | min => if x ≤ y then (1, 0) else (0, 1)
  | max => if y ≤ x then (1, 0) else (0, 1)
  | pow => (y * Transcendental.pow x (y - 1), Transcendental.pow x y * Transcendental.log x)

namespace Expr

section Visits

variable {κ α : Type} [Scalar α] [Embed κ α]

/-- `x` is evaluated when `e` is: logic and selection evaluate only the operands that they need. -/
inductive Visits (ρ : Valuation α) (env : Env α) : Expr κ → Expr κ → Prop where
  | self (e : Expr κ) : Visits ρ env e e
  | call {f : FuncId} {args : List (Expr κ)} {a x : Expr κ} : a ∈ args → Visits ρ env a x → Visits ρ env (call f args) x
  | load {b : BufferId} {args : List (Expr κ)} {a x : Expr κ} :
    a ∈ args → Visits ρ env a x → Visits ρ env (load b args) x
  | unary {op : UnaryOp} {a x : Expr κ} : Visits ρ env a x → Visits ρ env (unary op a) x
  | binaryLeft {op : BinaryOp} {a b x : Expr κ} : Visits ρ env a x → Visits ρ env (binary op a b) x
  | binaryRight {op : BinaryOp} {a b x : Expr κ} : Visits ρ env b x → Visits ρ env (binary op a b) x
  | compareLeft {op : Comparison} {a b x : Expr κ} : Visits ρ env a x → Visits ρ env (compare op a b) x
  | compareRight {op : Comparison} {a b x : Expr κ} : Visits ρ env b x → Visits ρ env (compare op a b) x
  | andLeft {a b x : Expr κ} : Visits ρ env a x → Visits ρ env (and a b) x
  | andRight {a b x : Expr κ} :
    Scalar.isZero (a.value ρ env) = false → Visits ρ env b x → Visits ρ env (and a b) x
  | orLeft {a b x : Expr κ} : Visits ρ env a x → Visits ρ env (or a b) x
  | orRight {a b x : Expr κ} : Scalar.isZero (a.value ρ env) = true → Visits ρ env b x → Visits ρ env (or a b) x
  | not {a x : Expr κ} : Visits ρ env a x → Visits ρ env (not a) x
  | condition {c t f x : Expr κ} : Visits ρ env c x → Visits ρ env (select c t f) x
  | onTrue {c t f x : Expr κ} :
    Scalar.isZero (c.value ρ env) = false → Visits ρ env t x → Visits ρ env (select c t f) x
  | onFalse {c t f x : Expr κ} :
    Scalar.isZero (c.value ρ env) = true → Visits ρ env f x → Visits ρ env (select c t f) x

/-- Evaluating `e` reads the target at the position. -/
def Performs (ρ : Valuation α) (env : Env α) (e : Expr κ) (t : Target) (p : List Int) : Prop :=
  ∃ x r, Visits ρ env e x ∧ x.read? = some r ∧ r.target = t ∧ position ρ env r.args = p

theorem Visits.mem_nodes {ρ : Valuation α} {env : Env α} {e x : Expr κ} (h : Visits ρ env e x) : x ∈ e.nodes := by
  induction h with
  | self e => exact mem_nodes_self e
  | call mem _ ih | load mem _ ih => exact List.mem_cons_of_mem _ (mem_nodesList.mpr ⟨_, mem, ih⟩)
  | unary _ ih | not _ ih => exact List.mem_cons_of_mem _ ih
  | binaryLeft _ ih | compareLeft _ ih | andLeft _ ih | orLeft _ ih =>
    exact List.mem_cons_of_mem _ (List.mem_append_left _ ih)
  | binaryRight _ ih | compareRight _ ih | andRight _ _ ih | orRight _ _ ih =>
    exact List.mem_cons_of_mem _ (List.mem_append_right _ ih)
  | condition _ ih => exact List.mem_cons_of_mem _ (List.mem_append_left _ (List.mem_append_left _ ih))
  | onTrue _ _ ih => exact List.mem_cons_of_mem _ (List.mem_append_left _ (List.mem_append_right _ ih))
  | onFalse _ _ ih => exact List.mem_cons_of_mem _ (List.mem_append_right _ ih)

theorem Performs.mem_reads {ρ : Valuation α} {env : Env α} {e : Expr κ} {t : Target} {p : List Int}
    (h : e.Performs ρ env t p) : ∃ r ∈ e.reads, r.target = t ∧ position ρ env r.args = p := by
  obtain ⟨x, r, visits, read, target, at'⟩ := h
  exact ⟨r, List.mem_filterMap.mpr ⟨x, visits.mem_nodes, read⟩, target, at'⟩

theorem Performs.map {ρ : Valuation α} {env : Env α} {e e' : Expr κ} {t : Target} {p : List Int}
    (h : e.Performs ρ env t p) (wider : ∀ x, Visits ρ env e x → Visits ρ env e' x) : e'.Performs ρ env t p := by
  obtain ⟨x, r, visits, read⟩ := h
  exact ⟨x, r, wider x visits, read⟩

end Visits

variable (ρ : Valuation K) (env : Env K) (τ : Target → List Int → K)

/-- The derivative of an expression when every target changes by `τ`. Positions and conditions stay as they are. -/
def derivative : Expr (Exact K) → K
  | const _ | var _ | rvar _ => 0
  | param p => τ (.param p) []
  | call f args => τ (.func f) (position ρ env args)
  | load b args => τ (.buffer b) (position ρ env args)
  | unary op a => op.rate (a.value ρ env) * a.derivative
  | binary op a b =>
    (op.rates (a.value ρ env) (b.value ρ env)).1 * a.derivative +
      (op.rates (a.value ρ env) (b.value ρ env)).2 * b.derivative
  | compare .. | and .. | or .. | not _ => 0
  | select c t f => if c.value ρ env = 0 then f.derivative else t.derivative

variable {ρ env τ} {Q Q' : Atom → Prop} {a b e : Expr (Exact K)} {x y v : K}

theorem represents_slope (op : UnaryOp) (h : a.Represents ρ env Q x) :
    (op.slope a).Represents ρ env Q (op.rate x) := by
  cases op with
  | neg => simpa [UnaryOp.slope, UnaryOp.rate] using Represents.number (-1 : K)
  | exp => exact Smart.represents_unary .exp h
  | log => exact Smart.represents_div Represents.one h
  | sin => exact Smart.represents_unary .cos h
  | cos => exact Smart.represents_neg (Smart.represents_unary .sin h)
  | tanh =>
    have t := Smart.represents_unary .tanh h
    exact Smart.represents_sub Represents.one (Smart.represents_mul t t)
  | sqrt =>
    refine Smart.represents_div ?_ (Smart.represents_unary .sqrt h)
    simpa using Represents.number (1 / 2 : K)
  | abs =>
    have zero : (Expr.zero : Expr (Exact K)).Represents ρ env Q 0 := Represents.zero
    have c := Smart.represents_compare .ge h zero
    have minusOne : (const Scalar.minusOne : Expr (Exact K)).Represents ρ env Q (-1) := by
      simpa using Represents.number (-1 : K)
    have s := Smart.represents_select c Represents.one minusOne
    have value : UnaryOp.abs.rate x = if (if Comparison.ge.holds x 0 then (1 : K) else 0) = 0 then -1 else 1 := by
      by_cases nonneg : 0 ≤ x <;> simp [UnaryOp.rate, Comparison.holds, Scalar.lessEq, nonneg]
    rw [value]
    exact s
  | floor => exact Represents.zero

theorem represents_slopes (op : BinaryOp) (ha : a.Represents ρ env Q x) (hb : b.Represents ρ env Q y) :
    (op.slopes a b).1.Represents ρ env Q (op.rates x y).1 ∧ (op.slopes a b).2.Represents ρ env Q (op.rates x y).2 := by
  have minusOne : (const Scalar.minusOne : Expr (Exact K)).Represents ρ env Q (-1) := by
    simpa using Represents.number (-1 : K)
  have choice {c : Expr (Exact K)} {p : Prop} [Decidable p] (hc : c.Represents ρ env Q (if p then 1 else 0)) :
      (Smart.select c .one .zero).Represents ρ env Q (if p then 1 else 0) ∧
        (Smart.select c .zero .one).Represents ρ env Q (if p then 0 else 1) := by
    have first := Smart.represents_select hc Represents.one Represents.zero
    have second := Smart.represents_select hc Represents.zero Represents.one
    by_cases hp : p
    · simp only [hp, if_true, one_ne_zero, if_false] at first second ⊢
      exact ⟨first, second⟩
    · simp only [hp, if_false, if_true] at first second ⊢
      exact ⟨first, second⟩
  cases op with
  | add => exact ⟨Represents.one, Represents.one⟩
  | sub => exact ⟨Represents.one, minusOne⟩
  | mul => exact ⟨hb, ha⟩
  | div =>
    exact ⟨Smart.represents_div Represents.one hb,
      Smart.represents_div (Smart.represents_neg ha) (Smart.represents_mul hb hb)⟩
  | min =>
    have c := @choice _ (x ≤ y) _ (by simpa [Comparison.holds, Scalar.lessEq] using Smart.represents_compare .le ha hb)
    by_cases le : x ≤ y <;> simpa [BinaryOp.slopes, BinaryOp.rates, le] using c
  | max =>
    have c := @choice _ (y ≤ x) _ (by simpa [Comparison.holds, Scalar.lessEq] using Smart.represents_compare .ge ha hb)
    by_cases le : y ≤ x <;> simpa [BinaryOp.slopes, BinaryOp.rates, le] using c
  | pow =>
    exact ⟨Smart.represents_mul hb (Smart.represents_pow ha (Smart.represents_sub hb Represents.one)),
      Smart.represents_mul (Smart.represents_pow ha hb) (Smart.represents_unary .log ha)⟩

/-- The forward rule computes the derivative. -/
theorem represents_tangent {direction : Read (Exact K) → Option (Expr (Exact K))} (strict : ¬Q' .logic)
    (plain : e.Plain ρ env Q) (wider : ∀ a, Q a → Q' a)
    (directions : ∀ r : Read (Exact K), Q (.target r.target) → (∀ a ∈ r.args, a.Plain ρ env Q) →
      ((direction r).getD .zero).Represents ρ env Q' (τ r.target (position ρ env r.args))) :
    (e.tangent direction).Represents ρ env Q' (e.derivative ρ env τ) := by
  induction e with
  | const _ | var _ | rvar _ => exact Represents.zero
  | param p => exact directions ⟨.param p, []⟩ (by simpa using plain) (by simp)
  | call f args ih =>
    rw [plain_call] at plain
    exact directions ⟨.func f, args⟩ plain.1 plain.2
  | load b args ih =>
    rw [plain_load] at plain
    exact directions ⟨.buffer b, args⟩ plain.1 plain.2
  | unary op a ih =>
    rw [plain_unary] at plain
    exact Smart.represents_mul (represents_slope op (Represents.of_plain (plain.mono wider))) (ih plain)
  | binary op a b iha ihb =>
    rw [plain_binary] at plain
    have slopes := represents_slopes op (Represents.of_plain (plain.1.mono wider))
      (Represents.of_plain (plain.2.mono wider))
    exact Smart.represents_add (Smart.represents_mul slopes.1 (iha plain.1)) (Smart.represents_mul slopes.2 (ihb plain.2))
  | compare _ _ _ _ _ | and _ _ _ _ | or _ _ _ _ | not _ _ => exact Represents.zero
  | select c t f ihc iht ihf =>
    rw [plain_select] at plain
    exact Smart.represents_select (represents_simplify strict (plain.1.mono wider)) (iht plain.2.1) (ihf plain.2.2)

variable (ρ env τ)

/-- The entries of a backward accumulation paired with the changes of their reads. -/
def pairing (ps : List (Partial (Exact K))) : K :=
  (ps.map fun p => p.slope.value ρ env * τ p.read.target (position ρ env p.read.args)).sum

/-- The entries are plain, pair with the changes of their reads to `v`, and those that are not 0 are justified by `J`. -/
structure Collected (Q : Atom → Prop) (J : Target → List Int → Prop) (ps : List (Partial (Exact K))) (v : K) :
    Prop where
  slope : ∀ p ∈ ps, p.slope.Plain ρ env Q
  args : ∀ p ∈ ps, ∀ a ∈ p.read.args, a.Plain ρ env Q
  pairing : pairing ρ env τ ps = v
  justified : ∀ p ∈ ps, p.slope.value ρ env ≠ 0 → J p.read.target (position ρ env p.read.args)

variable {ρ env τ} {J : Target → List Int → Prop} {ps : List (Partial (Exact K))}

theorem Collected.nil : Collected ρ env τ Q J [] 0 := ⟨by simp, by simp, rfl, by simp⟩

theorem collected_cons {p : Partial (Exact K)} : Collected ρ env τ Q J (p :: ps) v ↔
    (p.slope.Plain ρ env Q ∧ (∀ a ∈ p.read.args, a.Plain ρ env Q) ∧
      (p.slope.value ρ env ≠ 0 → J p.read.target (position ρ env p.read.args))) ∧
    Collected ρ env τ Q J ps (v - p.slope.value ρ env * τ p.read.target (position ρ env p.read.args)) := by
  constructor
  · rintro ⟨slope, args, rfl, justified⟩
    simp only [List.forall_mem_cons] at slope args justified
    exact ⟨⟨slope.1, args.1, justified.1⟩, slope.2, args.2, by simp [Expr.pairing], justified.2⟩
  · rintro ⟨⟨slope, args, justified⟩, rest⟩
    refine ⟨by simpa using ⟨slope, rest.slope⟩, by simpa using ⟨args, rest.args⟩, ?_,
      by simpa using ⟨justified, rest.justified⟩⟩
    have tail := rest.pairing
    simp only [Expr.pairing, List.map_cons, List.sum_cons] at tail ⊢
    rw [tail]
    ring

theorem Collected.record {read : Read (Exact K)} {slope : Expr (Exact K)} (h : Collected ρ env τ Q J ps v)
    (args : ∀ a ∈ read.args, a.Plain ρ env Q) (hs : slope.Represents ρ env Q x)
    (just : x ≠ 0 → J read.target (position ρ env read.args)) :
    Collected ρ env τ Q J (Partial.record read slope ps) (v + x * τ read.target (position ρ env read.args)) := by
  induction ps generalizing v with
  | nil =>
    refine collected_cons.mpr ⟨⟨hs.plain, args, by rwa [hs.value]⟩, ?_⟩
    obtain rfl : v = 0 := h.pairing.symm
    rw [hs.value, zero_add, sub_self]
    exact Collected.nil
  | cons p ps ih =>
    obtain ⟨⟨plain, plainArgs, justified⟩, rest⟩ := collected_cons.mp h
    unfold Partial.record
    split
    · rename_i same
      simp only [Read.same, Bool.and_eq_true, decide_eq_true_eq] at same
      have at' := position_of_sameList same.2 plainArgs args
      have sum := Smart.represents_add (Represents.of_plain plain) hs
      refine collected_cons.mpr ⟨⟨sum.plain, plainArgs, fun nonzero => ?_⟩, ?_⟩
      · by_cases old : p.slope.value ρ env = 0
        · have new : x ≠ 0 := by
            intro zero
            exact nonzero (by rw [sum.value, old, zero, add_zero])
          rw [same.1, at']
          exact just new
        · exact justified old
      · rw [sum.value, same.1, at']
        rw [same.1, at'] at rest
        convert rest using 1
        ring
    · refine collected_cons.mpr ⟨⟨plain, plainArgs, justified⟩, ?_⟩
      convert ih rest using 1
      ring

/-- Backward accumulation adds the incoming adjoint times the derivative. -/
theorem Collected.accumulate {adjoint : Expr (Exact K)} (strict : ¬Q .logic) (h : Collected ρ env τ Q J ps v)
    (plain : e.Plain ρ env Q)
    (ha : adjoint.Represents ρ env Q x) (just : x ≠ 0 → ∀ t p, e.Performs ρ env t p → J t p) :
    Collected ρ env τ Q J (e.accumulate adjoint ps) (v + x * e.derivative ρ env τ) := by
  induction e generalizing adjoint ps v x with
  | const _ | var _ | rvar _ => simpa [Expr.accumulate, derivative] using h
  | compare _ _ _ _ _ | and _ _ _ _ | or _ _ _ _ | not _ _ => simpa [Expr.accumulate, derivative] using h
  | param p =>
    unfold Expr.accumulate
    split
    · rename_i zero
      simpa [ha.of_isZero zero] using h
    · exact h.record (by simp) ha fun nonzero => just nonzero _ _ ⟨_, _, .self _, rfl, rfl, rfl⟩
  | call f args ih =>
    unfold Expr.accumulate
    rw [plain_call] at plain
    split
    · rename_i zero
      simpa [ha.of_isZero zero] using h
    · exact h.record plain.2 ha fun nonzero => just nonzero _ _ ⟨_, _, .self _, rfl, rfl, rfl⟩
  | load b args ih =>
    unfold Expr.accumulate
    rw [plain_load] at plain
    split
    · rename_i zero
      simpa [ha.of_isZero zero] using h
    · exact h.record plain.2 ha fun nonzero => just nonzero _ _ ⟨_, _, .self _, rfl, rfl, rfl⟩
  | unary op a ih =>
    unfold Expr.accumulate
    rw [plain_unary] at plain
    split
    · rename_i zero
      simpa [ha.of_isZero zero] using h
    · have inner := Smart.represents_mul ha (represents_slope op (Represents.of_plain plain))
      have step := ih h plain inner fun nonzero t p performs =>
        just (left_ne_zero_of_mul nonzero) t p (performs.map fun _ => .unary)
      rwa [mul_assoc] at step
  | binary op a b iha ihb =>
    unfold Expr.accumulate
    rw [plain_binary] at plain
    split
    · rename_i zero
      simpa [ha.of_isZero zero] using h
    · have slopes := represents_slopes op (Represents.of_plain plain.1) (Represents.of_plain plain.2)
      have left := iha h plain.1 (Smart.represents_mul ha slopes.1) fun nonzero t p performs =>
        just (left_ne_zero_of_mul nonzero) t p (performs.map fun _ => .binaryLeft)
      have both := ihb left plain.2 (Smart.represents_mul ha slopes.2) fun nonzero t p performs =>
        just (left_ne_zero_of_mul nonzero) t p (performs.map fun _ => .binaryRight)
      convert both using 1
      simp only [derivative]
      ring
  | select c t f ihc iht ihf =>
    unfold Expr.accumulate
    rw [plain_select] at plain
    split
    · rename_i zero
      simpa [ha.of_isZero zero] using h
    · have hc := represents_simplify strict plain.1
      have onTrue := iht h plain.2.1 (Smart.represents_select hc ha Represents.zero) fun nonzero t p performs => by
        by_cases zero : c.value ρ env = 0
        · simp [zero] at nonzero
        · rw [if_neg zero] at nonzero
          exact just nonzero t p (performs.map fun _ => .onTrue (by simpa using zero))
      have both := ihf onTrue plain.2.2 (Smart.represents_select hc Represents.zero ha) fun nonzero t p performs => by
        by_cases zero : c.value ρ env = 0
        · rw [if_pos zero] at nonzero
          exact just nonzero t p (performs.map fun _ => .onFalse (by simpa using zero))
        · simp [zero] at nonzero
      convert both using 1
      simp only [derivative]
      by_cases zero : c.value ρ env = 0 <;> simp [zero]

/-- The entries of the backward rule pair with the changes of their reads to the derivative. -/
theorem collected_partials (τ : Target → List Int → K) (strict : ¬Q .logic) (plain : e.Plain ρ env Q) :
    Collected ρ env τ Q (e.Performs ρ env) e.partials (e.derivative ρ env τ) := by
  have empty : Collected ρ env τ Q (e.Performs ρ env) [] 0 := Collected.nil
  have all := empty.accumulate strict plain Represents.one fun _ _ _ performs => performs
  rw [zero_add, one_mul] at all
  refine ⟨fun p mem => all.slope p (List.mem_filter.mp mem).1, fun p mem => all.args p (List.mem_filter.mp mem).1, ?_,
    fun p mem => all.justified p (List.mem_filter.mp mem).1⟩
  rw [← all.pairing]
  have vanish : ∀ p ∈ e.accumulate .one [], p.slope.isZero = true → p.slope.value ρ env = 0 := fun p mem zero =>
    (Represents.of_plain (all.slope p mem)).of_isZero zero
  unfold partials
  generalize e.accumulate .one [] = ps at vanish
  induction ps with
  | nil => rfl
  | cons p ps ih =>
    have rest := ih fun q mem => vanish q (List.mem_cons_of_mem _ mem)
    by_cases zero : p.slope.isZero
    · rw [List.filter_cons_of_neg (by simp [zero]), rest]
      simp [pairing, vanish p List.mem_cons_self zero]
    · rw [List.filter_cons_of_pos (by simp [zero])]
      simpa [pairing] using rest

/-! ### The reads of the entries -/

section Reads

variable {κ : Type} [Scalar κ]

omit [Scalar κ] in
theorem mem_reads_of_subset {e a : Expr κ} (sub : ∀ x ∈ a.nodes, x ∈ e.nodes) {r : Read κ} (h : r ∈ a.reads) :
    r ∈ e.reads := by
  obtain ⟨x, mem, found⟩ := List.mem_filterMap.mp h
  exact List.mem_filterMap.mpr ⟨x, sub x mem, found⟩

theorem mem_record {read : Read κ} {slope : Expr κ} {ps : List (Partial κ)} {p : Partial κ}
    (h : p ∈ Partial.record read slope ps) : p.read = read ∨ ∃ q ∈ ps, q.read = p.read := by
  induction ps with
  | nil => exact Or.inl (by simp_all [Partial.record])
  | cons q ps ih =>
    unfold Partial.record at h
    split at h
    · rcases List.mem_cons.mp h with rfl | h
      · exact Or.inr ⟨q, List.mem_cons_self, rfl⟩
      · exact Or.inr ⟨p, List.mem_cons_of_mem _ h, rfl⟩
    · rcases List.mem_cons.mp h with rfl | h
      · exact Or.inr ⟨p, List.mem_cons_self, rfl⟩
      · rcases ih h with same | ⟨q', mem, same⟩
        · exact Or.inl same
        · exact Or.inr ⟨q', List.mem_cons_of_mem _ mem, same⟩

theorem read_of_mem_accumulate {e adjoint : Expr κ} {ps : List (Partial κ)} {p : Partial κ}
    (h : p ∈ e.accumulate adjoint ps) : p.read ∈ e.reads ∨ ∃ q ∈ ps, q.read = p.read := by
  induction e generalizing adjoint ps p with
  | const _ | var _ | rvar _ | compare _ _ _ _ _ | and _ _ _ _ | or _ _ _ _ | not _ _ =>
    exact Or.inr ⟨p, by simpa [accumulate] using h, rfl⟩
  | param _ | call _ _ _ | load _ _ _ =>
    unfold accumulate at h
    split at h
    · exact Or.inr ⟨p, h, rfl⟩
    · refine (mem_record h).imp_left fun same => ?_
      rw [same]
      exact List.mem_filterMap.mpr ⟨_, mem_nodes_self _, rfl⟩
  | unary op a ih =>
    unfold accumulate at h
    split at h
    · exact Or.inr ⟨p, h, rfl⟩
    · exact (ih h).imp_left (mem_reads_of_subset fun x hx => by simp [nodes, hx])
  | binary op a b iha ihb =>
    unfold accumulate at h
    split at h
    · exact Or.inr ⟨p, h, rfl⟩
    · rcases ihb h with mem | ⟨q, mem, same⟩
      · exact Or.inl (mem_reads_of_subset (fun x hx => by simp [nodes, hx]) mem)
      · rw [← same]
        exact (iha mem).imp_left (mem_reads_of_subset fun x hx => by simp [nodes, hx])
  | select c t f ihc iht ihf =>
    unfold accumulate at h
    split at h
    · exact Or.inr ⟨p, h, rfl⟩
    · rcases ihf h with mem | ⟨q, mem, same⟩
      · exact Or.inl (mem_reads_of_subset (fun x hx => by simp [nodes, hx]) mem)
      · rw [← same]
        exact (iht mem).imp_left (mem_reads_of_subset fun x hx => by simp [nodes, hx])

theorem read_mem_of_mem_partials {e : Expr κ} {p : Partial κ} (h : p ∈ e.partials) : p.read ∈ e.reads := by
  rcases read_of_mem_accumulate (List.mem_filter.mp h).1 with mem | ⟨_, none, _⟩
  · exact mem
  · cases none

end Reads

end Expr

end ArrayDiff
