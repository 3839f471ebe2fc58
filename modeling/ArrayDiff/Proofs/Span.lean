import Mathlib.Algebra.Order.Field.Basic
import Mathlib.Tactic.Linarith
import ArrayDiff.Proofs.Number
import ArrayDiff.Span.Basic

/-!
# Ranges hold values

In exact arithmetic the range that an operator makes of ranges holds the value that it makes of their values, where the
logarithm is taken of positive numbers and the square root of numbers that are not negative.
-/

namespace ArrayDiff

variable {K : Type} [Field K] [LinearOrder K] [IsStrictOrderedRing K] [FloorRing K] [Transcendental K]

namespace Exact

/-- A lower end of a range that holds `v`. -/
def Below (v : K) : Exact K → Prop
  | number x => x ≤ v
  | bottom => True
  | _ => False

/-- An upper end of a range that holds `v`. -/
def Above (v : K) : Exact K → Prop
  | number x => v ≤ x
  | top => True
  | _ => False

variable {a b c d : Exact K} {v w : K}

section

omit [Field K] [IsStrictOrderedRing K] [FloorRing K] [Transcendental K]

@[simp] theorem below_number (x : K) : Below v (number x) ↔ x ≤ v := Iff.rfl

@[simp] theorem above_number (x : K) : Above v (number x) ↔ v ≤ x := Iff.rfl

@[simp] theorem below_bottom : Below v bottom := trivial

@[simp] theorem above_top : Above v top := trivial

@[simp] theorem not_below_top : ¬Below v top := id

@[simp] theorem not_above_bottom : ¬Above v bottom := id

@[simp] theorem not_below_undefined : ¬Below v undefined := id

@[simp] theorem not_above_undefined : ¬Above v undefined := id

theorem not_less_of_mem (lo : Below v a) (hi : Above v b) : b.less a = false := by
  cases a <;> cases b <;> simp_all [Exact.less]
  exact lo.trans hi

theorem below_min_left (h : Below v a) (b : Exact K) : Below v (a.min b) := by
  cases a <;> cases b <;> simp_all [Exact.min, isUndefined, Exact.lessEq, Exact.less, Exact.equal]
  split
  · exact h
  · rename_i not
    simp only [not_or, not_lt] at not
    exact not.1.trans h

theorem below_min_right (a : Exact K) (h : Below v b) : Below v (a.min b) := by
  cases a <;> cases b <;> simp_all [Exact.min, isUndefined, Exact.lessEq, Exact.less, Exact.equal]
  split
  · rename_i le
    rcases le with less | same
    · exact less.le.trans h
    · exact same.le.trans h
  · exact h

theorem above_max_left (h : Above v a) (b : Exact K) : Above v (a.max b) := by
  cases a <;> cases b <;> simp_all [Exact.max, isUndefined, Exact.lessEq, Exact.less, Exact.equal]
  split
  · exact h
  · rename_i not
    simp only [not_or, not_lt] at not
    exact h.trans not.1

theorem above_max_right (a : Exact K) (h : Above v b) : Above v (a.max b) := by
  cases a <;> cases b <;> simp_all [Exact.max, isUndefined, Exact.lessEq, Exact.less, Exact.equal]
  split
  · rename_i le
    rcases le with less | same
    · exact h.trans less.le
    · exact h.trans same.le
  · exact h

theorem Below.mono (h : Below v a) (le : v ≤ w) : Below w a := by
  cases a with
  | number x => exact le_trans h le
  | _ => exact h

theorem Above.mono (h : Above v a) (le : w ≤ v) : Above w a := by
  cases a with
  | number x => exact le_trans le h
  | _ => exact h

theorem min_eq (a b : Exact K) : a.min b = a ∨ a.min b = b := by
  unfold Exact.min
  split
  · exact Or.inr rfl
  split
  · exact Or.inl rfl
  split
  · exact Or.inl rfl
  · exact Or.inr rfl

theorem max_eq (a b : Exact K) : a.max b = a ∨ a.max b = b := by
  unfold Exact.max
  split
  · exact Or.inr rfl
  split
  · exact Or.inl rfl
  split
  · exact Or.inl rfl
  · exact Or.inr rfl

theorem below_min (ha : Below v a) (hb : Below w b) : Below (min v w) (a.min b) := by
  rcases min_choice v w with same | same
  · rw [same]
    exact below_min_left ha b
  · rw [same]
    exact below_min_right a hb

theorem above_min (ha : Above v a) (hb : Above w b) : Above (min v w) (a.min b) := by
  rcases min_eq a b with same | same
  · rw [same]
    exact ha.mono (min_le_left v w)
  · rw [same]
    exact hb.mono (min_le_right v w)

theorem below_max (ha : Below v a) (hb : Below w b) : Below (max v w) (a.max b) := by
  rcases max_eq a b with same | same
  · rw [same]
    exact ha.mono (le_max_left v w)
  · rw [same]
    exact hb.mono (le_max_right v w)

theorem above_max (ha : Above v a) (hb : Above w b) : Above (max v w) (a.max b) := by
  rcases max_choice v w with same | same
  · rw [same]
    exact above_max_left ha b
  · rw [same]
    exact above_max_right a hb

end

section

omit [FloorRing K] [Transcendental K]

theorem above_neg : Above (-v) a.neg ↔ Below v a := by
  cases a <;> simp [Exact.neg, map]

theorem below_neg : Below (-v) a.neg ↔ Above v a := by
  cases a <;> simp [Exact.neg, map]

theorem below_add (ha : Below v a) (hb : Below w b) : Below (v + w) (a.add b) := by
  cases a <;> cases b <;> simp_all [Exact.add]
  exact add_le_add ha hb

theorem above_add (ha : Above v a) (hb : Above w b) : Above (v + w) (a.add b) := by
  cases a <;> cases b <;> simp_all [Exact.add]
  exact add_le_add ha hb

end

/-! ### Products and quotients -/

section

omit [IsStrictOrderedRing K] [FloorRing K] [Transcendental K]

theorem infinite_of_pos {x : K} (h : 0 < x) : infinite x = top := if_pos h

theorem infinite_of_neg {x : K} (h : x < 0) : infinite x = bottom := by
  unfold infinite
  rw [if_neg (not_lt_of_gt h), if_pos h]

theorem infinite_zero : infinite (0 : K) = undefined := by simp [infinite]

end

section

omit [FloorRing K] [Transcendental K]

theorem below_mul_number {x : K} (hc : Below w c) (hd : Above w d)
    (definedC : ((number x).mul c).isUndefined = false) (definedD : ((number x).mul d).isUndefined = false) :
    Below (x * w) ((number x).mul c) ∨ Below (x * w) ((number x).mul d) := by
  rcases lt_trichotomy x 0 with neg | rfl | pos
  · right
    cases d with
    | number y => exact mul_le_mul_of_nonpos_left hd neg.le
    | top => simp [Exact.mul, infinite_of_neg neg]
    | bottom => exact absurd hd not_above_bottom
    | undefined => exact absurd hd not_above_undefined
  · left
    cases c with
    | number y => simp [Exact.mul]
    | top => exact absurd hc not_below_top
    | bottom => simp [Exact.mul, infinite_zero, isUndefined] at definedC
    | undefined => exact absurd hc not_below_undefined
  · left
    cases c with
    | number y => exact mul_le_mul_of_nonneg_left hc pos.le
    | top => exact absurd hc not_below_top
    | bottom => simp [Exact.mul, infinite_of_neg (neg_lt_zero.mpr pos)]
    | undefined => exact absurd hc not_below_undefined

theorem below_mul (ha : Below v a) (hb : Above v b) (hc : Below w c) (hd : Above w d)
    (defined : ∀ x ∈ [a.mul c, a.mul d, b.mul c, b.mul d], x.isUndefined = false) :
    ∃ x ∈ [a.mul c, a.mul d, b.mul c, b.mul d], Below (v * w) x := by
  have pick {x : K} (e : Exact K) (same : e = number x) (mem : e.mul c ∈ [a.mul c, a.mul d, b.mul c, b.mul d] ∧
      e.mul d ∈ [a.mul c, a.mul d, b.mul c, b.mul d]) (le : x * w ≤ v * w) :
      ∃ x ∈ [a.mul c, a.mul d, b.mul c, b.mul d], Below (v * w) x := by
    subst same
    rcases below_mul_number hc hd (defined _ mem.1) (defined _ mem.2) with h | h
    · exact ⟨_, mem.1, h.mono le⟩
    · exact ⟨_, mem.2, h.mono le⟩
  rcases le_total 0 w with nonneg | nonpos
  · cases a with
    | number x => exact pick (number x) rfl (by simp) (mul_le_mul_of_nonneg_right ha nonneg)
    | bottom =>
      refine ⟨_, List.mem_cons_of_mem _ List.mem_cons_self, ?_⟩
      cases d with
      | number y =>
        rcases (nonneg.trans hd).lt_or_eq with pos | rfl
        · simp [Exact.mul, infinite_of_neg (neg_lt_zero.mpr pos)]
        · have := defined _ (List.mem_cons_of_mem _ List.mem_cons_self)
          simp [Exact.mul, infinite_zero, isUndefined] at this
      | top => simp [Exact.mul]
      | bottom => exact absurd hd not_above_bottom
      | undefined => exact absurd hd not_above_undefined
    | top => exact absurd ha not_below_top
    | undefined => exact absurd ha not_below_undefined
  · cases b with
    | number x => exact pick (number x) rfl (by simp) (mul_le_mul_of_nonpos_right hb nonpos)
    | top =>
      have third : Exact.mul top c ∈ [a.mul c, a.mul d, Exact.mul top c, Exact.mul top d] := by simp
      refine ⟨_, third, ?_⟩
      cases c with
      | number y =>
        rcases (le_trans hc nonpos).lt_or_eq with neg | rfl
        · simp [Exact.mul, infinite_of_neg neg]
        · have := defined _ third
          simp [Exact.mul, infinite_zero, isUndefined] at this
      | bottom => simp [Exact.mul]
      | top => exact absurd hc not_below_top
      | undefined => exact absurd hc not_below_undefined
    | bottom => exact absurd hb not_above_bottom
    | undefined => exact absurd hb not_above_undefined

theorem infinite_neg (x : K) : infinite (-x) = (infinite x).neg := by
  rcases lt_trichotomy x 0 with neg | rfl | pos
  · rw [infinite_of_neg neg, infinite_of_pos (neg_pos.mpr neg)]
    rfl
  · rw [neg_zero, infinite_zero]
    rfl
  · rw [infinite_of_pos pos, infinite_of_neg (neg_lt_zero.mpr pos)]
    rfl

end

section

omit [LinearOrder K] [IsStrictOrderedRing K] [FloorRing K] [Transcendental K]

@[simp] theorem neg_number (x : K) : (number x).neg = number (-x) := rfl

@[simp] theorem neg_top : (top : Exact K).neg = bottom := rfl

@[simp] theorem neg_bottom : (bottom : Exact K).neg = top := rfl

@[simp] theorem neg_undefined : (undefined : Exact K).neg = undefined := rfl

theorem neg_involutive (a : Exact K) : a.neg.neg = a := by
  cases a <;> simp

@[simp] theorem isUndefined_neg (a : Exact K) : a.neg.isUndefined = a.isUndefined := by
  cases a <;> rfl

end

section

omit [FloorRing K] [Transcendental K]

theorem mul_of_neg (a c : Exact K) : a.neg.mul c = (a.mul c).neg := by
  cases a <;> cases c <;> simp [Exact.mul, infinite_neg, neg_involutive]

theorem div_of_neg (a c : Exact K) : a.neg.div c = (a.div c).neg := by
  cases a <;> cases c <;> simp [Exact.div, infinite_neg, neg_involutive, neg_div]

theorem above_mul (ha : Below v a) (hb : Above v b) (hc : Below w c) (hd : Above w d)
    (defined : ∀ x ∈ [a.mul c, a.mul d, b.mul c, b.mul d], x.isUndefined = false) :
    ∃ x ∈ [a.mul c, a.mul d, b.mul c, b.mul d], Above (v * w) x := by
  have mirrored : ∀ x ∈ [b.neg.mul c, b.neg.mul d, a.neg.mul c, a.neg.mul d], x.isUndefined = false := by
    simp only [mul_of_neg]
    simpa [and_comm, and_assoc, and_left_comm] using defined
  obtain ⟨x, mem, bound⟩ := below_mul (below_neg.mpr hb) (above_neg.mpr ha) hc hd mirrored
  rw [neg_mul] at bound
  refine ⟨x.neg, ?_, ?_⟩
  · simp only [mul_of_neg, List.mem_cons, List.not_mem_nil, or_false] at mem ⊢
    rcases mem with rfl | rfl | rfl | rfl <;> simp [neg_involutive]
  · rw [← neg_involutive x] at bound
    exact below_neg.mp bound

/-- One of the quotients of ends bounds the quotient of values from below, for divisors of one sign. -/
theorem below_div (ha : Below v a) (hb : Above v b) (hc : Below w c) (hd : Above w d)
    (sign : (number 0).less c = true ∨ d.less (number 0) = true) :
    ∃ x ∈ [a.div c, a.div d, b.div c, b.div d], Below (v / w) x := by
  rcases sign with pos | neg
  · cases c with
    | number y =>
      have y_pos : 0 < y := by simpa [Exact.less] using pos
      have w_pos : 0 < w := y_pos.trans_le hc
      cases a with
      | number x =>
        have first : x / w ≤ v / w := div_le_div_of_nonneg_right ha w_pos.le
        rcases le_total 0 x with nonneg | nonpos
        · refine ⟨(number x).div d, by simp, ?_⟩
          cases d with
          | number z => exact (div_le_div_of_nonneg_left nonneg w_pos hd).trans first
          | top => exact (div_nonneg nonneg w_pos.le).trans first
          | bottom => exact absurd hd not_above_bottom
          | undefined => exact absurd hd not_above_undefined
        · refine ⟨(number x).div (number y), by simp, ?_⟩
          refine le_trans ?_ first
          have flipped : -x / w ≤ -x / y := div_le_div_of_nonneg_left (neg_nonneg.mpr nonpos) y_pos hc
          rw [neg_div, neg_div] at flipped
          exact neg_le_neg_iff.mp flipped
      | bottom =>
        refine ⟨bottom.div (number y), by simp, ?_⟩
        simp [Exact.div, infinite_of_neg (neg_lt_zero.mpr y_pos)]
      | top => exact absurd ha not_below_top
      | undefined => exact absurd ha not_below_undefined
    | top => exact absurd hc not_below_top
    | bottom => simp [Exact.less] at pos
    | undefined => exact absurd hc not_below_undefined
  · cases d with
    | number y =>
      have y_neg : y < 0 := by simpa [Exact.less] using neg
      have w_neg : w < 0 := lt_of_le_of_lt hd y_neg
      cases b with
      | number x =>
        have first : x / w ≤ v / w := div_le_div_of_nonpos_of_le w_neg.le hb
        rcases le_total 0 x with nonneg | nonpos
        · refine ⟨(number x).div (number y), by simp, ?_⟩
          refine le_trans ?_ first
          have flipped : x / -w ≤ x / -y := div_le_div_of_nonneg_left nonneg (neg_pos.mpr y_neg) (neg_le_neg hd)
          rw [div_neg, div_neg] at flipped
          exact neg_le_neg_iff.mp flipped
        · refine ⟨(number x).div c, by simp, ?_⟩
          cases c with
          | number z =>
            refine le_trans ?_ first
            have flipped : -x / -z ≤ -x / -w :=
              div_le_div_of_nonneg_left (neg_nonneg.mpr nonpos) (neg_pos.mpr w_neg) (neg_le_neg hc)
            rwa [neg_div_neg_eq, neg_div_neg_eq] at flipped
          | bottom => exact (div_nonneg_of_nonpos nonpos w_neg.le).trans first
          | top => exact absurd hc not_below_top
          | undefined => exact absurd hc not_below_undefined
      | top =>
        refine ⟨top.div (number y), by simp, ?_⟩
        simp [Exact.div, infinite_of_neg y_neg]
      | bottom => exact absurd hb not_above_bottom
      | undefined => exact absurd hb not_above_undefined
    | top => simp [Exact.less] at neg
    | bottom => exact absurd hd not_above_bottom
    | undefined => exact absurd hd not_above_undefined

theorem above_div (ha : Below v a) (hb : Above v b) (hc : Below w c) (hd : Above w d)
    (sign : (number 0).less c = true ∨ d.less (number 0) = true) :
    ∃ x ∈ [a.div c, a.div d, b.div c, b.div d], Above (v / w) x := by
  obtain ⟨x, mem, bound⟩ := below_div (below_neg.mpr hb) (above_neg.mpr ha) hc hd sign
  rw [neg_div] at bound
  refine ⟨x.neg, ?_, ?_⟩
  · simp only [div_of_neg, List.mem_cons, List.not_mem_nil, or_false] at mem ⊢
    rcases mem with rfl | rfl | rfl | rfl <;> simp [neg_involutive]
  · rw [← neg_involutive x] at bound
    exact below_neg.mp bound

end

end Exact

namespace Span

open Exact

variable {s t : Span (Exact K)} {v w : K}

/-- The value lies in the range. -/
structure Holds (s : Span (Exact K)) (v : K) : Prop where
  lo : Below v s.lo
  hi : Above v s.hi

omit [IsStrictOrderedRing K] in
theorem Holds.not_isEmpty (h : s.Holds v) : s.isEmpty = false := not_less_of_mem h.lo h.hi

omit [IsStrictOrderedRing K] in
theorem holds_unbounded (v : K) : (unbounded : Span (Exact K)).Holds v := ⟨trivial, trivial⟩

omit [Field K] [IsStrictOrderedRing K] [FloorRing K] [Transcendental K] in
theorem holds_point (x : K) : (point (number x) : Span (Exact K)).Holds x := ⟨le_refl x, le_refl x⟩

theorem Holds.negate (h : s.Holds v) : s.negate.Holds (-v) := ⟨below_neg.mpr h.hi, above_neg.mpr h.lo⟩

omit [IsStrictOrderedRing K] in
theorem holds_union (h : s.Holds v ∨ t.Holds v) : (s.union t).Holds v := by
  unfold union
  by_cases emptyS : s.isEmpty = true
  · rw [if_pos emptyS]
    refine h.resolve_left fun held => ?_
    rw [held.not_isEmpty] at emptyS
    cases emptyS
  rw [if_neg emptyS]
  by_cases emptyT : t.isEmpty = true
  · rw [if_pos emptyT]
    refine h.resolve_right fun held => ?_
    rw [held.not_isEmpty] at emptyT
    cases emptyT
  rw [if_neg emptyT]
  rcases h with held | held
  · exact ⟨below_min_left held.lo _, above_max_left held.hi _⟩
  · exact ⟨below_min_right _ held.lo, above_max_right _ held.hi⟩

omit [Field K] [IsStrictOrderedRing K] [FloorRing K] [Transcendental K] in
theorem below_map {f : K → K} {limit : Exact K} (above : Exact K) {a : Exact K} (h : Below v a)
    (mono : ∀ x, a = number x → x ≤ v → f x ≤ f v) (start : a = bottom → Below (f v) limit) :
    Below (f v) (map f limit above a) := by
  cases a with
  | number x => exact mono x rfl h
  | bottom => exact start rfl
  | top => exact absurd h not_below_top
  | undefined => exact absurd h not_below_undefined

omit [Field K] [IsStrictOrderedRing K] [FloorRing K] [Transcendental K] in
theorem above_map {f : K → K} {limit : Exact K} (below : Exact K) {a : Exact K} (h : Above v a)
    (mono : ∀ x, a = number x → v ≤ x → f v ≤ f x) (finish : a = top → Above (f v) limit) :
    Above (f v) (map f below limit a) := by
  cases a with
  | number x => exact mono x rfl h
  | top => exact finish rfl
  | bottom => exact absurd h not_above_bottom
  | undefined => exact absurd h not_above_undefined

section

omit [IsStrictOrderedRing K]

theorem zero_eq : (Scalar.zero : Exact K) = number 0 := congrArg number Int.cast_zero

theorem one_eq : (Scalar.one : Exact K) = number 1 := congrArg number Int.cast_one

theorem minusOne_eq : (Scalar.minusOne : Exact K) = number (-1) := congrArg number (by simp)

end

section

omit [Field K] [IsStrictOrderedRing K] [FloorRing K] [Transcendental K]

theorem lessEq_number (x y : K) : (number x).lessEq (number y) = true ↔ x ≤ y := by
  simp [Exact.lessEq, Exact.less, Exact.equal, le_iff_lt_or_eq]

theorem below_of_lessEq {a : Exact K} {v : K} (le : a.lessEq (number v) = true) : Below v a := by
  cases a with
  | number x => exact (lessEq_number x v).mp le
  | bottom => trivial
  | top | undefined => cases le

theorem above_of_lessEq {a : Exact K} {v : K} (le : (number v).lessEq a = true) : Above v a := by
  cases a with
  | number x => exact (lessEq_number v x).mp le
  | top => trivial
  | bottom | undefined => cases le

theorem eq_of_equal_number {a : Exact K} {v : K} (same : (number v).equal a = true) : number v = a := by
  cases a with
  | number x => rw [of_decide_eq_true same]
  | _ => cases same

theorem le_of_lessEq {a : Exact K} {x : K} (le : (number x).lessEq a = true) (h : Below v a) : x ≤ v := by
  cases a with
  | number y => exact ((lessEq_number x y).mp le).trans h
  | bottom => simp [Exact.lessEq, Exact.less, Exact.equal] at le
  | top => exact absurd h not_below_top
  | undefined => exact absurd h not_below_undefined

theorem ge_of_lessEq {a : Exact K} {x : K} (le : a.lessEq (number x) = true) (h : Above v a) : v ≤ x := by
  cases a with
  | number y => exact le_trans h ((lessEq_number y x).mp le)
  | top => simp [Exact.lessEq, Exact.less, Exact.equal] at le
  | bottom => exact absurd h not_above_bottom
  | undefined => exact absurd h not_above_undefined

end

theorem Holds.unary (op : UnaryOp) (h : s.Holds v) (positive : op = .log → 0 < v) (nonneg : op = .sqrt → 0 ≤ v) :
    (s.unary op).Holds (op.apply v) := by
  obtain ⟨lo, hi⟩ := s
  obtain ⟨below, above⟩ := h
  cases op with
  | neg => exact Holds.negate ⟨below, above⟩
  | exp =>
    exact ⟨below_map _ below (fun x _ le => Transcendental.exp_mono le) fun _ => Transcendental.exp_nonneg v,
      above_map _ above (fun x _ le => Transcendental.exp_mono le) fun _ => trivial⟩
  | tanh =>
    exact ⟨below_map _ below (fun x _ le => Transcendental.tanh_mono le) fun _ => (Transcendental.tanh_mem v).1,
      above_map _ above (fun x _ le => Transcendental.tanh_mono le) fun _ => (Transcendental.tanh_mem v).2⟩
  | floor =>
    have mono {x y : K} (le : x ≤ y) : ((⌊x⌋ : ℤ) : K) ≤ (⌊y⌋ : ℤ) := Int.cast_le.mpr (Int.floor_le_floor le)
    exact ⟨below_map _ below (fun x _ le => mono le) fun _ => trivial,
      above_map _ above (fun x _ le => mono le) fun _ => trivial⟩
  | log =>
    have v_pos := positive rfl
    have upper : Above (Transcendental.log v) (map Transcendental.log undefined top hi) :=
      above_map _ above (fun x _ le => Transcendental.log_mono v_pos le) fun _ => trivial
    unfold Span.unary
    simp only
    split
    · rename_i pos
      rw [zero_eq] at pos
      refine ⟨below_map _ below (fun x same le => ?_) fun same => ?_, upper⟩
      · subst same
        exact Transcendental.log_mono (of_decide_eq_true pos) le
      · subst same
        cases pos
    · exact ⟨trivial, upper⟩
  | sqrt =>
    have v_nonneg := nonneg rfl
    unfold Span.unary
    simp only [zero_eq]
    have lower : Below v (Exact.max lo (number 0)) := by
      have both := below_max below (show Below (0 : K) (number 0) from le_refl 0)
      rwa [max_eq_left v_nonneg] at both
    have upper : Above v (Exact.max hi (number 0)) := above_max_left above _
    have clipped : ∀ x, Exact.max lo (number 0) = number x → 0 ≤ x := by
      intro x same
      have zero := above_max_right lo (show Above (0 : K) (number 0) from le_refl 0)
      rwa [same] at zero
    refine ⟨below_map _ lower (fun x same le => Transcendental.sqrt_mono (clipped x same) le) fun same => ?_,
      above_map _ upper (fun x _ le => Transcendental.sqrt_mono v_nonneg le) fun _ => trivial⟩
    have zero := above_max_right lo (show Above (0 : K) (number 0) from le_refl 0)
    change Above 0 (Scalar.max lo (number 0)) at zero
    rw [same] at zero
    exact absurd zero not_above_bottom
  | sin =>
    unfold Span.unary
    simp only [minusOne_eq, one_eq]
    exact ⟨(Transcendental.sin_mem v).1, (Transcendental.sin_mem v).2⟩
  | cos =>
    unfold Span.unary
    simp only [minusOne_eq, one_eq]
    exact ⟨(Transcendental.cos_mem v).1, (Transcendental.cos_mem v).2⟩
  | abs =>
    unfold Span.unary
    simp only [zero_eq]
    change (if Exact.lessEq (number 0) lo = true then _ else if Exact.lessEq hi (number 0) = true then _ else _ :
      Span (Exact K)).Holds (if 0 ≤ v then v else -v)
    by_cases positive : Exact.lessEq (number 0) lo = true
    · rw [if_pos positive, if_pos (le_of_lessEq positive below)]
      exact ⟨below, above⟩
    rw [if_neg positive]
    by_cases negative : Exact.lessEq hi (number 0) = true
    · have nonpos := ge_of_lessEq negative above
      have flipped : (if 0 ≤ v then v else -v) = -v := by
        split
        · rename_i nonneg
          rw [le_antisymm nonpos nonneg, neg_zero]
        · rfl
      rw [if_pos negative, flipped]
      exact Holds.negate ⟨below, above⟩
    rw [if_neg negative]
    split
    · rename_i nonneg
      exact ⟨nonneg, above_max_left above _⟩
    · rename_i not
      exact ⟨neg_nonneg.mpr (le_of_not_ge not), above_max_right _ (above_neg.mpr below)⟩

omit [IsStrictOrderedRing K] in
/-- Four corners, of which some bound the value from below and above. -/
theorem holds_ofCorners {a b c d : Exact K}
    (lower : (∀ x ∈ [a, b, c, d], x.isUndefined = false) → ∃ x ∈ [a, b, c, d], Below v x)
    (upper : (∀ x ∈ [a, b, c, d], x.isUndefined = false) → ∃ x ∈ [a, b, c, d], Above v x) :
    (ofCorners a b c d).Holds v := by
  unfold ofCorners
  simp only
  split
  · exact holds_unbounded v
  rename_i defined
  have all : ∀ x ∈ [a, b, c, d], x.isUndefined = false := by
    intro x mem
    by_contra undefined
    exact defined (List.any_eq_true.mpr ⟨x, mem, (Bool.not_eq_false _).mp undefined⟩)
  have least {l : List (Exact K)} {z : Exact K} (h : Below v z ∨ ∃ x ∈ l, Below v x) :
      Below v (l.foldl Exact.min z) := by
    induction l generalizing z with
    | nil =>
      rcases h with h | ⟨x, mem, -⟩
      · exact h
      · cases mem
    | cons y l ih =>
      refine ih ?_
      rcases h with h | ⟨x, mem, h⟩
      · exact Or.inl (below_min_left h y)
      · rcases List.mem_cons.mp mem with rfl | mem
        · exact Or.inl (below_min_right z h)
        · exact Or.inr ⟨x, mem, h⟩
  have greatest {l : List (Exact K)} {z : Exact K} (h : Above v z ∨ ∃ x ∈ l, Above v x) :
      Above v (l.foldl Exact.max z) := by
    induction l generalizing z with
    | nil =>
      rcases h with h | ⟨x, mem, -⟩
      · exact h
      · cases mem
    | cons y l ih =>
      refine ih ?_
      rcases h with h | ⟨x, mem, h⟩
      · exact Or.inl (above_max_left h y)
      · rcases List.mem_cons.mp mem with rfl | mem
        · exact Or.inl (above_max_right z h)
        · exact Or.inr ⟨x, mem, h⟩
  exact ⟨least (Or.inr (lower all)), greatest (Or.inr (upper all))⟩

omit [Field K] [IsStrictOrderedRing K] [FloorRing K] [Transcendental K] in
theorem equal_of_holds {a b : Exact K} (lo : Below v a) (hi : Above v b) (same : a.equal b = true) : a = number v := by
  cases a with
  | number x =>
    cases b with
    | number y =>
      have equal : x = y := by simpa [Exact.equal] using same
      rw [le_antisymm lo (equal ▸ hi)]
    | _ => simp [Exact.equal] at same
  | bottom =>
    cases b with
    | bottom => exact absurd hi not_above_bottom
    | _ => simp [Exact.equal] at same
  | top => exact absurd lo not_below_top
  | undefined => exact absurd lo not_below_undefined

theorem Holds.binary (op : BinaryOp) (hs : s.Holds v) (ht : t.Holds w) : (s.binary op t).Holds (op.apply v w) := by
  cases op with
  | add => exact ⟨below_add hs.lo ht.lo, above_add hs.hi ht.hi⟩
  | sub =>
    have lower := below_add hs.lo (below_neg.mpr ht.hi)
    have upper := above_add hs.hi (above_neg.mpr ht.lo)
    rw [← sub_eq_add_neg] at lower upper
    exact ⟨lower, upper⟩
  | mul =>
    exact holds_ofCorners (below_mul hs.lo hs.hi ht.lo ht.hi) (above_mul hs.lo hs.hi ht.lo ht.hi)
  | div =>
    unfold Span.binary
    simp only [zero_eq]
    split
    · rename_i sign
      have sign : (number 0).less t.lo = true ∨ t.hi.less (number 0) = true := (Bool.or_eq_true _ _).mp sign
      exact holds_ofCorners (fun _ => below_div hs.lo hs.hi ht.lo ht.hi sign)
        fun _ => above_div hs.lo hs.hi ht.lo ht.hi sign
    · exact holds_unbounded _
  | min =>
    have value : Scalar.min v w = min v w := (min_def v w).symm
    change (Span.mk _ _ : Span (Exact K)).Holds (Scalar.min v w)
    rw [value]
    exact ⟨below_min hs.lo ht.lo, above_min hs.hi ht.hi⟩
  | max =>
    have value : Scalar.max v w = max v w := by
      rcases le_total w v with le | le
      · rw [max_eq_left le]
        exact if_pos le
      · rw [max_eq_right le]
        rcases le.lt_or_eq with less | rfl
        · exact if_neg (not_le_of_gt less)
        · exact if_pos (le_refl v)
    change (Span.mk _ _ : Span (Exact K)).Holds (Scalar.max v w)
    rw [value]
    exact ⟨below_max hs.lo ht.lo, above_max hs.hi ht.hi⟩
  | pow =>
    unfold Span.binary
    simp only
    split
    · rename_i same
      obtain ⟨sameS, sameT⟩ := (Bool.and_eq_true _ _).mp same
      rw [equal_of_holds hs.lo hs.hi sameS, equal_of_holds ht.lo ht.hi sameT]
      exact holds_point _
    · exact holds_unbounded _

omit [IsStrictOrderedRing K] in
theorem Holds.toInterval? (h : s.Holds v) {i : Interval} (found : s.toInterval? = some i) :
    i.min ≤ ⌊v⌋ ∧ ⌊v⌋ ≤ i.max := by
  unfold Span.toInterval? at found
  rw [if_neg (by simp [h.not_isEmpty])] at found
  split at found
  · rename_i finite
    obtain rfl := Option.some.inj found
    obtain ⟨finiteLo, finiteHi⟩ := (Bool.and_eq_true _ _).mp finite
    obtain ⟨lo, hi⟩ := s
    obtain ⟨below, above⟩ := h
    constructor
    · cases lo with
      | number x => exact Int.floor_le_floor below
      | _ => cases finiteLo
    · cases hi with
      | number x => exact Int.floor_le_floor above
      | _ => cases finiteHi
  · cases found

theorem holds_ofInterval {i : Interval} {n : Int} (inside : i.min ≤ n ∧ n ≤ i.max) :
    (ofInterval i : Span (Exact K)).Holds n := by
  have nonempty : i.isEmpty = false := by
    simp only [Interval.isEmpty, decide_eq_false_iff_not, not_lt]
    exact inside.1.trans inside.2
  unfold ofInterval
  rw [nonempty]
  exact ⟨Int.cast_le.mpr inside.1, Int.cast_le.mpr inside.2⟩

end Span

end ArrayDiff
