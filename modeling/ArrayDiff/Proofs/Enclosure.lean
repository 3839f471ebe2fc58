import ArrayDiff.Proofs.Scope

/-!
# Ranges over the extended numbers

Reads can have infinite values. A range that holds an infinity has it as an end, and holds numbers besides
(`Span.Contains`), so that an operator applied to ranges has as ends the infinities that it makes of their values. So
the range of an expression holds its value wherever the expression evaluates, and conditions narrow the variables
around their values (`Scope.bounds_sound`).
-/

namespace ArrayDiff

variable {K : Type} [Field K] [LinearOrder K] [IsStrictOrderedRing K] [FloorRing K] [Transcendental K]

namespace Exact

/-- Constants are values themselves. -/
instance : Embed (Exact K) (Exact K) := ⟨id⟩

variable {a e v w : Exact K} {x y : K}

/-- One of the two infinities. -/
def IsInfinite (v : Exact K) : Prop := v = top ∨ v = bottom

section

omit [IsStrictOrderedRing K] [FloorRing K] [Transcendental K]

theorem top_add (h : Above x a) : Exact.add top a = top := by
  cases a with
  | number y => rfl
  | top => rfl
  | bottom | undefined => exact h.elim

theorem add_top (h : Above x a) : a.add top = top := by
  cases a with
  | number y => rfl
  | top => rfl
  | bottom | undefined => exact h.elim

theorem bottom_add (h : Below x a) : Exact.add bottom a = bottom := by
  cases a with
  | number y => rfl
  | bottom => rfl
  | top | undefined => exact h.elim

theorem add_bottom (h : Below x a) : a.add bottom = bottom := by
  cases a with
  | number y => rfl
  | bottom => rfl
  | top | undefined => exact h.elim

end

section Order

omit [Field K] [IsStrictOrderedRing K] [FloorRing K] [Transcendental K]

@[simp] theorem bottom_min (a : Exact K) : Exact.min bottom a = bottom := by
  cases a <;> rfl

@[simp] theorem min_bottom (a : Exact K) : a.min bottom = bottom := by
  cases a <;> rfl

@[simp] theorem top_max (a : Exact K) : Exact.max top a = top := by
  cases a <;> rfl

@[simp] theorem max_top (a : Exact K) : a.max top = top := by
  cases a <;> rfl

/-! ### The order -/

theorem ne_undefined_of_lessEq (h : a.lessEq e = true) : a ≠ undefined ∧ e ≠ undefined := by
  constructor <;> rintro rfl
  · cases h
  · cases a <;> cases h

theorem lessEq_trans (h : a.lessEq v = true) (h' : v.lessEq e = true) : a.lessEq e = true := by
  cases a <;> cases v <;> cases e <;> simp_all [Exact.lessEq, Exact.less, Exact.equal]
  rcases h with h | rfl
  · rcases h' with h' | rfl
    · exact Or.inl (h.trans h')
    · exact Or.inl h
  · exact h'

theorem lessEq_total (ha : a ≠ undefined) (he : e ≠ undefined) : a.lessEq e = true ∨ e.lessEq a = true := by
  cases a <;> cases e <;> simp_all [Exact.lessEq, Exact.less, Exact.equal]
  rename_i x y
  rcases lt_trichotomy x y with less | rfl | more
  · exact Or.inl (Or.inl less)
  · exact Or.inl (Or.inr rfl)
  · exact Or.inr (Or.inl more)

theorem lessEq_self (ha : a ≠ undefined) : a.lessEq a = true := (lessEq_total ha ha).elim id id

omit [LinearOrder K] in
theorem isUndefined_eq_false (ha : a ≠ undefined) : a.isUndefined = false := by
  cases a with
  | undefined => exact absurd rfl ha
  | _ => rfl

theorem min_lessEq_left (ha : a ≠ undefined) (e : Exact K) : (a.min e).lessEq a = true := by
  unfold Exact.min
  rw [isUndefined_eq_false ha, if_neg Bool.false_ne_true]
  split
  · exact lessEq_self ha
  rename_i he
  split
  · exact lessEq_self ha
  · rename_i not
    exact (lessEq_total ha fun undef => he (by rw [undef]; rfl)).resolve_left not

theorem min_lessEq_right (a : Exact K) (he : e ≠ undefined) : (a.min e).lessEq e = true := by
  unfold Exact.min
  rw [isUndefined_eq_false he, if_neg Bool.false_ne_true]
  split
  · exact lessEq_self he
  split
  · assumption
  · exact lessEq_self he

theorem lessEq_max_left (ha : a ≠ undefined) (e : Exact K) : a.lessEq (a.max e) = true := by
  unfold Exact.max
  rw [isUndefined_eq_false ha, if_neg Bool.false_ne_true]
  split
  · exact lessEq_self ha
  rename_i he
  split
  · exact lessEq_self ha
  · rename_i not
    exact (lessEq_total ha fun undef => he (by rw [undef]; rfl)).resolve_right not

theorem lessEq_max_right (a : Exact K) (he : e ≠ undefined) : e.lessEq (a.max e) = true := by
  unfold Exact.max
  rw [isUndefined_eq_false he, if_neg Bool.false_ne_true]
  split
  · exact lessEq_self he
  split
  · assumption
  · exact lessEq_self he

/-! ### Infinities -/

theorem foldl_max_top {l : List (Exact K)} {z : Exact K} (h : z = top ∨ top ∈ l) : l.foldl Exact.max z = top := by
  induction l generalizing z with
  | nil => exact h.resolve_right List.not_mem_nil
  | cons a l ih =>
    refine ih ?_
    rcases h with rfl | mem
    · exact Or.inl (top_max a)
    · rcases List.mem_cons.mp mem with rfl | mem
      · exact Or.inl (max_top z)
      · exact Or.inr mem

theorem foldl_min_bottom {l : List (Exact K)} {z : Exact K} (h : z = bottom ∨ bottom ∈ l) :
    l.foldl Exact.min z = bottom := by
  induction l generalizing z with
  | nil => exact h.resolve_right List.not_mem_nil
  | cons a l ih =>
    refine ih ?_
    rcases h with rfl | mem
    · exact Or.inl (bottom_min a)
    · rcases List.mem_cons.mp mem with rfl | mem
      · exact Or.inl (min_bottom z)
      · exact Or.inr mem

end Order

omit [IsStrictOrderedRing K] [FloorRing K] [Transcendental K] in
theorem mul_swap (a b : Exact K) : a.mul b = b.mul a := by
  cases a <;> cases b <;> simp [Exact.mul, mul_comm]

omit [IsStrictOrderedRing K] [FloorRing K] [Transcendental K] in
theorem infinite_congr (same : 0 < x ∧ 0 < y ∨ x < 0 ∧ y < 0) : infinite x = infinite y := by
  rcases same with ⟨hx, hy⟩ | ⟨hx, hy⟩
  · rw [infinite_of_pos hx, infinite_of_pos hy]
  · rw [infinite_of_neg hx, infinite_of_neg hy]

section

omit [FloorRing K] [Transcendental K]

theorem IsInfinite.mul_congr (h : e.IsInfinite) (same : 0 < x ∧ 0 < y ∨ x < 0 ∧ y < 0) :
    e.mul (number x) = e.mul (number y) := by
  rcases h with rfl | rfl
  · exact infinite_congr same
  · refine infinite_congr ?_
    rw [neg_pos, neg_pos, neg_lt_zero, neg_lt_zero]
    exact same.symm

theorem IsInfinite.mul_infinite (h : e.IsInfinite) (hv : v.IsInfinite) (same : 0 < x ∧ v = top ∨ x < 0 ∧ v = bottom) :
    e.mul v = e.mul (number x) := by
  rcases h with rfl | rfl <;> rcases same with ⟨sign, rfl⟩ | ⟨sign, rfl⟩
  · exact (infinite_of_pos sign).symm
  · exact (infinite_of_neg sign).symm
  · exact (infinite_of_neg (neg_lt_zero.mpr sign)).symm
  · exact (infinite_of_pos (neg_pos.mpr sign)).symm

theorem IsInfinite.div_congr (h : e.IsInfinite) (same : 0 < x ∧ 0 < y ∨ x < 0 ∧ y < 0) :
    e.div (number x) = e.div (number y) := by
  rcases h with rfl | rfl
  · exact infinite_congr same
  · refine infinite_congr ?_
    rw [neg_pos, neg_pos, neg_lt_zero, neg_lt_zero]
    exact same.symm

end

section

omit [IsStrictOrderedRing K] [FloorRing K] [Transcendental K]

theorem isInfinite_infinite (defined : infinite x ≠ undefined) : (infinite x).IsInfinite := by
  unfold infinite at defined ⊢
  split
  · exact Or.inl rfl
  split
  · exact Or.inr rfl
  · rename_i pos neg
    rw [if_neg pos, if_neg neg] at defined
    exact absurd rfl defined

theorem IsInfinite.mul (h : e.IsInfinite) (w : Exact K) (defined : e.mul w ≠ undefined) : (e.mul w).IsInfinite := by
  rcases h with rfl | rfl <;> cases w with
  | number x => exact isInfinite_infinite defined
  | top | bottom => first | exact Or.inl rfl | exact Or.inr rfl
  | undefined => exact absurd rfl defined

theorem IsInfinite.div (h : e.IsInfinite) (w : Exact K) (defined : e.div w ≠ undefined) : (e.div w).IsInfinite := by
  rcases h with rfl | rfl <;> cases w with
  | number x => exact isInfinite_infinite defined
  | _ => exact absurd rfl defined

end

end Exact

namespace Span

open Exact

variable {s t r : Span (Exact K)} {v w e : Exact K} {x y : K}

/-- The value lies in the range; a range with an infinity holds numbers besides. -/
def Contains (s : Span (Exact K)) : Exact K → Prop
  | number x => s.Holds x
  | top => s.hi = top ∧ ∃ x, s.Holds x
  | bottom => s.lo = bottom ∧ ∃ x, s.Holds x
  | undefined => False

omit [Field K] [IsStrictOrderedRing K] [FloorRing K] [Transcendental K] in
theorem Contains.exists_holds (h : s.Contains v) : ∃ x, s.Holds x := by
  cases v with
  | number x => exact ⟨x, h⟩
  | top | bottom => exact h.2
  | undefined => exact h.elim

omit [IsStrictOrderedRing K] in
theorem Contains.not_isEmpty (h : s.Contains v) : s.isEmpty = false := by
  obtain ⟨x, held⟩ := h.exists_holds
  exact held.not_isEmpty

section

omit [Field K] [IsStrictOrderedRing K] [FloorRing K] [Transcendental K]

theorem Contains.lessEq (h : s.Contains v) : s.lo.lessEq v = true ∧ v.lessEq s.hi = true := by
  have lower {x : K} {a : Exact K} (h : Below x a) : a.lessEq (number x) = true ∧ a.lessEq top = true := by
    cases a with
    | number y => exact ⟨(lessEq_number y x).mpr h, rfl⟩
    | bottom => exact ⟨rfl, rfl⟩
    | top | undefined => exact h.elim
  have upper {x : K} {a : Exact K} (h : Above x a) : (number x).lessEq a = true ∧ bottom.lessEq a = true := by
    cases a with
    | number y => exact ⟨(lessEq_number x y).mpr h, rfl⟩
    | top => exact ⟨rfl, rfl⟩
    | bottom | undefined => exact h.elim
  cases v with
  | number x => exact ⟨(lower h.lo).1, (upper h.hi).1⟩
  | top =>
    obtain ⟨hi, x, held⟩ := h
    rw [hi]
    exact ⟨(lower held.lo).2, rfl⟩
  | bottom =>
    obtain ⟨lo, x, held⟩ := h
    rw [lo]
    exact ⟨rfl, (upper held.hi).2⟩
  | undefined => exact h.elim

theorem contains_of_lessEq (lo : s.lo.lessEq v = true) (hi : v.lessEq s.hi = true) (held : ∃ x, s.Holds x) :
    s.Contains v := by
  cases v with
  | number x => exact ⟨below_of_lessEq lo, above_of_lessEq hi⟩
  | top =>
    refine ⟨?_, held⟩
    cases top : s.hi <;> rw [top] at hi <;> first | rfl | cases hi
  | bottom =>
    refine ⟨?_, held⟩
    cases bottom : s.lo <;> rw [bottom] at lo <;> first | rfl | cases lo
  | undefined => exact absurd rfl (ne_undefined_of_lessEq lo).2

theorem Contains.ne_undefined (h : s.Contains v) : s.lo ≠ undefined ∧ v ≠ undefined ∧ s.hi ≠ undefined :=
  have lo := ne_undefined_of_lessEq h.lessEq.1
  ⟨lo.1, lo.2, (ne_undefined_of_lessEq h.lessEq.2).2⟩

end

omit [IsStrictOrderedRing K] in
theorem contains_unbounded (defined : v ≠ undefined) : (unbounded : Span (Exact K)).Contains v := by
  cases v with
  | number x => exact holds_unbounded x
  | top | bottom => exact ⟨rfl, 0, holds_unbounded 0⟩
  | undefined => exact absurd rfl defined

omit [Field K] [IsStrictOrderedRing K] [FloorRing K] [Transcendental K] in
theorem Contains.mem_ends (h : s.Contains v) (infinite : v.IsInfinite) : v ∈ [s.lo, s.hi] := by
  rcases infinite with rfl | rfl
  · rw [h.1]
    exact List.mem_cons_of_mem _ List.mem_cons_self
  · rw [h.1]
    exact List.mem_cons_self

theorem Contains.negate (h : s.Contains v) : s.negate.Contains v.neg := by
  cases v with
  | number x => exact Holds.negate h
  | top =>
    obtain ⟨hi, x, held⟩ := h
    exact ⟨congrArg Exact.neg hi, -x, held.negate⟩
  | bottom =>
    obtain ⟨lo, x, held⟩ := h
    exact ⟨congrArg Exact.neg lo, -x, held.negate⟩
  | undefined => exact h.elim

omit [IsStrictOrderedRing K] in
theorem contains_union (h : s.Contains v ∨ t.Contains v) : (s.union t).Contains v := by
  by_cases emptyS : s.isEmpty = true
  · have same : s.union t = t := if_pos emptyS
    rw [same]
    refine h.resolve_left fun h => ?_
    rw [h.not_isEmpty] at emptyS
    cases emptyS
  by_cases emptyT : t.isEmpty = true
  · have same : s.union t = s := (if_neg emptyS).trans (if_pos emptyT)
    rw [same]
    refine h.resolve_right fun h => ?_
    rw [h.not_isEmpty] at emptyT
    cases emptyT
  have same : s.union t = ⟨Exact.min s.lo t.lo, Exact.max s.hi t.hi⟩ := (if_neg emptyS).trans (if_neg emptyT)
  have held : ∃ x, (s.union t).Holds x := by
    rcases h with h | h
    · obtain ⟨x, held⟩ := h.exists_holds
      exact ⟨x, holds_union (Or.inl held)⟩
    · obtain ⟨x, held⟩ := h.exists_holds
      exact ⟨x, holds_union (Or.inr held)⟩
  rw [same] at held ⊢
  rcases h with h | h
  · exact contains_of_lessEq (lessEq_trans (min_lessEq_left h.ne_undefined.1 _) h.lessEq.1)
      (lessEq_trans h.lessEq.2 (lessEq_max_left h.ne_undefined.2.2 _)) held
  · exact contains_of_lessEq (lessEq_trans (min_lessEq_right _ h.ne_undefined.1) h.lessEq.1)
      (lessEq_trans h.lessEq.2 (lessEq_max_right _ h.ne_undefined.2.2)) held

/-! ### Operators of one operand -/

omit [IsStrictOrderedRing K] [Transcendental K] in
theorem Holds.exists_pos (hi : s.hi = top) (h : s.Holds x) : ∃ y, 0 < y ∧ s.Holds y :=
  ⟨max x 1, zero_lt_one.trans_le (le_max_right x 1), h.lo.mono (le_max_left x 1), by rw [hi]; trivial⟩

theorem Contains.unary (op : UnaryOp) (h : s.Contains v) (defined : op.apply v ≠ undefined)
    (positive : op = .log → Scalar.less Scalar.zero v = true)
    (nonneg : op = .sqrt → Scalar.lessEq Scalar.zero v = true) : (s.unary op).Contains (op.apply v) := by
  cases v with
  | undefined => exact h.elim
  | number x =>
    rw [UnaryOp.apply_number]
    refine Holds.unary op h (fun log => ?_) fun sqrt => ?_
    · simpa [Scalar.less, Exact.less] using positive log
    · simpa [Scalar.lessEq, Span.lessEq_number] using nonneg sqrt
  | top =>
    obtain ⟨hi, x, held⟩ := h
    obtain ⟨y, pos, held⟩ := held.exists_pos hi
    have image := held.unary op (fun _ => pos) fun _ => pos.le
    obtain ⟨lo, hi'⟩ := s
    obtain rfl : hi' = top := hi
    cases op with
    | neg => exact ⟨rfl, _, image⟩
    | exp | floor | sqrt => exact ⟨rfl, _, image⟩
    | log =>
      refine ⟨?_, _, image⟩
      unfold Span.unary
      dsimp only
      split <;> rfl
    | tanh =>
      refine ⟨?_, le_refl 1⟩
      cases lo with
      | number z => exact (Transcendental.tanh_mem z).2
      | bottom => exact neg_le_self zero_le_one
      | top | undefined => exact held.lo.elim
    | sin | cos => exact absurd rfl defined
    | abs =>
      refine ⟨?_, _, image⟩
      unfold Span.unary
      dsimp only
      split
      · rfl
      split
      · rename_i le
        cases le
      · exact top_max _
  | bottom =>
    obtain ⟨lo, x, held⟩ := h
    have image := held.unary op (fun log => absurd (positive log) Bool.false_ne_true)
      fun sqrt => absurd (nonneg sqrt) Bool.false_ne_true
    obtain ⟨lo', hi⟩ := s
    obtain rfl : lo' = bottom := lo
    cases op with
    | neg => exact ⟨rfl, _, image⟩
    | floor => exact ⟨rfl, _, image⟩
    | exp =>
      refine ⟨le_refl 0, ?_⟩
      cases hi with
      | number z => exact Transcendental.exp_nonneg z
      | top => trivial
      | bottom | undefined => exact held.hi.elim
    | tanh =>
      refine ⟨le_refl (-1), ?_⟩
      cases hi with
      | number z => exact (Transcendental.tanh_mem z).1
      | top => exact neg_le_self zero_le_one
      | bottom | undefined => exact held.hi.elim
    | log | sqrt | sin | cos => exact absurd rfl defined
    | abs =>
      refine ⟨?_, _, image⟩
      unfold Span.unary
      dsimp only
      split
      · rename_i le
        cases le
      split
      · rfl
      · exact max_top _

/-! ### Operators of two operands -/

omit [FloorRing K] [Transcendental K] in
theorem Contains.add (hs : s.Contains v) (ht : t.Contains w) (defined : v.add w ≠ undefined) :
    (⟨s.lo.add t.lo, s.hi.add t.hi⟩ : Span (Exact K)).Contains (v.add w) := by
  obtain ⟨x, hx⟩ := hs.exists_holds
  obtain ⟨y, hy⟩ := ht.exists_holds
  have held : (⟨s.lo.add t.lo, s.hi.add t.hi⟩ : Span (Exact K)).Holds (x + y) :=
    ⟨below_add hx.lo hy.lo, above_add hx.hi hy.hi⟩
  have high (h : s.hi = top ∨ t.hi = top) : s.hi.add t.hi = top := by
    rcases h with h | h <;> rw [h]
    · exact top_add hy.hi
    · exact add_top hx.hi
  have low (h : s.lo = bottom ∨ t.lo = bottom) : s.lo.add t.lo = bottom := by
    rcases h with h | h <;> rw [h]
    · exact bottom_add hy.lo
    · exact add_bottom hx.lo
  cases v with
  | undefined => exact hs.elim
  | number x' =>
    cases w with
    | number y' => exact ⟨below_add hs.lo ht.lo, above_add hs.hi ht.hi⟩
    | top => exact ⟨high (Or.inr ht.1), _, held⟩
    | bottom => exact ⟨low (Or.inr ht.1), _, held⟩
    | undefined => exact ht.elim
  | top =>
    cases w with
    | number y' | top => exact ⟨high (Or.inl hs.1), _, held⟩
    | bottom | undefined => exact absurd rfl defined
  | bottom =>
    cases w with
    | number y' | bottom => exact ⟨low (Or.inl hs.1), _, held⟩
    | top | undefined => exact absurd rfl defined

omit [Field K] [LinearOrder K] [IsStrictOrderedRing K] [FloorRing K] [Transcendental K] in
theorem mem_corners (f : Exact K → Exact K → Exact K) {a c : Exact K} (ha : a ∈ [s.lo, s.hi]) (hc : c ∈ [t.lo, t.hi]) :
    f a c ∈ [f s.lo t.lo, f s.lo t.hi, f s.hi t.lo, f s.hi t.hi] := by
  simp only [List.mem_cons, List.not_mem_nil, or_false] at ha hc ⊢
  rcases ha with rfl | rfl <;> rcases hc with rfl | rfl <;> simp

omit [IsStrictOrderedRing K] in
theorem contains_ofCorners {a b c d : Exact K} (mem : v ∈ [a, b, c, d]) (infinite : v.IsInfinite)
    (held : ∃ x, (ofCorners a b c d).Holds x) : (ofCorners a b c d).Contains v := by
  have ends : ofCorners a b c d = unbounded ∨
      ofCorners a b c d = ⟨[a, b, c, d].foldl Exact.min top, [a, b, c, d].foldl Exact.max bottom⟩ := by
    unfold ofCorners
    dsimp only
    split
    · exact Or.inl rfl
    · exact Or.inr rfl
  rcases ends with same | same
  · rw [same]
    refine contains_unbounded ?_
    rcases infinite with rfl | rfl <;> exact nofun
  rcases infinite with rfl | rfl
  · exact ⟨by rw [same]; exact foldl_max_top (Or.inr mem), held⟩
  · exact ⟨by rw [same]; exact foldl_min_bottom (Or.inr mem), held⟩

omit [FloorRing K] [Transcendental K] in
/-- Some end of a range stands for a value of it in products with an infinity. -/
theorem Contains.exists_mul_end (ht : t.Contains w) (infinite : e.IsInfinite) (defined : e.mul w ≠ undefined) :
    ∃ c ∈ [t.lo, t.hi], e.mul c = e.mul w := by
  cases w with
  | undefined => exact ht.elim
  | top | bottom => exact ⟨_, ht.mem_ends (by simp [IsInfinite]), rfl⟩
  | number y =>
    rcases lt_trichotomy y 0 with neg | rfl | pos
    · refine ⟨t.lo, List.mem_cons_self, ?_⟩
      have below := ht.lo
      cases lo : t.lo with
      | number z =>
        rw [lo] at below
        exact infinite.mul_congr (Or.inr ⟨lt_of_le_of_lt below neg, neg⟩)
      | bottom => exact infinite.mul_infinite (Or.inr rfl) (Or.inr ⟨neg, rfl⟩)
      | top | undefined =>
        rw [lo] at below
        exact below.elim
    · refine absurd ?_ defined
      rcases infinite with rfl | rfl <;> simp [Exact.mul, infinite_zero]
    · refine ⟨t.hi, List.mem_cons_of_mem _ List.mem_cons_self, ?_⟩
      have above := ht.hi
      cases hi : t.hi with
      | number z =>
        rw [hi] at above
        exact infinite.mul_congr (Or.inl ⟨lt_of_lt_of_le pos above, pos⟩)
      | top => exact infinite.mul_infinite (Or.inl rfl) (Or.inl ⟨pos, rfl⟩)
      | bottom | undefined =>
        rw [hi] at above
        exact above.elim

theorem Contains.mul (hs : s.Contains v) (ht : t.Contains w) (defined : v.mul w ≠ undefined) :
    (s.binary .mul t).Contains (v.mul w) := by
  obtain ⟨x, hx⟩ := hs.exists_holds
  obtain ⟨y, hy⟩ := ht.exists_holds
  have held : ∃ z, (s.binary .mul t).Holds z := ⟨_, hx.binary .mul hy⟩
  have ofLeft (infinite : v.IsInfinite) : (s.binary .mul t).Contains (v.mul w) := by
    obtain ⟨c, mem, same⟩ := ht.exists_mul_end infinite defined
    exact contains_ofCorners (same ▸ mem_corners Exact.mul (hs.mem_ends infinite) mem) (infinite.mul w defined) held
  have ofRight (infinite : w.IsInfinite) : (s.binary .mul t).Contains (v.mul w) := by
    rw [mul_swap] at defined ⊢
    obtain ⟨a, mem, same⟩ := hs.exists_mul_end infinite defined
    refine contains_ofCorners ?_ (infinite.mul v defined) held
    rw [← same, mul_swap]
    exact mem_corners Exact.mul mem (ht.mem_ends infinite)
  cases v with
  | undefined => exact hs.elim
  | top => exact ofLeft (Or.inl rfl)
  | bottom => exact ofLeft (Or.inr rfl)
  | number x' =>
    cases w with
    | undefined => exact ht.elim
    | top => exact ofRight (Or.inl rfl)
    | bottom => exact ofRight (Or.inr rfl)
    | number y' => exact Holds.binary .mul hs ht

omit [IsStrictOrderedRing K] in
theorem holds_div_infinite (hx : s.Holds x) (infinite : e.IsInfinite) (mem : e ∈ [t.lo, t.hi]) :
    (ofCorners (s.lo.div t.lo) (s.lo.div t.hi) (s.hi.div t.lo) (s.hi.div t.hi)).Holds 0 := by
  have corner := mem_corners Exact.div (List.mem_cons_self : s.lo ∈ [s.lo, s.hi]) mem
  have zero (defined : (s.lo.div e).isUndefined = false) : s.lo.div e = number 0 := by
    have below := hx.lo
    cases lo : s.lo with
    | number z => rcases infinite with rfl | rfl <;> rfl
    | bottom =>
      rw [lo] at defined
      rcases infinite with rfl | rfl <;> cases defined
    | top | undefined =>
      rw [lo] at below
      exact below.elim
  refine holds_ofCorners (fun defined => ⟨_, corner, ?_⟩) fun defined => ⟨_, corner, ?_⟩
  · rw [zero (defined _ corner)]
    exact le_refl 0
  · rw [zero (defined _ corner)]
    exact le_refl 0

omit [FloorRing K] [Transcendental K] in
/-- Some end of a range of one sign stands for a value of it under an infinity. -/
theorem Holds.exists_div_end (ht : t.Holds y) (infinite : e.IsInfinite)
    (sign : (number 0).less t.lo = true ∨ t.hi.less (number 0) = true) :
    ∃ c ∈ [t.lo, t.hi], e.div c = e.div (number y) := by
  rcases sign with pos | neg
  · refine ⟨t.lo, List.mem_cons_self, ?_⟩
    have below := ht.lo
    cases lo : t.lo with
    | number z =>
      rw [lo] at below pos
      have pos : 0 < z := of_decide_eq_true pos
      exact infinite.div_congr (Or.inl ⟨pos, lt_of_lt_of_le pos below⟩)
    | bottom =>
      rw [lo] at pos
      cases pos
    | top | undefined =>
      rw [lo] at below
      exact below.elim
  · refine ⟨t.hi, List.mem_cons_of_mem _ List.mem_cons_self, ?_⟩
    have above := ht.hi
    cases hi : t.hi with
    | number z =>
      rw [hi] at above neg
      have neg : z < 0 := of_decide_eq_true neg
      exact infinite.div_congr (Or.inr ⟨neg, lt_of_le_of_lt above neg⟩)
    | top =>
      rw [hi] at neg
      cases neg
    | bottom | undefined =>
      rw [hi] at above
      exact above.elim

theorem Contains.div (hs : s.Contains v) (ht : t.Contains w) (defined : v.div w ≠ undefined) :
    (s.binary .div t).Contains (v.div w) := by
  obtain ⟨x, hx⟩ := hs.exists_holds
  obtain ⟨y, hy⟩ := ht.exists_holds
  have held : ∃ z, (s.binary .div t).Holds z := ⟨_, hx.binary .div hy⟩
  by_cases sign : (Exact.less (number 0) t.lo || Exact.less t.hi (number 0)) = true
  swap
  · have same : s.binary .div t = unbounded := by
      unfold Span.binary
      dsimp only
      rw [zero_eq]
      exact if_neg sign
    rw [same]
    exact contains_unbounded defined
  have same : s.binary .div t = ofCorners (s.lo.div t.lo) (s.lo.div t.hi) (s.hi.div t.lo) (s.hi.div t.hi) := by
    unfold Span.binary
    dsimp only
    rw [zero_eq]
    exact if_pos sign
  have ofLeft (infinite : v.IsInfinite) {y : K} (hy : t.Holds y) (defined : v.div (number y) ≠ undefined) :
      (s.binary .div t).Contains (v.div (number y)) := by
    obtain ⟨c, mem, corner⟩ := hy.exists_div_end infinite ((Bool.or_eq_true _ _).mp sign)
    rw [same] at held ⊢
    refine contains_ofCorners ?_ (infinite.div _ defined) held
    rw [← corner]
    exact mem_corners Exact.div (hs.mem_ends infinite) mem
  have ofRight (infinite : w.IsInfinite) : (s.binary .div t).Contains (number 0) := by
    rw [same]
    exact holds_div_infinite hx infinite (ht.mem_ends infinite)
  cases v with
  | undefined => exact hs.elim
  | number x' =>
    cases w with
    | undefined => exact ht.elim
    | top => exact ofRight (Or.inl rfl)
    | bottom => exact ofRight (Or.inr rfl)
    | number y' => exact Holds.binary .div hs ht
  | top =>
    cases w with
    | number y' => exact ofLeft (Or.inl rfl) ht defined
    | _ => exact absurd rfl defined
  | bottom =>
    cases w with
    | number y' => exact ofLeft (Or.inr rfl) ht defined
    | _ => exact absurd rfl defined

theorem Contains.min (hs : s.Contains v) (ht : t.Contains w) : (s.binary .min t).Contains (v.min w) := by
  obtain ⟨x, hx⟩ := hs.exists_holds
  obtain ⟨y, hy⟩ := ht.exists_holds
  refine contains_of_lessEq ?_ ?_ ⟨_, hx.binary .min hy⟩
  · rcases min_eq v w with same | same <;> rw [same]
    · exact lessEq_trans (min_lessEq_left hs.ne_undefined.1 _) hs.lessEq.1
    · exact lessEq_trans (min_lessEq_right _ ht.ne_undefined.1) ht.lessEq.1
  · change (v.min w).lessEq (s.hi.min t.hi) = true
    rcases min_eq s.hi t.hi with same | same <;> rw [same]
    · exact lessEq_trans (min_lessEq_left hs.ne_undefined.2.1 _) hs.lessEq.2
    · exact lessEq_trans (min_lessEq_right _ ht.ne_undefined.2.1) ht.lessEq.2

theorem Contains.max (hs : s.Contains v) (ht : t.Contains w) : (s.binary .max t).Contains (v.max w) := by
  obtain ⟨x, hx⟩ := hs.exists_holds
  obtain ⟨y, hy⟩ := ht.exists_holds
  refine contains_of_lessEq ?_ ?_ ⟨_, hx.binary .max hy⟩
  · change (s.lo.max t.lo).lessEq (v.max w) = true
    rcases max_eq s.lo t.lo with same | same <;> rw [same]
    · exact lessEq_trans hs.lessEq.1 (lessEq_max_left hs.ne_undefined.2.1 _)
    · exact lessEq_trans ht.lessEq.1 (lessEq_max_right _ ht.ne_undefined.2.1)
  · rcases max_eq v w with same | same <;> rw [same]
    · exact lessEq_trans hs.lessEq.2 (lessEq_max_left hs.ne_undefined.2.2 _)
    · exact lessEq_trans ht.lessEq.2 (lessEq_max_right _ ht.ne_undefined.2.2)

omit [Field K] [IsStrictOrderedRing K] [FloorRing K] [Transcendental K] in
theorem Contains.eq_of_equal (h : s.Contains v) (same : s.lo.equal s.hi = true) : ∃ x, s.lo = number x ∧ v = s.lo := by
  obtain ⟨x, held⟩ := h.exists_holds
  have lo := equal_of_holds held.lo held.hi same
  have hi : number x = s.hi := eq_of_equal_number (lo ▸ same)
  refine ⟨x, lo, ?_⟩
  have le := h.lessEq
  rw [lo, ← hi] at le
  rw [lo]
  cases v with
  | number y => rw [le_antisymm ((lessEq_number y x).mp le.2) ((lessEq_number x y).mp le.1)]
  | top => cases le.2
  | bottom => cases le.1
  | undefined => exact h.elim

omit [IsStrictOrderedRing K] in
theorem Contains.pow (hs : s.Contains v) (ht : t.Contains w) (defined : v.pow w ≠ undefined) :
    (s.binary .pow t).Contains (v.pow w) := by
  unfold Span.binary
  dsimp only
  split
  · rename_i same
    obtain ⟨sameS, sameT⟩ := (Bool.and_eq_true _ _).mp same
    obtain ⟨x, lo, rfl⟩ := hs.eq_of_equal sameS
    obtain ⟨y, lo', rfl⟩ := ht.eq_of_equal sameT
    rw [lo, lo']
    exact holds_point _
  · exact contains_unbounded defined

theorem Contains.binary (op : BinaryOp) (hs : s.Contains v) (ht : t.Contains w) (defined : op.apply v w ≠ undefined) :
    (s.binary op t).Contains (op.apply v w) := by
  cases op with
  | add => exact hs.add ht defined
  | sub => exact hs.add ht.negate defined
  | mul => exact hs.mul ht defined
  | div => exact hs.div ht defined
  | min => exact hs.min ht
  | max => exact hs.max ht
  | pow => exact hs.pow ht defined

end Span

/-! ### Expressions -/

omit [IsStrictOrderedRing K] in
theorem faithful_exact (P : Exact K → Prop) : Faithful (Exact K) P where
  truth b := by
    cases b with
    | false => exact decide_eq_true rfl
    | true => exact decide_eq_false (by simp)
  left _ _ _ := rfl
  right _ _ _ := rfl

theorem enclosing_exact : Enclosing (K := K) (Exact K) (· ≠ Exact.undefined) Span.Contains where
  nonempty contained := contained.not_isEmpty
  unbounded := Span.contains_unbounded
  const {c} number := by
    cases c with
    | number x => exact Span.holds_point x
    | _ => cases number
  integer held := held
  truth b := by
    have le : ((0 : ℤ) : K) ≤ (1 : ℤ) := Int.cast_le.mpr zero_le_one
    cases b with
    | false => exact ⟨le_refl _, le⟩
    | true => exact ⟨le, le_refl _⟩
  union := Span.contains_union
  unary op _ _ held defined positive nonneg := held.unary op defined positive nonneg
  binary op _ _ _ _ left right defined := left.binary op right defined

/-- The range of an expression has its value between its ends wherever it evaluates, and conditions leave the variables
in their ranges. -/
theorem Scope.bounds_sound (s : Scope (Exact K)) (ρ : Valuation (Exact K)) (env : Env (Exact K)) (binds : s.Binds env) :
    (∀ e : Expr (Exact K), (∀ c, .const c ∈ e.nodes → c.isNumber = true) → e.WellDefined (· ≠ .undefined) ρ env →
      Exact.lessEq (e.span s).lo (e.value ρ env) = true ∧ Exact.lessEq (e.value ρ env) (e.span s).hi = true) ∧
    ∀ (c : Expr (Exact K)) (holds : Bool), Scalar.isZero (c.value ρ env) = !holds → (s.narrow c holds).Binds env :=
  ⟨fun _ constants wellDefined =>
      (Expr.enclosed enclosing_exact (faithful_exact _) binds constants wellDefined).lessEq,
    fun _ _ decided => binds.narrow (faithful_exact fun _ => True) (fun _ _ => trivial) decided⟩

namespace narrowing

/-- Data with an infinite parameter. -/
def data : Valuation (Exact ℚ) := ⟨fun _ _ => .number 0, fun _ _ => .number 0, fun _ => .top⟩

/-- A variable between 0 and 9. -/
def scope : Scope (Exact ℚ) := ({} : Scope (Exact ℚ)).bindVar "x" ⟨0, 9⟩

def env : Env (Exact ℚ) := ⟨[("x", .number 2)], []⟩

/-- The first branch is for small values of the variable. -/
def condition : Expr (Exact ℚ) := .compare .lt (.var "x") (.const (.number (7 / 2)))

def expr : Expr (Exact ℚ) :=
  .select condition (.binary .mul (.unary .sqrt (.var "x")) (.unary .tanh (.param ⟨0⟩)))
    (.binary .div (.var "x") (.const (.number 2)))

theorem binds : scope.Binds env := by
  refine ⟨fun {x r} mem => ?_, fun mem => absurd mem List.not_mem_nil⟩
  obtain ⟨rfl, rfl⟩ := Prod.mk.inj (List.mem_singleton.mp mem)
  exact ⟨2, by decide +kernel, Span.holds_ofInterval (by decide)⟩

theorem wellDefined : expr.WellDefined (· ≠ .undefined) data env := by
  have defined : ∀ x ∈ expr.nodes, x.value data env ≠ .undefined := by decide +kernel
  refine ⟨fun visit => defined _ visit.mem_nodes, fun visit => ?_, fun visit => ?_⟩
  · have node := visit.mem_nodes
    simp [expr, condition, Expr.nodes] at node
  · have node := visit.mem_nodes
    simp [expr, condition, Expr.nodes] at node
    subst node
    decide +kernel

/-- The value is between the ends, which are those of either branch, and the variable stays below the constant. -/
theorem bounded :
    (Exact.lessEq (expr.span scope).lo (expr.value data env) = true ∧
      Exact.lessEq (expr.value data env) (expr.span scope).hi = true) ∧
    (scope.narrow condition true).Binds env ∧ expr.value data env = .number 2 ∧
    (expr.span scope).lo = .number (-3) ∧ (expr.span scope).hi = .number (9 / 2) := by
  have sound := scope.bounds_sound data env binds
  refine ⟨sound.1 expr (fun c node => ?_) wellDefined, sound.2 condition true (by decide +kernel), by decide +kernel,
    by decide +kernel, by decide +kernel⟩
  simp [expr, condition, Expr.nodes] at node
  rcases node with rfl | rfl <;> rfl

end narrowing

end ArrayDiff
