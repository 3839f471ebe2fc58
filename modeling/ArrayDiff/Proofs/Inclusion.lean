import ArrayDiff.Proofs.Enclosure

/-!
# Ranges inside ranges

A range lies inside another one when the other one holds its numbers (`Span.Inside`). Operators keep this: the ends of
what they make of two ranges are images of ends, and so they are held by what the operator makes of wider ranges. An
image of ends that is undefined leaves both results without ends. Logarithms and powers are not among them.
-/

namespace ArrayDiff

/-- The other interval has every integer of the interval. -/
def Interval.Inside (i j : Interval) : Prop := ∀ n, i.min ≤ n ∧ n ≤ i.max → j.min ≤ n ∧ n ≤ j.max

theorem Interval.inside_iff {i j : Interval} : i.Inside j ↔ i.max < i.min ∨ j.min ≤ i.min ∧ i.max ≤ j.max := by
  constructor
  · intro h
    by_cases empty : i.max < i.min
    · exact .inl empty
    · have first := h i.min ⟨le_refl _, not_lt.mp empty⟩
      have last := h i.max ⟨not_lt.mp empty, le_refl _⟩
      exact .inr ⟨first.1, last.2⟩
  · rintro (empty | ⟨first, last⟩) n inside <;> omega

variable {K : Type} [Field K] [LinearOrder K] [IsStrictOrderedRing K] [FloorRing K] [Transcendental K]

namespace Exact

variable {a b e : Exact K} {x : K}

section

omit [Field K] [IsStrictOrderedRing K] [FloorRing K] [Transcendental K]

theorem Below.ne_undefined (h : Below x a) : a ≠ undefined := by
  rintro rfl
  exact h.elim

theorem Above.ne_undefined (h : Above x a) : a ≠ undefined := by
  rintro rfl
  exact h.elim

theorem Below.of_lessEq (h : Below x b) (le : a.lessEq b = true) : Below x a := by
  cases b with
  | number y => exact (Span.below_of_lessEq le).mono h
  | bottom => cases a <;> trivial
  | top | undefined => exact h.elim

theorem Above.of_lessEq (h : Above x a) (le : a.lessEq b = true) : Above x b := by
  cases a with
  | number y => exact (Span.above_of_lessEq le).mono h
  | top => cases b <;> trivial
  | bottom | undefined => exact h.elim

theorem lessEq_top (defined : a ≠ undefined) : a.lessEq top = true := by
  cases a <;> first | rfl | exact absurd rfl defined

theorem bottom_lessEq (defined : a ≠ undefined) : bottom.lessEq a = true := by
  cases a <;> first | rfl | exact absurd rfl defined

theorem less_of_less_of_lessEq (h : a.less b = true) (le : b.lessEq e = true) : a.less e = true := by
  cases a <;> cases b <;> cases e <;> simp_all [Exact.lessEq, Exact.less, Exact.equal]
  rcases le with less | rfl
  · exact h.trans less
  · exact h

theorem less_of_lessEq_of_less (le : a.lessEq b = true) (h : b.less e = true) : a.less e = true := by
  cases a <;> cases b <;> cases e <;> simp_all [Exact.lessEq, Exact.less, Exact.equal]
  rcases le with less | rfl
  · exact less.trans h
  · exact h

theorem lessEq_foldl_min {l : List (Exact K)} {z : Exact K} (start : a.lessEq z = true)
    (each : ∀ e ∈ l, a.lessEq e = true) : a.lessEq (l.foldl Exact.min z) = true := by
  induction l generalizing z with
  | nil => exact start
  | cons e l ih =>
    refine ih ?_ fun e mem => each e (List.mem_cons_of_mem _ mem)
    rcases min_eq z e with same | same <;> rw [same]
    · exact start
    · exact each e List.mem_cons_self

theorem foldl_max_lessEq {l : List (Exact K)} {z : Exact K} (start : z.lessEq a = true)
    (each : ∀ e ∈ l, e.lessEq a = true) : (l.foldl Exact.max z).lessEq a = true := by
  induction l generalizing z with
  | nil => exact start
  | cons e l ih =>
    refine ih ?_ fun e mem => each e (List.mem_cons_of_mem _ mem)
    rcases max_eq z e with same | same <;> rw [same]
    · exact start
    · exact each e List.mem_cons_self

end

section

omit [IsStrictOrderedRing K] [FloorRing K] [Transcendental K]

theorem eq_zero_of_infinite (h : infinite x = undefined) : x = 0 := by
  rcases lt_trichotomy x 0 with neg | same | pos
  · rw [infinite_of_neg neg] at h
    cases h
  · exact same
  · rw [infinite_of_pos pos] at h
    cases h

theorem infinite_of_mul_undefined (ha : a ≠ undefined) (hb : b ≠ undefined) (product : a.mul b = undefined) :
    a.IsInfinite ∧ b = number 0 ∨ a = number 0 ∧ b.IsInfinite := by
  cases a with
  | undefined => exact absurd rfl ha
  | number y =>
    cases b with
    | number z => cases product
    | undefined => exact absurd rfl hb
    | top => exact .inr ⟨congrArg number (eq_zero_of_infinite product), .inl rfl⟩
    | bottom => exact .inr ⟨congrArg number (neg_eq_zero.mp (eq_zero_of_infinite product)), .inr rfl⟩
  | top =>
    cases b with
    | number z => exact .inl ⟨.inl rfl, congrArg number (eq_zero_of_infinite product)⟩
    | undefined => exact absurd rfl hb
    | _ => cases product
  | bottom =>
    cases b with
    | number z => exact .inl ⟨.inr rfl, congrArg number (neg_eq_zero.mp (eq_zero_of_infinite product))⟩
    | undefined => exact absurd rfl hb
    | _ => cases product

theorem infinite_of_div_undefined (ha : a ≠ undefined) (hb : b ≠ undefined) (quotient : a.div b = undefined) :
    a.IsInfinite ∧ (b.IsInfinite ∨ b = number 0) := by
  cases a with
  | undefined => exact absurd rfl ha
  | number y =>
    cases b with
    | undefined => exact absurd rfl hb
    | _ => cases quotient
  | top =>
    cases b with
    | number z => exact ⟨.inl rfl, .inr (congrArg number (eq_zero_of_infinite quotient))⟩
    | undefined => exact absurd rfl hb
    | top => exact ⟨.inl rfl, .inl (.inl rfl)⟩
    | bottom => exact ⟨.inl rfl, .inl (.inr rfl)⟩
  | bottom =>
    cases b with
    | number z => exact ⟨.inr rfl, .inr (congrArg number (neg_eq_zero.mp (eq_zero_of_infinite quotient)))⟩
    | undefined => exact absurd rfl hb
    | top => exact ⟨.inr rfl, .inl (.inl rfl)⟩
    | bottom => exact ⟨.inr rfl, .inl (.inr rfl)⟩

end

omit [FloorRing K] [Transcendental K] in
/-- An infinity times the ends of a range with 0 in it makes both infinities, if it makes something. -/
theorem IsInfinite.mul_ends {c d : Exact K} (h : e.IsInfinite) (hc : Below 0 c) (hd : Above 0 d) :
    undefined ∈ [e.mul c, e.mul d] ∨ top ∈ [e.mul c, e.mul d] ∧ bottom ∈ [e.mul c, e.mul d] := by
  have low : top.mul c = undefined ∨ top.mul c = bottom := by
    cases c with
    | number y =>
      rcases lt_or_eq_of_le (show y ≤ 0 from hc) with neg | rfl
      · exact .inr (infinite_of_neg neg)
      · exact .inl infinite_zero
    | bottom => exact .inr rfl
    | top | undefined => exact hc.elim
  have high : top.mul d = undefined ∨ top.mul d = top := by
    cases d with
    | number y =>
      rcases lt_or_eq_of_le (show 0 ≤ y from hd) with pos | rfl
      · exact .inr (infinite_of_pos pos)
      · exact .inl infinite_zero
    | top => exact .inr rfl
    | bottom | undefined => exact hd.elim
  rcases h with rfl | rfl
  · rcases low with low | low <;> rcases high with high | high <;> simp [low, high]
  · have flip (a : Exact K) : Exact.mul bottom a = (top.mul a).neg := mul_of_neg top a
    rw [flip, flip]
    rcases low with low | low <;> rcases high with high | high <;> simp [low, high]

end Exact

namespace Span

open Exact

variable {s s' t t' r r' : Span (Exact K)} {a b c d v : Exact K} {x y z : K}

/-- The other range holds every number of the range. -/
def Inside (s t : Span (Exact K)) : Prop := ∀ x : K, s.Holds x → t.Holds x

/-- A range that holds no number is recognized as empty. -/
def Proper (s : Span (Exact K)) : Prop := s.isEmpty = true ∨ ∃ x : K, s.Holds x

omit [Field K] [IsStrictOrderedRing K] [FloorRing K] [Transcendental K] in
theorem Inside.refl (s : Span (Exact K)) : s.Inside s := fun _ => id

section

omit [IsStrictOrderedRing K]

theorem inside_of_isEmpty (empty : s.isEmpty = true) (t : Span (Exact K)) : s.Inside t := by
  intro x held
  rw [held.not_isEmpty] at empty
  cases empty

theorem inside_unbounded (s : Span (Exact K)) : s.Inside unbounded := fun x _ => holds_unbounded x

theorem Proper.isEmpty_of_inside (proper : s.Proper) (inside : s.Inside t) (empty : t.isEmpty = true) :
    s.isEmpty = true := by
  refine proper.resolve_right fun ⟨x, held⟩ => ?_
  rw [(inside x held).not_isEmpty] at empty
  cases empty

theorem proper_empty : (empty : Span (Exact K)).Proper := .inl rfl

theorem Holds.proper (h : s.Holds x) : s.Proper := .inr ⟨x, h⟩

end

/-! ### Ends -/

omit [IsStrictOrderedRing K] in
theorem negate_negate (s : Span (Exact K)) : s.negate.negate = s :=
  congrArg₂ Span.mk (neg_involutive s.lo) (neg_involutive s.hi)

theorem Inside.negate (h : s.Inside t) : s.negate.Inside t.negate := by
  intro x held
  have flipped : s.Holds (-x) := negate_negate s ▸ held.negate
  simpa using (h _ flipped).negate

omit [Transcendental K] in
theorem Inside.contains_lo (h : s.Inside t) (held : s.Holds x) : t.Contains s.lo := by
  obtain ⟨lo, hi⟩ := s
  cases lo with
  | number y => exact h y ⟨le_refl y, held.hi.mono held.lo⟩
  | bottom =>
    refine ⟨?_, x, h x held⟩
    have low := (h x held).lo
    cases lo' : t.lo with
    | bottom => rfl
    | number z =>
      -- there are numbers below the end of `t`
      have lower : t.Holds (min x (z - 1)) := h _ ⟨trivial, held.hi.mono (min_le_left _ _)⟩
      have bound := lower.lo
      rw [lo'] at bound
      exact absurd (le_trans bound (min_le_right _ _)) (not_le_of_gt (sub_one_lt z))
    | top | undefined =>
      rw [lo'] at low
      exact low.elim
  | top | undefined => exact held.lo.elim

theorem Inside.contains_hi (h : s.Inside t) (held : s.Holds x) : t.Contains s.hi := by
  have flipped := (h.negate.contains_lo held.negate).negate
  rw [negate_negate] at flipped
  exact neg_involutive s.hi ▸ flipped

theorem Inside.contains_end (h : s.Inside t) (held : s.Holds x) (mem : a ∈ [s.lo, s.hi]) : t.Contains a := by
  rcases List.mem_cons.mp mem with rfl | mem
  · exact h.contains_lo held
  · obtain rfl := List.mem_singleton.mp mem
    exact h.contains_hi held

omit [Field K] [IsStrictOrderedRing K] [FloorRing K] [Transcendental K] in
theorem inside_of_contains (lo : t.Contains s.lo) (hi : t.Contains s.hi) : s.Inside t := fun _ held =>
  ⟨held.lo.of_lessEq lo.lessEq.1, held.hi.of_lessEq hi.lessEq.2⟩

/-! ### Operators of two operands -/

omit [IsStrictOrderedRing K] in
/-- What one infinite product of ends or an undefined one does to the range of products. -/
theorem ofCorners_eq_unbounded (h : undefined ∈ [a, b, c, d] ∨ top ∈ [a, b, c, d] ∧ bottom ∈ [a, b, c, d]) :
    ofCorners a b c d = unbounded := by
  unfold ofCorners
  dsimp only
  split
  · rfl
  · rename_i defined
    rcases h with undef | ⟨high, low⟩
    · exact absurd (List.any_eq_true.mpr ⟨_, undef, rfl⟩) defined
    · exact congrArg₂ Span.mk (foldl_min_bottom (.inr low)) (foldl_max_top (.inr high))

omit [IsStrictOrderedRing K] in
theorem inside_ofCorners (held : r.Holds x) (each : ∀ e ∈ [a, b, c, d], e ≠ undefined → r.Contains e)
    (undef : undefined ∈ [a, b, c, d] → r = unbounded) : (ofCorners a b c d).Inside r := by
  unfold ofCorners
  dsimp only
  split
  · rename_i some
    obtain ⟨e, mem, isUndefined⟩ := List.any_eq_true.mp some
    obtain rfl : e = undefined := by
      cases e <;> first | rfl | cases isUndefined
    rw [undef mem]
    exact Inside.refl _
  · rename_i none
    have contained (e : Exact K) (mem : e ∈ [a, b, c, d]) : r.Contains e :=
      each e mem fun same => none (List.any_eq_true.mpr ⟨e, mem, by rw [same]; rfl⟩)
    intro y inner
    exact ⟨inner.lo.of_lessEq (lessEq_foldl_min (lessEq_top held.lo.ne_undefined) fun e mem => (contained e mem).lessEq.1),
      inner.hi.of_lessEq (foldl_max_lessEq (bottom_lessEq held.hi.ne_undefined) fun e mem => (contained e mem).lessEq.2)⟩

omit [Field K] [LinearOrder K] [IsStrictOrderedRing K] [FloorRing K] [Transcendental K] in
theorem ends_of_mem_corners {f : Exact K → Exact K → Exact K} {e : Exact K}
    (mem : e ∈ [f s.lo t.lo, f s.lo t.hi, f s.hi t.lo, f s.hi t.hi]) :
    ∃ a ∈ [s.lo, s.hi], ∃ b ∈ [t.lo, t.hi], e = f a b := by
  simp only [List.mem_cons, List.not_mem_nil, or_false] at mem
  rcases mem with rfl | rfl | rfl | rfl
  · exact ⟨_, List.mem_cons_self, _, List.mem_cons_self, rfl⟩
  · exact ⟨_, List.mem_cons_self, _, List.mem_cons_of_mem _ List.mem_cons_self, rfl⟩
  · exact ⟨_, List.mem_cons_of_mem _ List.mem_cons_self, _, List.mem_cons_self, rfl⟩
  · exact ⟨_, List.mem_cons_of_mem _ List.mem_cons_self, _, List.mem_cons_of_mem _ List.mem_cons_self, rfl⟩

section Binary

variable (hs : s.Inside s') (ht : t.Inside t') (hx : s.Holds x) (hy : t.Holds y)
include hs ht hx hy

omit hs ht in
/-- An operator whose range has images of ends as its ends. -/
theorem Inside.of_ends (op : BinaryOp) (ha : s'.Contains a) (hb : t'.Contains b) (hc : s'.Contains c)
    (hd : t'.Contains d) (lo : (s.binary op t).lo = op.apply a b) (hi : (s.binary op t).hi = op.apply c d) :
    (s.binary op t).Inside (s'.binary op t') := by
  have held := hx.binary op hy
  refine inside_of_contains ?_ ?_
  · rw [lo]
    exact ha.binary op hb (lo ▸ held.lo.ne_undefined)
  · rw [hi]
    exact hc.binary op hd (hi ▸ held.hi.ne_undefined)

theorem Inside.mul : (s.binary .mul t).Inside (s'.binary .mul t') := by
  refine inside_ofCorners ((hs x hx).binary .mul (ht y hy)) (fun e mem defined => ?_) fun mem => ?_
  · obtain ⟨a, memA, b, memB, rfl⟩ := ends_of_mem_corners mem
    exact (hs.contains_end hx memA).mul (ht.contains_end hy memB) defined
  · obtain ⟨a, memA, b, memB, product⟩ := ends_of_mem_corners mem
    have ha := hs.contains_end hx memA
    have hb := ht.contains_end hy memB
    have corners {p q : Exact K} (h : undefined ∈ [p, q] ∨ top ∈ [p, q] ∧ bottom ∈ [p, q])
        (sub : ∀ e ∈ [p, q], e ∈ [s'.lo.mul t'.lo, s'.lo.mul t'.hi, s'.hi.mul t'.lo, s'.hi.mul t'.hi]) :
        s'.binary .mul t' = unbounded :=
      ofCorners_eq_unbounded (h.imp (sub _) fun both => ⟨sub _ both.1, sub _ both.2⟩)
    rcases infinite_of_mul_undefined ha.ne_undefined.2.1 hb.ne_undefined.2.1 product.symm with
      ⟨infinite, rfl⟩ | ⟨rfl, infinite⟩
    · refine corners (infinite.mul_ends (Holds.lo hb) (Holds.hi hb)) fun e mem => ?_
      obtain ⟨d, memD, rfl⟩ : ∃ d ∈ [t'.lo, t'.hi], e = a.mul d := by simpa using mem
      exact mem_corners Exact.mul (ha.mem_ends infinite) memD
    · refine corners (infinite.mul_ends (Holds.lo ha) (Holds.hi ha)) fun e mem => ?_
      obtain ⟨d, memD, rfl⟩ : ∃ d ∈ [s'.lo, s'.hi], e = b.mul d := by simpa using mem
      rw [mul_swap b d]
      exact mem_corners Exact.mul memD (hb.mem_ends infinite)

theorem Inside.div : (s.binary .div t).Inside (s'.binary .div t') := by
  have corners (r t : Span (Exact K)) (sign : (Exact.less (number 0) t.lo || Exact.less t.hi (number 0)) = true) :
      r.binary .div t = ofCorners (r.lo.div t.lo) (r.lo.div t.hi) (r.hi.div t.lo) (r.hi.div t.hi) := by
    unfold Span.binary
    dsimp only
    rw [zero_eq]
    exact if_pos sign
  by_cases sign' : (Exact.less (number 0) t'.lo || Exact.less t'.hi (number 0)) = true
  swap
  · have same : s'.binary .div t' = unbounded := by
      unfold Span.binary
      dsimp only
      rw [zero_eq]
      exact if_neg sign'
    rw [same]
    exact inside_unbounded _
  -- a narrower divisor has the sign of the wider one
  have sign : (Exact.less (number 0) t.lo || Exact.less t.hi (number 0)) = true := by
    rw [Bool.or_eq_true] at sign' ⊢
    exact sign'.imp (fun pos => less_of_less_of_lessEq pos (ht.contains_lo hy).lessEq.1)
      fun neg => less_of_lessEq_of_less (ht.contains_hi hy).lessEq.2 neg
  rw [corners s t sign]
  refine inside_ofCorners ((hs x hx).binary .div (ht y hy)) (fun e mem defined => ?_) fun mem => ?_
  · obtain ⟨a, memA, b, memB, rfl⟩ := ends_of_mem_corners mem
    exact (hs.contains_end hx memA).div (ht.contains_end hy memB) defined
  · obtain ⟨a, memA, b, memB, quotient⟩ := ends_of_mem_corners mem
    have ha := hs.contains_end hx memA
    have hb := ht.contains_end hy memB
    obtain ⟨infinite, divisor⟩ := infinite_of_div_undefined ha.ne_undefined.2.1 hb.ne_undefined.2.1 quotient.symm
    rcases divisor with infinite' | rfl
    · rw [corners s' t' sign']
      refine ofCorners_eq_unbounded (.inl ?_)
      rw [quotient]
      exact mem_corners Exact.div (ha.mem_ends infinite) (hb.mem_ends infinite')
    · have held : t'.Holds 0 := hb
      rcases (Bool.or_eq_true _ _).mp sign' with pos | neg
      · rw [not_less_of_mem (b := number 0) held.lo (le_refl (0 : K))] at pos
        cases pos
      · rw [not_less_of_mem (a := number 0) (le_refl (0 : K)) held.hi] at neg
        cases neg

/-- Operators of two operands, powers excepted, keep ranges inside of ranges. -/
theorem Inside.binary (op : BinaryOp) (other : op ≠ .pow) : (s.binary op t).Inside (s'.binary op t') := by
  have loS := hs.contains_lo hx
  have hiS := hs.contains_hi hx
  have loT := ht.contains_lo hy
  have hiT := ht.contains_hi hy
  cases op with
  | add => exact Inside.of_ends hx hy .add loS loT hiS hiT rfl rfl
  | sub => exact Inside.of_ends hx hy .sub loS hiT hiS loT rfl rfl
  | mul => exact Inside.mul hs ht hx hy
  | div => exact Inside.div hs ht hx hy
  | min => exact Inside.of_ends hx hy .min loS loT hiS hiT rfl rfl
  | max => exact Inside.of_ends hx hy .max loS loT hiS hiT rfl rfl
  | pow => exact absurd rfl other

end Binary

/-! ### Operators of one operand -/

section

omit [IsStrictOrderedRing K]

theorem unary_sqrt (s : Span (Exact K)) : s.unary .sqrt = (s.binary .max (point (number 0))).unary .sqrt := by
  have twice (a : Exact K) : (a.max (number 0)).max (number 0) = a.max (number 0) := by
    rcases max_eq a (number 0) with same | same
    · rw [same, same]
    · rw [same]
      rcases max_eq (number (0 : K)) (number 0) with same | same <;> exact same
  unfold Span.unary
  dsimp only
  rw [zero_eq]
  exact congrArg₂ Span.mk (congrArg Scalar.sqrt (twice s.lo).symm) (congrArg Scalar.sqrt (twice s.hi).symm)

theorem abs_of_lessEq (h : Exact.lessEq (number 0) a = true) : UnaryOp.abs.apply a = a := by
  cases a with
  | number x => exact congrArg number (if_pos ((lessEq_number 0 x).mp h))
  | top => rfl
  | bottom | undefined => cases h

theorem abs_of_lessEq_zero (h : a.lessEq (number 0) = true) : UnaryOp.abs.apply a = a.neg := by
  cases a with
  | number x =>
    have nonpos := (lessEq_number x 0).mp h
    have flipped : (if 0 ≤ x then x else -x) = -x := by
      split
      · rename_i nonneg
        rw [le_antisymm nonpos nonneg, neg_zero]
      · rfl
    exact congrArg number flipped
  | bottom => rfl
  | top | undefined => cases h

theorem unary_abs (s : Span (Exact K)) : s.unary .abs = if Exact.lessEq (number 0) s.lo then s
    else if Exact.lessEq s.hi (number 0) then s.negate else ⟨number 0, Exact.max s.hi s.lo.neg⟩ := by
  unfold Span.unary
  dsimp only
  rw [zero_eq]
  rfl

end

section Unary

variable (hs : s.Inside s') (hx : s.Holds x)
include hs hx

theorem Inside.abs : (s.unary .abs).Inside (s'.unary .abs) := by
  have image {a : Exact K} (ha : s'.Contains a) : (s'.unary .abs).Contains (UnaryOp.abs.apply a) := by
    refine ha.unary .abs ?_ nofun nofun
    have defined := ha.ne_undefined.2.1
    cases a <;> first | exact absurd rfl defined | exact nofun
  have lo := image (hs.contains_lo hx)
  have hi := image (hs.contains_hi hx)
  have ends := Contains.lessEq (v := number x) hx
  have ordered := lessEq_trans ends.1 ends.2
  rw [unary_abs s]
  by_cases positive : Exact.lessEq (number 0) s.lo = true
  · rw [abs_of_lessEq positive] at lo
    rw [abs_of_lessEq (lessEq_trans positive ordered)] at hi
    rw [if_pos positive]
    exact inside_of_contains lo hi
  rw [if_neg positive]
  by_cases negative : Exact.lessEq s.hi (number 0) = true
  · rw [abs_of_lessEq_zero negative] at hi
    rw [abs_of_lessEq_zero (lessEq_trans ordered negative)] at lo
    rw [if_pos negative]
    exact inside_of_contains hi lo
  rw [if_neg negative]
  have below := (lessEq_total (a := number (0 : K)) nofun hx.lo.ne_undefined).resolve_left positive
  have above := (lessEq_total (e := number (0 : K)) hx.hi.ne_undefined nofun).resolve_left negative
  have zero := image (a := number 0) (hs 0 ⟨below_of_lessEq below, above_of_lessEq above⟩)
  rw [abs_of_lessEq (lessEq_self (a := number (0 : K)) nofun)] at zero
  rw [abs_of_lessEq_zero below] at lo
  rw [abs_of_lessEq above] at hi
  refine inside_of_contains zero ?_
  change (s'.unary .abs).Contains (s.hi.max s.lo.neg)
  rcases max_eq s.hi s.lo.neg with same | same <;> rw [same]
  · exact hi
  · exact lo

theorem Inside.sqrt : (s.unary .sqrt).Inside (s'.unary .sqrt) := by
  have clipped := Inside.binary hs (Inside.refl (point (number 0))) hx (holds_point 0) .max nofun
  have held := hx.binary .max (holds_point 0)
  have image {a : Exact K} (ha : (s'.binary .max (point (number 0))).Contains a)
      (nonneg : Exact.lessEq (number 0) a = true) : (s'.unary .sqrt).Contains (UnaryOp.sqrt.apply a) := by
    rw [unary_sqrt]
    refine ha.unary .sqrt ?_ nofun fun _ => ?_
    · cases a <;> first | (cases nonneg; done) | exact nofun
    · rw [zero_eq]
      exact nonneg
  have lo := image (clipped.contains_lo held) (lessEq_max_right _ nofun)
  have hi := image (clipped.contains_hi held) (lessEq_max_right _ nofun)
  have ends : s.unary .sqrt = ⟨UnaryOp.sqrt.apply (s.lo.max (number 0)), UnaryOp.sqrt.apply (s.hi.max (number 0))⟩ := by
    unfold Span.unary
    dsimp only
    rw [zero_eq]
    rfl
  rw [ends]
  exact inside_of_contains lo hi

/-- Operators of one operand, the logarithm excepted, keep ranges inside of ranges. -/
theorem Inside.unary (op : UnaryOp) (other : op ≠ .log) : (s.unary op).Inside (s'.unary op) := by
  have lo := hs.contains_lo hx
  have hi := hs.contains_hi hx
  cases op with
  | neg => exact hs.negate
  | exp =>
    have image := hx.unary .exp nofun nofun
    exact inside_of_contains (lo.unary .exp image.lo.ne_undefined nofun nofun)
      (hi.unary .exp image.hi.ne_undefined nofun nofun)
  | tanh =>
    have image := hx.unary .tanh nofun nofun
    exact inside_of_contains (lo.unary .tanh image.lo.ne_undefined nofun nofun)
      (hi.unary .tanh image.hi.ne_undefined nofun nofun)
  | floor =>
    have image := hx.unary .floor nofun nofun
    exact inside_of_contains (lo.unary .floor image.lo.ne_undefined nofun nofun)
      (hi.unary .floor image.hi.ne_undefined nofun nofun)
  | sin | cos => exact Inside.refl _
  | abs => exact Inside.abs hs hx
  | sqrt => exact Inside.sqrt hs hx
  | log => exact absurd rfl other

omit hs in
theorem Holds.proper_unary (op : UnaryOp) (other : op ≠ .log) : (s.unary op).Proper := by
  by_cases root : op = .sqrt
  · subst root
    rw [unary_sqrt]
    refine ((hx.binary .max (holds_point 0)).unary .sqrt nofun fun _ => ?_).proper
    change 0 ≤ if 0 ≤ x then x else 0
    split
    · assumption
    · exact le_refl 0
  · exact (hx.unary op (fun log => absurd log other) fun sqrt => absurd sqrt root).proper

end Unary

/-! ### Branches and positions -/

omit [IsStrictOrderedRing K] in
theorem union_of_isEmpty_left (empty : s.isEmpty = true) : s.union t = t := if_pos empty

omit [IsStrictOrderedRing K] in
theorem union_of_isEmpty_right (nonempty : ¬s.isEmpty = true) (empty : t.isEmpty = true) : s.union t = s :=
  (if_neg nonempty).trans (if_pos empty)

theorem Inside.union (hs : s.Inside s') (ht : t.Inside t') (properS : s.Proper) (properT : t.Proper) :
    (s.union t).Inside (s'.union t') := by
  by_cases emptyS : s.isEmpty = true
  · rw [union_of_isEmpty_left emptyS]
    exact fun x held => holds_union (.inr (ht x held))
  by_cases emptyT : t.isEmpty = true
  · rw [union_of_isEmpty_right emptyS emptyT]
    exact fun x held => holds_union (.inl (hs x held))
  obtain ⟨x, hx⟩ := properS.resolve_left emptyS
  obtain ⟨y, hy⟩ := properT.resolve_left emptyT
  have same : s.union t = ⟨s.lo.min t.lo, s.hi.max t.hi⟩ := (if_neg emptyS).trans (if_neg emptyT)
  rw [same]
  refine inside_of_contains ?_ ?_
  · change (s'.union t').Contains (s.lo.min t.lo)
    rcases min_eq s.lo t.lo with same | same <;> rw [same]
    · exact contains_union (.inl (hs.contains_lo hx))
    · exact contains_union (.inr (ht.contains_lo hy))
  · change (s'.union t').Contains (s.hi.max t.hi)
    rcases max_eq s.hi t.hi with same | same <;> rw [same]
    · exact contains_union (.inl (hs.contains_hi hx))
    · exact contains_union (.inr (ht.contains_hi hy))

omit [IsStrictOrderedRing K] in
theorem Proper.union (properS : s.Proper) (properT : t.Proper) : (s.union t).Proper := by
  by_cases emptyS : s.isEmpty = true
  · rwa [union_of_isEmpty_left emptyS]
  · obtain ⟨x, held⟩ := properS.resolve_left emptyS
    exact (holds_union (.inl held)).proper

theorem Inside.toInterval? (h : s.Inside t) (proper : s.Proper) {j : Interval} (found : t.toInterval? = some j) :
    ∃ i, s.toInterval? = some i ∧ i.Inside j := by
  by_cases empty : s.isEmpty = true
  · exact ⟨.empty, if_pos empty, Interval.inside_iff.mpr (.inl (by decide))⟩
  obtain ⟨x, held⟩ := proper.resolve_left empty
  have lo := h.contains_lo held
  have hi := h.contains_hi held
  unfold Span.toInterval? at found ⊢
  rw [if_neg (by simp [(h x held).not_isEmpty])] at found
  rw [if_neg empty]
  split at found
  swap
  · cases found
  rename_i finite
  obtain rfl := Option.some.inj found
  obtain ⟨finiteLo, finiteHi⟩ := (Bool.and_eq_true _ _).mp finite
  -- finite ends of the wider range leave only numbers as ends of the narrower one
  have number {a : Exact K} (contained : t.Contains a) : ∃ y, a = .number y ∧ t.Holds y := by
    cases a with
    | number y => exact ⟨y, rfl, contained⟩
    | top =>
      rw [contained.1] at finiteHi
      cases finiteHi
    | bottom =>
      rw [contained.1] at finiteLo
      cases finiteLo
    | undefined => exact contained.elim
  obtain ⟨y, endLo, inLo⟩ := number lo
  obtain ⟨z, endHi, inHi⟩ := number hi
  have ends (w : K) (inside : t.Holds w) : Extended.floorInt t.lo ≤ ⌊w⌋ ∧ ⌊w⌋ ≤ Extended.floorInt t.hi := by
    refine Holds.toInterval? inside (i := ⟨Extended.floorInt t.lo, Extended.floorInt t.hi⟩) ?_
    unfold Span.toInterval?
    rw [if_neg (by simp [inside.not_isEmpty]), if_pos finite]
  refine ⟨⟨⌊y⌋, ⌊z⌋⟩, ?_, fun n inside => ⟨(ends y inLo).1.trans inside.1, inside.2.trans (ends z inHi).2⟩⟩
  have finite' : s.isFinite = true := by
    unfold Span.isFinite
    rw [endLo, endHi]
    rfl
  rw [if_pos finite', endLo, endHi]
  rfl

end Span

end ArrayDiff
