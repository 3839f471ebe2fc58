import ArrayDiff.Proofs.Nodes

/-!
# Normal forms

`Expr.Irreducible` says of a node that no rule of simplification applies to it, and a tree is in normal form when that
holds of all its nodes (`Expr.Normal`). The smart constructors make normal forms of normal forms, and simplification
finds nothing to do in them, so that what it returns are exactly the normal forms (`Expr.normal_iff`).
-/

open ArrayDiff.Expr

namespace ArrayDiff

variable {κ : Type} [Scalar κ]

namespace Expr

/-- At least one side is not a constant. -/
def Mixed (a b : Expr κ) : Prop := a.const? = none ∨ b.const? = none

/-- No identity of the operator applies to its operands, and they are not folded. A constant divided by 0 stays. -/
def Unfolded : BinaryOp → Expr κ → Expr κ → Prop
  | .add, a, b | .sub, a, b => Mixed a b ∧ a.isZero = false ∧ b.isZero = false
  | .mul, a, b => Mixed a b ∧ ∀ e ∈ [a, b], e.isZero = false ∧ e.isOne = false ∧ Smart.isMinusOne e = false
  | .div, a, b => (Mixed a b ∨ b.isZero = true) ∧ a.isZero = false ∧ b.isOne = false
  | .pow, a, b => Mixed a b ∧ b.isOne = false ∧ b.isZero = false
  | .min, a, b | .max, a, b => Mixed a b

/-- No rule of simplification applies to the node itself. -/
def Irreducible : Expr κ → Prop
  | unary op a => a.const? = none ∧ (op = .neg → ∀ b, a ≠ unary .neg b)
  | binary op a b => Unfolded op a b
  | compare _ a b => Mixed a b
  | and a b | or a b => a.const? = none ∧ b.const? = none
  | not a => a.const? = none
  | select c t f => c.const? = none ∧ t.same f = false
  | _ => True

/-- No rule of simplification applies anywhere. -/
abbrev Normal (e : Expr κ) : Prop := e.Everywhere Irreducible

variable {a b c t f e : Expr κ}

omit [Scalar κ] in
theorem mixed_of_not_both (other : ∀ x y, a.const? = some x → b.const? = some y → False) : Mixed a b := by
  cases left : a.const? with
  | none => exact .inl left
  | some x =>
    cases right : b.const? with
    | none => exact .inr right
    | some y => exact (other x y left right).elim

omit [Scalar κ] in
theorem Mixed.not_both (mixed : Mixed a b) {x y : κ} (left : a.const? = some x) (right : b.const? = some y) : False := by
  rcases mixed with none | none
  · cases none.symm.trans left
  · cases none.symm.trans right

theorem const?_eq_none_of_undecided (notZero : ¬a.isZero = true) (notTrue : ¬Smart.isTrue a = true) :
    a.const? = none := by
  cases a with
  | const c =>
    cases zero : Scalar.isZero c with
    | true => exact absurd zero notZero
    | false => exact absurd (by simp [Smart.isTrue, const?, zero]) notTrue
  | _ => rfl

theorem isZero_of_const?_eq_none (none : a.const? = none) : a.isZero = false := by
  cases a with
  | const c => cases none
  | _ => rfl

theorem isTrue_of_const?_eq_none (none : a.const? = none) : Smart.isTrue a = false := by
  rw [Smart.isTrue, none, Option.any_none]

theorem normal_const (k : κ) : (const k).Normal := (everywhere_leaf rfl).mpr trivial

end Expr

/-! ### Nodes to which no rule applies -/

namespace Smart

variable {a b c t f : Expr κ}

theorem unary_eq {op : UnaryOp} (none : a.const? = none) (short : op = .neg → ∀ b, a ≠ .unary .neg b) :
    unary op a = .unary op a := by
  unfold unary
  split
  · cases none
  · rename_i inner
    exact if_neg fun sign => short sign inner rfl
  · rfl

theorem binary_eq {op : BinaryOp} (unfolded : Unfolded op a b) : binary op a b = .binary op a b := by
  cases op with
  | add =>
    obtain ⟨mixed, left, right⟩ := unfolded
    change add a b = _
    unfold add
    split
    · exact (mixed.not_both ‹_› ‹_›).elim
    · simp only [left, right, Bool.false_eq_true, if_false]
  | sub =>
    obtain ⟨mixed, left, right⟩ := unfolded
    change sub a b = _
    unfold sub
    split
    · exact (mixed.not_both ‹_› ‹_›).elim
    · simp only [left, right, Bool.false_eq_true, if_false]
  | mul =>
    obtain ⟨mixed, neither⟩ := unfolded
    obtain ⟨zeroA, oneA, minusA⟩ := neither a List.mem_cons_self
    obtain ⟨zeroB, oneB, minusB⟩ := neither b (List.mem_cons_of_mem _ List.mem_cons_self)
    change mul a b = _
    unfold mul
    split
    · exact (mixed.not_both ‹_› ‹_›).elim
    · simp only [zeroA, oneA, minusA, zeroB, oneB, minusB, Bool.or_self, Bool.false_eq_true, if_false]
  | div =>
    obtain ⟨mixed, left, right⟩ := unfolded
    have opened : divOpen a b = .binary .div a b := by
      simp only [divOpen, left, right, Bool.false_eq_true, if_false]
    change div a b = _
    unfold div
    split
    · rename_i x y foundA foundB
      rcases mixed with mixed | zero
      · exact (mixed.not_both foundA foundB).elim
      · rw [const?_eq_some foundB] at zero
        exact (if_pos zero).trans opened
    · exact opened
  | pow =>
    obtain ⟨mixed, one, zero⟩ := unfolded
    change pow a b = _
    unfold pow
    split
    · exact (mixed.not_both ‹_› ‹_›).elim
    · simp only [one, zero, Bool.false_eq_true, if_false]
  | min | max =>
    change foldOnly _ a b = _
    unfold foldOnly
    split
    · exact (Mixed.not_both unfolded ‹_› ‹_›).elim
    · rfl

theorem compare_eq {op : Comparison} (mixed : Mixed a b) : compare op a b = .compare op a b := by
  unfold compare
  split
  · exact (mixed.not_both ‹_› ‹_›).elim
  · rfl

theorem and_eq (left : a.const? = none) (right : b.const? = none) : and a b = .and a b := by
  simp [and, isZero_of_const?_eq_none left, isZero_of_const?_eq_none right, isTrue_of_const?_eq_none left,
    isTrue_of_const?_eq_none right]

theorem or_eq (left : a.const? = none) (right : b.const? = none) : or a b = .or a b := by
  simp [or, isZero_of_const?_eq_none left, isZero_of_const?_eq_none right, isTrue_of_const?_eq_none left,
    isTrue_of_const?_eq_none right]

theorem not_eq (none : a.const? = none) : not a = .not a := by
  simp [not, none]

theorem select_eq (none : c.const? = none) (different : t.same f = false) : select c t f = .select c t f := by
  simp [select, none, different]

end Smart

theorem Expr.Normal.simplify_eq {e : Expr κ} (normal : e.Normal) : e.simplify = e := by
  induction e with
  | const _ | var _ | rvar _ | param _ => rfl
  | call f args ih | load b args ih =>
    have same : args.map simplify = args :=
      (List.map_congr_left fun a mem => ih a mem (normal.child mem)).trans (List.map_id' args)
    rw [simplify, simplifyList_eq_map, same]
  | unary op a ih =>
    obtain ⟨⟨none, short⟩, inner⟩ := (everywhere_one rfl).mp normal
    rw [simplify, ih inner, Smart.unary_eq none short]
  | binary op a b iha ihb =>
    obtain ⟨unfolded, left, right⟩ := (everywhere_two rfl).mp normal
    rw [simplify, iha left, ihb right, Smart.binary_eq unfolded]
  | compare op a b iha ihb =>
    obtain ⟨mixed, left, right⟩ := (everywhere_two rfl).mp normal
    rw [simplify, iha left, ihb right, Smart.compare_eq mixed]
  | and a b iha ihb =>
    obtain ⟨⟨noneA, noneB⟩, left, right⟩ := (everywhere_two rfl).mp normal
    rw [simplify, iha left, ihb right, Smart.and_eq noneA noneB]
  | or a b iha ihb =>
    obtain ⟨⟨noneA, noneB⟩, left, right⟩ := (everywhere_two rfl).mp normal
    rw [simplify, iha left, ihb right, Smart.or_eq noneA noneB]
  | not a ih =>
    obtain ⟨none, inner⟩ := (everywhere_one rfl).mp normal
    rw [simplify, ih inner, Smart.not_eq none]
  | select c t f ihc iht ihf =>
    obtain ⟨⟨none, different⟩, condition, onTrue, onFalse⟩ := (everywhere_three rfl).mp normal
    rw [simplify, ihc condition, iht onTrue, ihf onFalse, Smart.select_eq none different]

/-! ### The smart constructors keep normal forms -/

namespace Smart

variable {a b c t f : Expr κ}

theorem normal_unary (op : UnaryOp) (ha : a.Normal) : (unary op a).Normal := by
  unfold unary
  split
  · exact normal_const _
  · split
    · exact ha.child List.mem_cons_self
    · rename_i other
      exact (everywhere_one rfl).mpr ⟨⟨rfl, fun sign => absurd sign other⟩, ha⟩
  · rename_i noConst noSign
    refine (everywhere_one rfl).mpr ⟨⟨?_, fun _ => noSign⟩, ha⟩
    cases a <;> first | rfl | exact absurd rfl (noConst _)

theorem normal_neg (ha : a.Normal) : (neg a).Normal := normal_unary .neg ha

theorem normal_not (ha : a.Normal) : (not a).Normal := by
  unfold not
  split
  · exact normal_const _
  · exact (everywhere_one rfl).mpr ⟨‹_›, ha⟩

theorem normal_select (hc : c.Normal) (ht : t.Normal) (hf : f.Normal) : (select c t f).Normal := by
  unfold select
  split
  · split
    · exact hf
    · exact ht
  · split
    · exact ht
    · rename_i none different
      exact (everywhere_three rfl).mpr ⟨⟨none, Bool.eq_false_iff.mpr different⟩, hc, ht, hf⟩

variable (ha : a.Normal) (hb : b.Normal)
include ha hb

theorem normal_node {op : BinaryOp} (unfolded : Unfolded op a b) : (Expr.binary op a b).Normal :=
  (everywhere_two rfl).mpr ⟨unfolded, ha, hb⟩

theorem normal_add : (add a b).Normal := by
  unfold add
  split
  · exact normal_const _
  split
  · exact hb
  split
  · exact ha
  · rename_i other left right
    exact normal_node ha hb ⟨mixed_of_not_both other, Bool.eq_false_iff.mpr left, Bool.eq_false_iff.mpr right⟩

theorem normal_sub : (sub a b).Normal := by
  unfold sub
  split
  · exact normal_const _
  split
  · exact ha
  split
  · exact normal_neg hb
  · rename_i other right left
    exact normal_node ha hb ⟨mixed_of_not_both other, Bool.eq_false_iff.mpr left, Bool.eq_false_iff.mpr right⟩

theorem normal_mul : (mul a b).Normal := by
  unfold mul
  split
  · exact normal_const _
  split
  · exact normal_const _
  split
  · exact hb
  split
  · exact ha
  split
  · exact normal_neg hb
  split
  · exact normal_neg ha
  · rename_i other zero oneA oneB minusA minusB
    rw [Bool.or_eq_true, not_or] at zero
    refine normal_node ha hb ⟨mixed_of_not_both other, ?_⟩
    simp [zero, oneA, oneB, minusA, minusB]

theorem normal_divOpen (open' : Mixed a b ∨ b.isZero = true) : (divOpen a b).Normal := by
  unfold divOpen
  split
  · exact normal_const _
  split
  · exact ha
  · rename_i zero one
    exact normal_node ha hb ⟨open', Bool.eq_false_iff.mpr zero, Bool.eq_false_iff.mpr one⟩

theorem normal_div : (div a b).Normal := by
  unfold div
  split
  · rename_i foundA foundB
    split
    · rename_i zero
      exact normal_divOpen ha hb (.inr (by rwa [const?_eq_some foundB]))
    · exact normal_const _
  · rename_i other
    exact normal_divOpen ha hb (.inl (mixed_of_not_both other))

theorem normal_pow : (pow a b).Normal := by
  unfold pow
  split
  · exact normal_const _
  split
  · exact ha
  split
  · exact normal_const _
  · rename_i other one zero
    exact normal_node ha hb ⟨mixed_of_not_both other, Bool.eq_false_iff.mpr one, Bool.eq_false_iff.mpr zero⟩

theorem normal_foldOnly {op : BinaryOp} (only : Mixed a b → Unfolded op a b) : (foldOnly op a b).Normal := by
  unfold foldOnly
  split
  · exact normal_const _
  · exact normal_node ha hb (only (mixed_of_not_both ‹_›))

theorem normal_binary (op : BinaryOp) : (binary op a b).Normal := by
  cases op with
  | add => exact normal_add ha hb
  | sub => exact normal_sub ha hb
  | mul => exact normal_mul ha hb
  | div => exact normal_div ha hb
  | pow => exact normal_pow ha hb
  | min => exact normal_foldOnly ha hb id
  | max => exact normal_foldOnly ha hb id

theorem normal_compare (op : Comparison) : (compare op a b).Normal := by
  unfold compare
  split
  · exact normal_const _
  · exact (everywhere_two rfl).mpr ⟨mixed_of_not_both ‹_›, ha, hb⟩

theorem normal_and : (and a b).Normal := by
  unfold and
  split
  · exact normal_const _
  split
  · exact hb
  split
  · exact ha
  · rename_i zero trueA trueB
    rw [Bool.or_eq_true, not_or] at zero
    exact (everywhere_two rfl).mpr
      ⟨⟨const?_eq_none_of_undecided zero.1 trueA, const?_eq_none_of_undecided zero.2 trueB⟩, ha, hb⟩

theorem normal_or : (or a b).Normal := by
  unfold or
  split
  · exact normal_const _
  split
  · exact hb
  split
  · exact ha
  · rename_i true zeroA zeroB
    rw [Bool.or_eq_true, not_or] at true
    exact (everywhere_two rfl).mpr
      ⟨⟨const?_eq_none_of_undecided zeroA true.1, const?_eq_none_of_undecided zeroB true.2⟩, ha, hb⟩

omit ha hb

theorem normal_foldl {join : Expr κ → Expr κ → Expr κ} (joined : ∀ a b, a.Normal → b.Normal → (join a b).Normal)
    {terms : List (Expr κ)} (each : ∀ a ∈ terms, a.Normal) (ha : a.Normal) : (terms.foldl join a).Normal := by
  induction terms generalizing a with
  | nil => exact ha
  | cons b terms ih =>
    exact ih (fun c mem => each c (List.mem_cons_of_mem _ mem)) (joined a b ha (each b List.mem_cons_self))

theorem normal_all {terms : List (Expr κ)} (each : ∀ a ∈ terms, a.Normal) : (all terms).Normal :=
  normal_foldl (fun _ _ => normal_and) each (normal_const _)

theorem normal_sum {terms : List (Expr κ)} (each : ∀ a ∈ terms, a.Normal) : (sum terms).Normal :=
  normal_foldl (fun _ _ => normal_add) each (normal_const _)

end Smart

namespace Expr

theorem normal_simplify (e : Expr κ) : e.simplify.Normal := by
  induction e with
  | const _ | var _ | rvar _ | param _ => exact (everywhere_leaf rfl).mpr trivial
  | call f args ih | load b args ih =>
    rw [simplify, simplifyList_eq_map]
    exact everywhere_iff.mpr ⟨trivial, List.forall_mem_map.mpr ih⟩
  | unary op a ih => exact Smart.normal_unary op ih
  | binary op a b iha ihb => exact Smart.normal_binary iha ihb op
  | compare op a b iha ihb => exact Smart.normal_compare iha ihb op
  | and a b iha ihb => exact Smart.normal_and iha ihb
  | or a b iha ihb => exact Smart.normal_or iha ihb
  | not a ih => exact Smart.normal_not ih
  | select c t f ihc iht ihf => exact Smart.normal_select ihc iht ihf

/-- Simplification leaves the tree alone. -/
def Settled (e : Expr κ) : Prop := e.simplify = e

/-- The normal forms are what simplification leaves alone. -/
theorem normal_iff {e : Expr κ} : e.Normal ↔ e.Settled :=
  ⟨Normal.simplify_eq, fun same => same ▸ normal_simplify e⟩

theorem normal_map_simplify (terms : List (Expr κ)) : ∀ a ∈ terms.map simplify, a.Normal :=
  List.forall_mem_map.mpr fun a _ => normal_simplify a

/-- Simplifying twice is simplifying once, and what a smart constructor makes of simplified operands is simplified. -/
theorem settled_simplify (a b c : Expr κ) (terms : List (Expr κ)) (op : UnaryOp) (op' : BinaryOp) (cmp : Comparison) :
    a.simplify.Settled ∧
    (Smart.unary op a.simplify).Settled ∧ (Smart.neg a.simplify).Settled ∧
    (Smart.binary op' a.simplify b.simplify).Settled ∧
    (Smart.add a.simplify b.simplify).Settled ∧ (Smart.sub a.simplify b.simplify).Settled ∧
    (Smart.mul a.simplify b.simplify).Settled ∧ (Smart.div a.simplify b.simplify).Settled ∧
    (Smart.compare cmp a.simplify b.simplify).Settled ∧
    (Smart.and a.simplify b.simplify).Settled ∧ (Smart.or a.simplify b.simplify).Settled ∧
    (Smart.not a.simplify).Settled ∧ (Smart.select c.simplify a.simplify b.simplify).Settled ∧
    (Smart.all (terms.map simplify)).Settled ∧ (Smart.sum (terms.map simplify)).Settled := by
  have ha := normal_simplify a
  have hb := normal_simplify b
  simp only [← normal_iff]
  exact ⟨ha, Smart.normal_unary op ha, Smart.normal_neg ha, Smart.normal_binary ha hb op', Smart.normal_add ha hb,
    Smart.normal_sub ha hb, Smart.normal_mul ha hb, Smart.normal_div ha hb, Smart.normal_compare ha hb cmp,
    Smart.normal_and ha hb, Smart.normal_or ha hb, Smart.normal_not ha, Smart.normal_select (normal_simplify c) ha hb,
    Smart.normal_all (normal_map_simplify terms), Smart.normal_sum (normal_map_simplify terms)⟩

end Expr

end ArrayDiff
