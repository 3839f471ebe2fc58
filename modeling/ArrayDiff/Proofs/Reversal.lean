import ArrayDiff.Proofs.Independence
import ArrayDiff.Proofs.Reflection
import ArrayDiff.Proofs.Replacement

/-!
# Reduction domains that are run through backwards

Flipping every coordinate of a reduction domain reverses the list of its points. So an expression whose reduction
variables are replaced by their flips evaluates in an iteration like the expression in the mirrored iteration, if and
only if the flips are computed exactly (`ReductionDomain.flips_reverse`): nothing is rounded, and the sum of the ends of
a range is not lost to an overflow.
-/

namespace ArrayDiff

/-- What `min + max - v` is computed to for a coordinate `v`; the sum is a word, and drops out if it is 0. -/
def Interval.flipValue (κ : Type) {α : Type} [Extended κ] [Scalar α] [Embed κ α] (i : Interval) (v : Int) : α :=
  if Scalar.isZero (Scalar.ofInt i.endSum : κ) then Scalar.neg (coordinate κ v)
  else Scalar.sub (coordinate κ i.endSum) (coordinate κ v)

/-- In every iteration the flips of the coordinates are computed to the mirrored coordinates. -/
def ReductionDomain.FlipsExactly (κ α : Type) [Extended κ] [Scalar α] [Embed κ α] (rdom : ReductionDomain) : Prop :=
  ∀ r ∈ rdom.points, ∀ x i, (x, i) ∈ rdom.dims → i.flipValue κ (coordinateOf rdom.names r x) =
    (coordinate κ (i.min + i.max - coordinateOf rdom.names r x) : α)

/-- Every expression with its reduction variables replaced by their flips evaluates in an iteration like the expression
in the iteration with the same number from the end. -/
def ReductionDomain.EvaluatesMirrored (κ α : Type) [Extended κ] [Scalar α] [Embed κ α] (rdom : ReductionDomain) :
    Prop :=
  ∀ (m : Type → Type) [Monad m] [LawfulMonad m] (reader : Reader m α) (vars : List (Name × α)) (e : Expr κ) (k : Nat)
    (r r' : List Int), rdom.points[k]? = some r → rdom.points.reverse[k]? = some r' →
    (e.substituteRVars (Sweep.flipped rdom).get?).eval reader ⟨vars, coordinates κ rdom.names r⟩ =
      e.eval reader ⟨vars, coordinates κ rdom.names r'⟩

section Flips

variable {κ α : Type} [Extended κ] [Scalar α] [Embed κ α] {rdom : ReductionDomain} {r : List Int} {x : Name}
  {i : Interval}

section

variable {m : Type → Type} [Monad m] [LawfulMonad m] (reader : Reader m α)

namespace Sweep

omit [LawfulMonad m] in
theorem eval_coordinate (distinct : rdom.names.Nodup) (mem : r ∈ rdom.points) (own : x ∈ rdom.names)
    (vars : List (Name × α)) :
    (Expr.rvar x : Expr κ).eval reader ⟨vars, coordinates κ rdom.names r⟩ =
      pure (coordinate κ (coordinateOf rdom.names r x)) := by
  unfold Expr.eval
  rw [lookup_coordinates_of_mem distinct (ReductionDomain.length_of_mem_points mem) own]
  rfl

theorem eval_flip (distinct : rdom.names.Nodup) (mem : r ∈ rdom.points) (listed : (x, i) ∈ rdom.dims)
    (vars : List (Name × α)) :
    (Smart.sub (Expr.ofInt i.endSum) (.rvar x) : Expr κ).eval reader ⟨vars, coordinates κ rdom.names r⟩ =
      pure (i.flipValue κ (coordinateOf rdom.names r x)) := by
  have own := eval_coordinate (κ := κ) reader distinct mem (List.mem_map_of_mem listed) vars
  unfold Interval.flipValue
  cases zero : Scalar.isZero (Scalar.ofInt i.endSum : κ) with
  | true =>
    have image : Smart.sub (Expr.ofInt i.endSum) (.rvar x) = (.unary .neg (.rvar x) : Expr κ) := by
      simp [Smart.sub, Smart.neg, Smart.unary, Expr.ofInt, Expr.const?, Expr.isZero, zero]
    rw [image, Expr.eval, own, pure_bind]
    rfl
  | false =>
    have image : Smart.sub (Expr.ofInt i.endSum) (.rvar x) =
        (.binary .sub (.const (Scalar.ofInt i.endSum)) (.rvar x) : Expr κ) := by
      simp [Smart.sub, Expr.ofInt, Expr.const?, Expr.isZero, zero]
    rw [image, Expr.eval, own, Expr.eval, pure_bind, pure_bind]
    rfl

theorem mem_dims_of_flipped {e : Expr κ} (found : (flipped rdom).get? x = some e) : ∃ i, (x, i) ∈ rdom.dims := by
  unfold flipped at found
  rw [Table.get?_ofList] at found
  obtain ⟨entry, first, -⟩ := Option.map_eq_some_iff.mp found
  obtain ⟨⟨y, i⟩, listed, rfl⟩ := List.mem_map.mp (List.mem_reverse.mp (List.mem_of_find?_eq_some first))
  have same : y = x := by simpa using List.find?_some first
  subst same
  exact ⟨i, listed⟩

/-- The flips have the values that the reduction variables have in the mirrored iteration. -/
theorem rebinds_flipped (distinct : rdom.names.Nodup) (exactly : rdom.FlipsExactly κ α) (mem : r ∈ rdom.points)
    (vars : List (Name × α)) :
    Rebinds (flipped rdom : Table Name (Expr κ)).get?
      (fun image v => image.eval reader ⟨vars, coordinates κ rdom.names r⟩ = pure v)
      (coordinates κ rdom.names r) (coordinates κ rdom.names (rdom.flip r)) := by
  have length := ReductionDomain.length_of_mem_points mem
  have length' := ReductionDomain.length_of_mem_points (ReductionDomain.flip_mem_points mem)
  constructor
  · intro x e found
    obtain ⟨i, listed⟩ := mem_dims_of_flipped found
    obtain rfl := Option.some.inj ((get?_flipped distinct listed).symm.trans found)
    refine ⟨_, eval_flip reader distinct mem listed vars, ?_⟩
    rw [lookup_coordinates_of_mem distinct length' (List.mem_map_of_mem listed),
      ReductionDomain.coordinateOf_flip distinct length listed, exactly r mem x i listed]
  · intro x absent
    have other : x ∉ rdom.names := by
      intro own
      obtain ⟨⟨y, i⟩, listed, rfl⟩ := List.mem_map.mp own
      rw [get?_flipped distinct listed] at absent
      cases absent
    rw [lookup_coordinates_of_not_mem _ other, lookup_coordinates_of_not_mem _ other]

end Sweep

end

/-- Nothing can be read. -/
def Reader.silent (α : Type) : Reader Option α := ⟨fun _ _ => none, fun _ _ => none, fun _ => none, fun _ => none⟩

namespace ReductionDomain

theorem FlipsExactly.evaluatesMirrored (distinct : rdom.names.Nodup) (exactly : rdom.FlipsExactly κ α) :
    rdom.EvaluatesMirrored κ α := by
  intro m _ _ reader vars e k r r' here there
  have mirrored : rdom.flip r = r' := by
    rw [← map_flip_points, List.getElem?_map, here] at there
    exact Option.some.inj there
  subst mirrored
  unfold Expr.substituteRVars
  exact Rebinds.eval_bind .none (Sweep.rebinds_flipped reader distinct exactly (List.mem_of_getElem? here) vars)

/-- It is enough that the reduction variables themselves evaluate like in the mirrored iteration. -/
theorem EvaluatesMirrored.flipsExactly (distinct : rdom.names.Nodup) (mirrored : rdom.EvaluatesMirrored κ α) :
    rdom.FlipsExactly κ α := by
  intro r mem x i listed
  obtain ⟨k, here⟩ := List.mem_iff_getElem?.mp mem
  have there : rdom.points.reverse[k]? = some (rdom.flip r) := by
    rw [← map_flip_points, List.getElem?_map, here]
    rfl
  have image : (Expr.rvar x : Expr κ).substituteRVars (Sweep.flipped rdom).get? =
      Smart.sub (Expr.ofInt i.endSum) (.rvar x) := by
    unfold Expr.substituteRVars Expr.bind
    rw [Sweep.get?_flipped distinct listed]
    rfl
  have same := mirrored Option (.silent α) [] (.rvar x) k r (rdom.flip r) here there
  rw [image, Sweep.eval_flip _ distinct mem listed,
    Sweep.eval_coordinate _ distinct (flip_mem_points mem) (List.mem_map_of_mem listed),
    coordinateOf_flip distinct (length_of_mem_points mem) listed] at same
  exact Option.some.inj same

end ReductionDomain

end Flips

section ExactNumbers

variable {K : Type} [Field K] [LinearOrder K] [FloorRing K] [Transcendental K]

theorem Interval.flipValue_exact (i : Interval) (v : Int) :
    i.flipValue (Exact K) v = (coordinate (Exact K) (i.endSum - v) : K) := by
  unfold flipValue
  split
  · rename_i zero
    have vanishes : (i.endSum : K) = 0 := of_decide_eq_true ((number_isZero _).symm.trans zero)
    rw [coordinate_exact, coordinate_exact, Int.cast_sub, vanishes, zero_sub]
    rfl
  · rw [coordinate_exact, coordinate_exact, coordinate_exact, Int.cast_sub]
    rfl

theorem ReductionDomain.SumsFit.flipsExactly {rdom : ReductionDomain} (fit : rdom.SumsFit) :
    rdom.FlipsExactly (Exact K) K := by
  intro r _ x i listed
  rw [i.flipValue_exact, fit _ listed]

end ExactNumbers

/-- Flipping every coordinate reverses the iterations. Every expression with its reduction variables replaced by their
flips evaluates in an iteration like the expression in the iteration with the same number from the end, if and only if
the flips are computed exactly; in exact arithmetic they are, unless the sum of the ends of a range overflows. -/
theorem ReductionDomain.flips_reverse (rdom : ReductionDomain) (distinct : rdom.names.Nodup) :
    rdom.points.map rdom.flip = rdom.points.reverse ∧
    (∀ (κ α : Type) [Extended κ] [Scalar α] [Embed κ α], rdom.EvaluatesMirrored κ α ↔ rdom.FlipsExactly κ α) ∧
    (rdom.SumsFit → ∀ (K : Type) [Field K] [LinearOrder K] [FloorRing K] [Transcendental K],
      rdom.EvaluatesMirrored (Exact K) K) := by
  refine ⟨map_flip_points rdom, ?_, ?_⟩
  · intro κ α _ _ _
    exact ⟨EvaluatesMirrored.flipsExactly distinct, FlipsExactly.evaluatesMirrored distinct⟩
  · intro fit K _ _ _ _
    exact fit.flipsExactly.evaluatesMirrored distinct

/-- Two loops, of which the inner one counts from 1 to 3. -/
def looping : ReductionDomain := ⟨[("r", ⟨1, 3⟩), ("s", ⟨-1, 0⟩)]⟩

namespace looping

/-- `2 * r - s` -/
def weight : Expr (Exact ℚ) := .binary .sub (.binary .mul (Expr.ofInt 2) (.rvar "r")) (.rvar "s")

/-- Of the six iterations the second one is at `(2, -1)` and the last but one at `(2, 0)`. -/
theorem second_flipped :
    (weight.substituteRVars (Sweep.flipped looping).get?).eval (.silent ℚ)
        ⟨[], coordinates (Exact ℚ) looping.names [2, -1]⟩ =
      weight.eval (.silent ℚ) ⟨[], coordinates (Exact ℚ) looping.names [2, 0]⟩ := by
  obtain ⟨-, -, mirrored⟩ := looping.flips_reverse (by decide)
  exact mirrored (by decide) ℚ Option (.silent ℚ) [] weight 1 [2, -1] [2, 0] (by decide) (by decide)

end looping

/-- Three iterations from 16777216 on. -/
def distant : ReductionDomain := ⟨[("r", ⟨16777216, 16777218⟩)]⟩

/-- In single precision `16777216 + 16777218` is rounded, and the flip of the last coordinate is none of the domain. -/
theorem distant.flip_rounded :
    ¬∀ rdom : ReductionDomain, rdom.names.Nodup → rdom.EvaluatesMirrored (Exact ℚ) Short := by
  intro mirrored
  have same := mirrored distant (by decide) Option (.silent Short) [] (.rvar "r") 2 [16777218] [16777216] (by decide)
    (by decide)
  have flipped : ((Expr.rvar "r" : Expr (Exact ℚ)).substituteRVars (Sweep.flipped distant).get?).eval (.silent Short)
      ⟨[], coordinates (Exact ℚ) distant.names [16777218]⟩ = some ⟨16777214⟩ := by
    decide +kernel
  have last : (Expr.rvar "r" : Expr (Exact ℚ)).eval (.silent Short)
      ⟨[], coordinates (Exact ℚ) distant.names [16777216]⟩ = some ⟨16777216⟩ := by
    decide +kernel
  rw [flipped, last] at same
  exact absurd same (by decide)

end ArrayDiff
