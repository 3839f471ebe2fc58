import ArrayDiff.Proofs.Classification
import ArrayDiff.Proofs.Recurrence
import ArrayDiff.Proofs.Reflection

/-!
# The adjoint of a scan is the transposed recurrence

A scan writes every position once, and its earlier read addresses a position that an iteration before wrote
(`WritesOnce`). That orders the iterations as `Recurrence.pairing` asks for, forwards in the order of the interpreter
and backwards in the order in which the synthesized update runs through the flipped domain.
-/

open ArrayDiff.Expr

namespace ArrayDiff

/-! ### Positions of a scan -/

variable {K : Type} [Field K] [LinearOrder K] [IsStrictOrderedRing K] [FloorRing K] [Transcendental K]

/-- An update over a reduction domain and a region, a read of its own func, and the slope along that read. -/
structure Scanned (ρ : Valuation K) (func : Func (Exact K)) (d : Definition (Exact K)) (R : Domain)
    (rdom : ReductionDomain) (T : Target → Prop) (read : List (Expr (Exact K))) (slope : Expr (Exact K)) : Prop where
  reduced : d.rdom = some rdom
  names : rdom.names.Nodup
  fit : rdom.SumsFit
  args : func.args.Nodup
  dims : R.dims = func.args.length
  placed : Placed func.args rdom.names T d.lhs
  arity : read.length = d.lhs.length
  neat : ∀ e ∈ slope :: read, e.Neat d.pureVars rdom.names T
  plain : ∀ env ∈ (d.iterations R : List (Env K)), ∀ e ∈ slope :: (d.lhs ++ read),
    e.Plain ρ env (Atom.Among d.pureVars rdom.names T False)
  inside : ∀ env ∈ (d.iterations R : List (Env K)), position ρ env d.lhs ∈ R.points ∧ position ρ env read ∈ R.points
  filled : R.points ≠ []

/-- The recurrence of a scan, from the read position to the written one. -/
def Definition.recurrence (d : Definition (Exact K)) (ρ : Valuation K) (read : List (Expr (Exact K)))
    (slope : Expr (Exact K)) : Recurrence (Env K) K where
  target env := position ρ env d.lhs
  source env := position ρ env read
  step env := slope.value ρ env

/-- The iterations in the order of the synthesized update: its reduction domain runs through the mirrored points. -/
def Definition.mirrored (d : Definition (Exact K)) (R : Domain) (rdom : ReductionDomain) : List (Env K) :=
  (d.freeDomain R).points.flatMap fun p => rdom.points.map fun r => d.iteration rdom p (rdom.flip r)

omit [Field K] [LinearOrder K] [IsStrictOrderedRing K] [FloorRing K] [Transcendental K] in
theorem free_congr {d d' : Definition (Exact K)} (same : d'.lhs.map varName? = d.lhs.map varName?) (R : Domain) :
    d'.free R = d.free R := by
  unfold Definition.free
  generalize d.lhs = es at same
  generalize d'.lhs = es' at same
  generalize R.intervals = is
  induction es generalizing es' is with
  | nil =>
    obtain rfl := List.map_eq_nil_iff.mp same
    rfl
  | cons e es ih =>
    cases es' with
    | nil => cases same
    | cons e' es' =>
      obtain ⟨head, tail⟩ := List.cons.inj same
      cases is with
      | nil => rfl
      | cons i is =>
        have rest := ih es' tail is
        rw [List.zip_cons_cons, List.zip_cons_cons, List.filterMap_cons, List.filterMap_cons, rest]
        simp only [head]

omit [IsStrictOrderedRing K] in
theorem value?_mul_call {ρ : Valuation K} {env : Env K} {Q : Atom → Prop} {P : Answers K} {s : Expr (Exact K)}
    {f : FuncId} {args : List (Expr (Exact K))} {p : List Int} {x y : K} (factor : s.Represents ρ env Q x)
    (value : s.value? P env = some x) (at' : position? P env args = some p) (old : P.call f p = some y) :
    (Smart.mul s (.call f args)).value? P env = some (x * y) := by
  have call : (Expr.call f args).value? P env = some y := by
    change (position? P env args).bind (P.call f) = some y
    rw [at']
    exact old
  unfold Smart.mul
  split
  · rename_i impossible
    cases impossible
  split
  · rename_i zero
    have vanishes : x = 0 := factor.of_isZero (by simpa [isZero] using zero)
    rw [vanishes, zero_mul]
    exact congrArg some exact_zero
  split
  · rename_i one
    rw [factor.of_isOne one, one_mul]
    exact call
  split
  · rename_i one
    cases one
  split
  · rename_i minusOne
    rw [Smart.of_isMinusOne factor minusOne, neg_one_mul]
    change ((Expr.call f args).value? P env).bind (fun a => some (-a)) = some (-y)
    rw [call]
    rfl
  split
  · rename_i minusOne
    cases minusOne
  · change ((s.value? P env).bind fun a => ((Expr.call f args).value? P env).bind fun b => some (a * b)) = _
    rw [call, value]
    rfl

namespace Scanned

variable {ρ : Valuation K} {func : Func (Exact K)} {d : Definition (Exact K)} {R : Domain} {rdom : ReductionDomain}
  {T : Target → Prop} {read : List (Expr (Exact K))} {slope : Expr (Exact K)} {written : List Coord}
  {p p' r q : List Int}

section

omit [IsStrictOrderedRing K]

theorem length (h : Scanned ρ func d R rdom T read slope) : d.lhs.length = R.dims :=
  h.placed.length_eq.symm.trans h.dims.symm

theorem mem_iterations (h : Scanned ρ func d R rdom T read slope) (memP : p ∈ (d.freeDomain R).points)
    (memR : r ∈ rdom.points) : d.iteration rdom p r ∈ (d.iterations R : List (Env K)) :=
  (Definition.mem_iterations h.length h.reduced).mpr ⟨p, memP, r, memR, rfl⟩

theorem length_of_mem (h : Scanned ρ func d R rdom T read slope) (mem : p ∈ (d.freeDomain R).points) :
    p.length = d.pureVars.length := Definition.length_of_mem_freeDomain h.length mem

theorem once (h : Scanned ρ func d R rdom T read slope) (found : d.distinctPositions? = some written) :
    WritesOnce d rdom written := ⟨h.reduced, h.names, found⟩

theorem plain_lhs (h : Scanned ρ func d R rdom T read slope) (memP : p ∈ (d.freeDomain R).points)
    (memR : r ∈ rdom.points) : ∀ e ∈ d.lhs, e.Plain ρ (d.iteration rdom p r) (Atom.Among d.pureVars rdom.names T False) :=
  fun e mem => h.plain _ (h.mem_iterations memP memR) e (List.mem_cons_of_mem _ (List.mem_append_left _ mem))

theorem plain_read (h : Scanned ρ func d R rdom T read slope) (memP : p ∈ (d.freeDomain R).points)
    (memR : r ∈ rdom.points) : ∀ e ∈ read, e.Plain ρ (d.iteration rdom p r) (Atom.Among d.pureVars rdom.names T False) :=
  fun e mem => h.plain _ (h.mem_iterations memP memR) e (List.mem_cons_of_mem _ (List.mem_append_right _ mem))

end

/-- The position that an iteration reads is written before it, for the same values of the pure variables, or never. -/
theorem writer_before (h : Scanned ρ func d R rdom T read slope) (found : d.distinctPositions? = some written)
    (earlier : seen? written rdom read = some .earlier) (memP : p ∈ (d.freeDomain R).points)
    (memP' : p' ∈ (d.freeDomain R).points) (memR : r ∈ rdom.points) (memQ : q ∈ rdom.points)
    (same : position ρ (d.iteration rdom p r) read = position ρ (d.iteration rdom p' q) d.lhs) :
    p = p' ∧ q.reverse < r.reverse := by
  have writer := (h.once found).writer id h.arity earlier (h.plain_read memP memR) (h.plain_lhs memP' memQ)
    (h.length_of_mem memP) (h.length_of_mem memP') memR memQ same
  exact ⟨writer.1, writer.2.mpr rfl⟩

theorem apart (h : Scanned ρ func d R rdom T read slope) (found : d.distinctPositions? = some written)
    (earlier : seen? written rdom read = some .earlier) (memP : p ∈ (d.freeDomain R).points) (memR : r ∈ rdom.points) :
    position ρ (d.iteration rdom p r) read ≠ position ρ (d.iteration rdom p r) d.lhs :=
  fun same => lt_irrefl _ (h.writer_before found earlier memP memP memR memR same).2

theorem ordered (h : Scanned ρ func d R rdom T read slope) (found : d.distinctPositions? = some written)
    (earlier : seen? written rdom read = some .earlier) : (d.recurrence ρ read slope).Ordered (d.iterations R) := by
  have plain : ∀ env ∈ (d.iterations R : List (Env K)), ∀ e ∈ d.lhs ++ read, e.Plain ρ env
      (Atom.Among d.pureVars rdom.names T False) := fun env mem e listed =>
    h.plain env mem e (List.mem_cons_of_mem _ listed)
  have once := (h.once found).pairwise_position h.length id fun env mem e listed =>
    plain env mem e (List.mem_append_left _ listed)
  obtain ⟨unwritten, apart⟩ := (h.once found).pairwise_earlier h.length id h.arity plain earlier
  exact ⟨once.and unwritten, apart⟩

omit [IsStrictOrderedRing K] in
theorem mirrored_eq (d : Definition (Exact K)) (R : Domain) (rdom : ReductionDomain) : d.mirrored R rdom =
    (d.freeDomain R).points.flatMap fun p => rdom.points.reverse.map (d.iteration rdom p) := by
  unfold Definition.mirrored
  refine List.flatMap_congr fun p _ => ?_
  rw [← rdom.map_flip_points, List.map_map]
  rfl

/-- In the order of the synthesized update no iteration adds to a position whose value an earlier one has used. -/
theorem settled (h : Scanned ρ func d R rdom T read slope) (found : d.distinctPositions? = some written)
    (earlier : seen? written rdom read = some .earlier) :
    (d.recurrence ρ read slope).Settled (d.mirrored R rdom) := by
  rw [mirrored_eq]
  constructor
  · refine List.pairwise_flatMap.mpr ⟨fun p memP => ?_, (Domain.nodup_points _).imp_of_mem ?_⟩
    · refine List.pairwise_map.mpr (List.pairwise_reverse.mpr (rdom.sorted_points.imp_of_mem ?_))
      intro r q memR memQ less same
      exact lt_asymm less (h.writer_before found earlier memP memP memR memQ same).2
    · intro p p' memP memP' other x memX y memY same
      obtain ⟨r, memR, rfl⟩ := List.mem_map.mp memX
      obtain ⟨q, memQ, rfl⟩ := List.mem_map.mp memY
      exact other (h.writer_before found earlier memP' memP (List.mem_reverse.mp memQ) (List.mem_reverse.mp memR) same).1.symm
  · intro x mem
    obtain ⟨p, memP, mem⟩ := List.mem_flatMap.mp mem
    obtain ⟨r, memR, rfl⟩ := List.mem_map.mp mem
    exact h.apart found earlier memP (List.mem_reverse.mp memR)

omit [IsStrictOrderedRing K] in
theorem mirrored_perm (h : Scanned ρ func d R rdom T read slope) :
    (d.mirrored R rdom : List (Env K)).Perm (d.iterations R) := by
  rw [mirrored_eq, Definition.iterations_reduced h.length h.reduced]
  exact List.Perm.flatMap_left _ fun p _ => (List.reverse_perm _).map _

/-! ### The synthesized update -/

theorem varName?_read (h : Scanned ρ func d R rdom T read slope) (found : d.distinctPositions? = some written)
    (earlier : seen? written rdom read = some .earlier) (memP : p ∈ (d.freeDomain R).points) (memR : r ∈ rdom.points) :
    (read.map (Sweep.reflect rdom)).map varName? = d.lhs.map varName? := by
  have lhs := (h.once found).listed
  obtain ⟨relations, compare, -⟩ := Option.bind_eq_some_iff.mp earlier
  obtain ⟨cs, listed, compared⟩ := compared_of_mapM (h.arity.trans lhs.length_eq) compare
  have plain := h.plain_read memP (ReductionDomain.flip_mem_points memR)
  rw [Sweep.map_varName?_reflect h.names h.fit memR listed plain, ← compared.map_pure?, lhs.map_pure? h.placed]

theorem iterations_scanUpdate (h : Scanned ρ func d R rdom T read slope) (found : d.distinctPositions? = some written)
    (earlier : seen? written rdom read = some .earlier) (v : FuncId) :
    ((Sweep.scanUpdate d v read slope rdom).iterations R : List (Env K)) = d.iterations R := by
  by_cases empty : rdom.points = []
  · have none (d' : Definition (Exact K)) (reduced : d'.rdom = some rdom) : (d'.iterations R : List (Env K)) = [] := by
      rw [Definition.iterations_eq]
      unfold Definition.slice
      rw [reduced]
      change (Domain.points _).flatMap (fun p => rdom.points.map _) = []
      rw [empty]
      exact List.flatMap_eq_nil_iff.mpr fun _ _ => rfl
    rw [none _ rfl, none d h.reduced]
  · obtain ⟨r, memR⟩ := List.exists_mem_of_ne_nil _ empty
    obtain ⟨q, memQ⟩ := List.exists_mem_of_ne_nil _ h.filled
    have memP : pick d.lhs q ∈ (d.freeDomain R).points := by
      rw [freeDomain_eq]
      exact Domain.mem_points.mpr (within_pick (Domain.mem_points.mp memQ))
    have same : (Sweep.scanUpdate d v read slope rdom).free R = d.free R :=
      free_congr (h.varName?_read found earlier memP memR) R
    rw [Definition.iterations_eq, Definition.iterations_eq]
    unfold Definition.freeDomain Definition.freeNames Definition.slice
    rw [same, h.reduced]
    rfl

omit [IsStrictOrderedRing K] in
theorem position?_reflect (h : Scanned ρ func d R rdom T read slope) {v : FuncId} (off : ¬T (.func v))
    (memP : p ∈ (d.freeDomain R).points) (memR : r ∈ rdom.points) {args : List (Expr (Exact K))}
    (plain : ∀ e ∈ args, e.Plain ρ (d.iteration rdom p (rdom.flip r)) (Atom.Among d.pureVars rdom.names T False))
    (A : Contents K) : position? (ρ.answers.set v A) (d.iteration rdom p r) (args.map (Sweep.reflect rdom)) =
      some (position ρ (d.iteration rdom p (rdom.flip r)) args) := by
  have reflected : ∀ e ∈ args, (Sweep.reflect rdom e).Represents ρ (d.iteration rdom p r)
      (Atom.Among d.pureVars rdom.names T False) (e.value ρ (d.iteration rdom p (rdom.flip r))) :=
    fun e mem => Sweep.represents_reflect h.names h.fit memR (Represents.of_plain (plain e mem))
  rw [Expr.Neat.position?_set (List.forall_mem_map.mpr fun e mem => (reflected e mem).plain.neat) off
    (fun x mem => isSome_lookup_coordinates (h.length_of_mem memP) mem)
    (fun x mem => isSome_lookup_coordinates (ReductionDomain.length_of_mem_points memR) mem)]
  unfold position
  rw [List.map_map]
  exact congrArg some (List.map_congr_left fun e mem => congrArg Scalar.index (reflected e mem).value)

omit [IsStrictOrderedRing K] in
theorem step?_scanUpdate (h : Scanned ρ func d R rdom T read slope) {v : FuncId} (off : ¬T (.func v))
    (memP : p ∈ (d.freeDomain R).points) (memR : r ∈ rdom.points) (start : Contents K) (V : List Int → K) :
    (Sweep.scanUpdate d v read slope rdom).step? ρ.answers v start (.within R V) (d.iteration rdom p r) =
      some (.within R ((d.recurrence ρ read slope).retreat V (d.iteration rdom p (rdom.flip r)))) := by
  have memFlip := ReductionDomain.flip_mem_points memR
  have listed := h.mem_iterations memP memFlip
  have plainSlope := h.plain _ listed slope List.mem_cons_self
  have reflected := Sweep.represents_reflect h.names h.fit memR (Represents.of_plain plainSlope)
  have factor : (Sweep.reflect rdom slope).value? (ρ.answers.set v (Contents.within R V)) (d.iteration rdom p r) =
      some (slope.value ρ (d.iteration rdom p (rdom.flip r))) := by
    rw [← reflected.value]
    exact reflected.plain.neat.value?_set off (fun x mem => isSome_lookup_coordinates (h.length_of_mem memP) mem)
      (fun x mem => isSome_lookup_coordinates (ReductionDomain.length_of_mem_points memR) mem) _
  have atRead := h.position?_reflect off memP memR (h.plain_read memP memFlip) (.within R V)
  have atLhs := h.position?_reflect off memP memR (h.plain_lhs memP memFlip) (.within R V)
  obtain ⟨insideLhs, insideRead⟩ := h.inside _ listed
  have held {q : List Int} (inside : q ∈ R.points) : (ρ.answers.set v (Contents.within R V)).call v q = some (V q) := by
    rw [Answers.set_self]
    exact Contents.within_of_mem inside
  refine step?_within (iterate?_eq_some atRead ?_) insideRead
  exact value?_add_call atRead (held insideRead) (value?_mul_call reflected factor atLhs (held insideLhs))

theorem run?_scanUpdate (h : Scanned ρ func d R rdom T read slope) (found : d.distinctPositions? = some written)
    (earlier : seen? written rdom read = some .earlier) {v : FuncId} (off : ¬T (.func v)) (V : List Int → K) :
    (Sweep.scanUpdate d v read slope rdom).run? ρ.answers v ((Sweep.scanUpdate d v read slope rdom).iterations R)
      (.within R V) = some (.within R ((d.mirrored R rdom).foldl (d.recurrence ρ read slope).retreat V)) := by
  rw [h.iterations_scanUpdate found earlier, Definition.iterations_reduced h.length h.reduced]
  unfold Definition.run? Definition.mirrored
  rw [foldlM_flatMap, List.foldl_flatMap]
  refine Contents.foldlM_within (fun p memP F => ?_) V
  rw [List.foldlM_map, List.foldl_map]
  exact Contents.foldlM_within (fun r memR F => h.step?_scanUpdate off memP memR _ F) F

end Scanned

/-! ### The adjoint of a scan -/

/-- The func that runs a scan backwards holds, over a region, the result of the transposed recurrence. -/
theorem Scanned.contents?_scanFunc {s : Sweep (Exact K)} {t : Sweep.Step (Exact K)} {ρ : Valuation K} {R : Domain}
    {rdom : ReductionDomain} {T : Target → Prop} {read : List (Expr (Exact K))} {slope : Expr (Exact K)}
    {written : List Coord} (h : Scanned ρ (s.source.func t.func) t.definition R rdom T read slope)
    (found : t.definition.distinctPositions? = some written) (earlier : seen? written rdom read = some .earlier)
    {v : FuncId} (off : ¬T (.func v)) : (s.scanFunc t v read slope rdom).contents? ρ.answers v R =
      some (.within R ((t.definition.mirrored R rdom).foldl (t.definition.recurrence ρ read slope).retreat
        (ρ.call t.adjoint))) := by
  have begun : (s.scanFunc t v read slope rdom).start? ρ.answers R = some (.within R (ρ.call t.adjoint)) := by
    refine Func.start?_eq_some.mpr ⟨⟨(s.source.func t.func).argExprs, .call t.adjoint (s.source.func t.func).argExprs,
      none⟩, rfl, fun p mem => by rw [Contents.within_of_mem mem]; rfl, ?_⟩
    funext p
    by_cases mem : p ∈ R.points
    · have length : p.length = (s.source.func t.func).args.length := (Domain.length_of_mem_points mem).trans h.dims
      have vars : ∀ x, .var x ∈ (Expr.call t.adjoint (s.source.func t.func).argExprs : Expr (Exact K)).nodes →
          ((coordinates (Exact K) (s.source.func t.func).args p : List (Name × K)).lookup x).isSome := by
        intro x node
        refine isSome_lookup_coordinates length ?_
        simpa [nodes, mem_nodesList, Func.argExprs] using node
      have total : (Expr.call t.adjoint (s.source.func t.func).argExprs : Expr (Exact K)).value? ρ.answers
          ⟨coordinates (Exact K) (s.source.func t.func).args p, []⟩ = some (ρ.call t.adjoint p) := by
        rw [value?_answers vars fun x node => by simp [nodes, mem_nodesList, Func.argExprs] at node, value_call]
        exact congrArg (some ∘ ρ.call t.adjoint) (position_args h.args length [])
      rw [if_pos mem, Contents.within_of_mem mem]
      exact total.symm
    · rw [if_neg mem, Contents.within_of_not_mem mem]
  refine Option.bind_eq_some_iff.mpr ⟨_, begun, ?_⟩
  refine Option.bind_eq_some_iff.mpr ⟨_, h.run?_scanUpdate found earlier off _, ?_⟩
  rfl

/-- The adjoint of a scan is the transposed recurrence. Let the values of a func change from `prev` by running
`t(L) := [t(L) +] step * t(S) + other` through the iterations of an update that is classified as a scan with the earlier
read `S`. Then the func that reverse mode synthesizes computes a `V` from the adjoint of the stage such that the adjoint
pairs with the new values as `V`, cleared at the written positions unless the update accumulates, pairs with the old
ones, plus what `V` at the written position makes of `other` in every iteration. -/
theorem scan_transposes {s : Sweep (Exact K)} {t : Sweep.Step (Exact K)} {ρ : Valuation K} {R : Domain}
    {rdom : ReductionDomain} {T : Target → Prop} {read : List (Expr (Exact K))} {slope : Expr (Exact K)}
    {accumulates : Bool} {v : FuncId} (kind : t.definition.kindFor t.func = .ok (.scan read accumulates))
    (h : Scanned ρ (s.source.func t.func) t.definition R rdom T read slope) (off : ¬T (.func v)) :
    ∃ V : List Int → K, (s.scanFunc t v read slope rdom).contents? ρ.answers v R = some (.within R V) ∧
      ∀ (prev : List Int → K) (other : Env K → K),
        (R.points.map fun p => ρ.call t.adjoint p * (t.definition.iterations R).foldl
          ((t.definition.recurrence ρ read slope).advance accumulates other) prev p).sum =
        (R.points.map fun p => (if accumulates then V p
          else Term.run ρ (s.source.func t.func).args V (.mask t.definition.lhs t.definition.rdom) p) * prev p).sum +
        ((t.definition.iterations R).map fun env => V (position ρ env t.definition.lhs) * other env).sum := by
  obtain ⟨written, found, earlier, -⟩ := scan_of_kindFor kind h.reduced
  refine ⟨_, h.contents?_scanFunc found earlier off, fun prev other => ?_⟩
  refine (Recurrence.pairing (h.ordered found earlier) (h.settled found earlier) h.mirrored_perm R.nodup_points
    h.inside (ρ.call t.adjoint) prev other).trans ?_
  congr 2
  refine List.map_congr_left fun p mem => ?_
  congr 2
  exact (Term.run_mask h.placed.aligned h.args h.dims _ mem).symm

/-! ### An example -/

/-- `f(r) := f(r) + 2 * f(r - 1)` for `r` from 1 to 3. -/
def doubling : Sweep.Step (Exact ℚ) where
  func := ⟨0⟩
  stage := .update 0
  prior := .initial
  definition :=
    ⟨[.rvar "r"], .binary .add (.call ⟨0⟩ [.rvar "r"]) (.binary .mul (.ofInt 2) (.call ⟨0⟩ [.binary .sub (.rvar "r") .one])),
      some ⟨[("r", ⟨1, 3⟩)]⟩⟩
  adjoint := ⟨1⟩

namespace doubling

def source : Sweep (Exact ℚ) :=
  .start { funcs := #[⟨"f", ["x"], .user, some ⟨[.var "x"], .one, none⟩, [doubling.definition], none⟩] } {}

theorem kind : doubling.definition.kindFor ⟨0⟩ = .ok (.scan [.binary .sub (.rvar "r") .one] true) := rfl

def ones : Valuation ℚ := ⟨fun _ _ => 1, fun _ _ => 1, fun _ => 1⟩

theorem scanned : Scanned ones (source.source.func ⟨0⟩) doubling.definition ⟨[⟨0, 3⟩]⟩ ⟨[("r", ⟨1, 3⟩)]⟩
    (fun _ => False) [.binary .sub (.rvar "r") .one] (.ofInt 2) where
  reduced := rfl
  names := by decide
  fit := by decide
  args := by decide
  dims := rfl
  placed := by
    refine .cons (Or.inr ?_) .nil
    intro ρ env
    simp [Atom.Among, ReductionDomain.names]
  arity := rfl
  neat := by
    intro e mem ρ env
    rcases List.mem_pair.mp mem with rfl | rfl
    · exact (Represents.ofInt 2).plain
    · simp [Atom.Among, ReductionDomain.names, Expr.one, Exact.isNumber]
  plain := by
    intro env _ e mem
    simp only [doubling, List.singleton_append, List.mem_cons, List.not_mem_nil, or_false] at mem
    rcases mem with rfl | rfl | rfl
    · exact (Represents.ofInt 2).plain
    · simp [Atom.Among, ReductionDomain.names]
    · simp [Atom.Among, ReductionDomain.names, Expr.one, Exact.isNumber]
  inside := by decide +kernel
  filled := by decide

/-- Started from 1 everywhere, the scan arrives at 1, 3, 7, 15; its transpose arrives at values with the same sum. -/
theorem sums_agree : ∃ V : List Int → ℚ, (source.scanFunc doubling ⟨2⟩ [.binary .sub (.rvar "r") .one] (.ofInt 2)
    ⟨[("r", ⟨1, 3⟩)]⟩).contents? ones.answers ⟨2⟩ ⟨[⟨0, 3⟩]⟩ = some (.within ⟨[⟨0, 3⟩]⟩ V) ∧
    1 + 3 + 7 + 15 = V [0] + V [1] + V [2] + V [3] := by
  obtain ⟨V, holds, pairing⟩ := scan_transposes kind scanned (v := ⟨2⟩) id
  refine ⟨V, holds, ?_⟩
  have forwards : ((⟨[⟨0, 3⟩]⟩ : Domain).points.map fun p => ones.call doubling.adjoint p *
      (doubling.definition.iterations ⟨[⟨0, 3⟩]⟩).foldl ((doubling.definition.recurrence ones
        [.binary .sub (.rvar "r") .one] (.ofInt 2)).advance true fun _ => 0) (fun _ => 1) p).sum = 1 + 3 + 7 + 15 := by
    decide +kernel
  rw [← forwards, pairing (fun _ => 1) fun _ => 0]
  have points : (⟨[⟨0, 3⟩]⟩ : Domain).points = [[0], [1], [2], [3]] := by decide
  rw [points]
  simp [add_assoc]

end doubling

end ArrayDiff
