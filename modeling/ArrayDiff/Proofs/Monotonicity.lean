import ArrayDiff.Proofs.Confinement
import ArrayDiff.Proofs.Narrowing

/-!
# Smaller domains, smaller regions

When less of a func is wanted, no more of any other func is: a request for narrower ranges succeeds where one for wider
ranges does and is inside of it, and so the regions that are inferred for a domain lie inside of those for a larger one
(`Graph.bounds_monotone`).
-/

namespace ArrayDiff

/-! ### Boxes inside boxes -/

namespace Domain

variable {d e r : Domain}

theorem subset_of_inside (inside : List.Forall₂ Interval.Inside d.intervals e.intervals) : d.points ⊆ e.points := by
  have within {is js : List Interval} {p : List Int} (inside : List.Forall₂ Interval.Inside is js) (h : Within is p) :
      Within js p := by
    induction inside generalizing p with
    | nil => exact h
    | cons first _ ih =>
      cases h with
      | cons head tail => exact .cons (first _ head) (ih tail)
  intro p mem
  exact mem_points.mpr (within inside (mem_points.mp mem))

theorem map_mem_points (nonempty : d.isEmpty = false) {c : Interval → Int}
    (inside : ∀ i, i.min ≤ i.max → i.min ≤ c i ∧ c i ≤ i.max) : d.intervals.map c ∈ d.points := by
  refine mem_points.mpr (List.forall₂_map_right_iff.mpr (List.forall₂_same.mpr fun i mem => inside i ?_))
  by_contra less
  rw [isEmpty_iff.mpr ⟨i, mem, not_le.mp less⟩] at nonempty
  cases nonempty

theorem isEmpty_of_subset (nonempty : d.isEmpty = false) (sub : d.points ⊆ e.points) : e.isEmpty = false :=
  not_isEmpty_of_mem (sub (map_mem_points nonempty fun _ filled => ⟨le_refl _, filled⟩))

theorem inside_of_subset (nonempty : d.isEmpty = false) (sub : d.points ⊆ e.points) :
    List.Forall₂ Interval.Inside d.intervals e.intervals := by
  have corner {c : Interval → Int} (inside : ∀ i, i.min ≤ i.max → i.min ≤ c i ∧ c i ≤ i.max) :
      List.Forall₂ (fun (j : Interval) i => j.min ≤ c i ∧ c i ≤ j.max) e.intervals d.intervals :=
    List.forall₂_map_right_iff.mp (mem_points.mp (sub (map_mem_points nonempty inside)))
  have lows := corner (c := Interval.min) fun i filled => ⟨le_refl _, filled⟩
  have highs := corner (c := Interval.max) fun i filled => ⟨filled, le_refl _⟩
  refine List.forall₂_iff_get.mpr ⟨lows.length_eq.symm, fun k hd he => Interval.inside_iff.mpr (.inr ?_)⟩
  exact ⟨((List.forall₂_iff_get.mp lows).2 k he hd).1, ((List.forall₂_iff_get.mp highs).2 k he hd).2⟩

theorem inside_intervalUnion {i j k : Interval} (hi : i.Inside k) (hj : j.Inside k) : (i.union j).Inside k := by
  rw [Interval.inside_iff] at hi hj
  unfold Interval.union Interval.isEmpty
  simp only [decide_eq_true_eq]
  split
  · exact Interval.inside_iff.mpr hj
  split
  · exact Interval.inside_iff.mpr hi
  · refine Interval.inside_iff.mpr (.inr ?_)
    change k.min ≤ min i.min j.min ∧ max i.max j.max ≤ k.max
    omega

theorem union_subset (hd : d.points ⊆ r.points) (he : e.points ⊆ r.points) : (d.union e).points ⊆ r.points := by
  unfold union
  split
  · exact he
  split
  · exact hd
  rename_i filled filled'
  have zipped {is js ks : List Interval} (hi : List.Forall₂ Interval.Inside is ks)
      (hj : List.Forall₂ Interval.Inside js ks) : List.Forall₂ Interval.Inside (is.zipWith Interval.union js) ks := by
    induction hi generalizing js with
    | nil =>
      cases hj
      exact .nil
    | cons first _ ih =>
      cases hj with
      | cons first' rest' => exact .cons (inside_intervalUnion first first') (ih rest')
  exact subset_of_inside (zipped (inside_of_subset (Bool.not_eq_true _ ▸ filled) hd)
    (inside_of_subset (Bool.not_eq_true _ ▸ filled') he))

end Domain

variable {K : Type} [Field K] [LinearOrder K] [IsStrictOrderedRing K] [FloorRing K] [Transcendental K]

theorem Scope.under_of_subset {func : Func (Exact K)} {d : Definition (Exact K)} {region region' : Domain}
    (distinct : func.args.Nodup) (dims : region.dims = func.dims) (sub : region.points ⊆ region'.points)
    (reachable : (Scope.ofDefinition func d region : Scope (Exact K)).isReachable = true) :
    (Scope.ofDefinition func d region : Scope (Exact K)).Under (Scope.ofDefinition func d region') :=
  Scope.under_ofDefinition (Domain.inside_of_subset (Scope.isEmpty_of_isReachable distinct dims reachable) sub)

omit [Field K] [LinearOrder K] [IsStrictOrderedRing K] [FloorRing K] [Transcendental K] in
theorem Regions.Grows.merge {g : Graph (Exact K)} {regions after : Regions} {h : FuncId} {wanted : Domain}
    (inside : regions.Grows after g) (wide : wanted.points ⊆ (after.of g h).points) :
    Regions.Grows (regions.insert h (((regions.get? h).map (·.union wanted)).getD wanted)) after g := by
  intro k p mem
  rw [Regions.of_insert] at mem
  split at mem
  swap
  · exact inside k p mem
  rename_i here
  obtain rfl := here
  cases found : regions.get? h with
  | none =>
    rw [found] at mem
    exact wide mem
  | some old =>
    rw [found] at mem
    have before : regions.of g h = old := by
      unfold Regions.of
      rw [found]
      rfl
    exact Domain.union_subset (before ▸ inside h) wide mem

namespace Graph

variable {g : Graph (Exact K)} {f : FuncId} {d : Definition (Exact K)} {region region' extra bound : Domain}
  {regions regions' after : Regions}

/-- The positions that `f` writes to and the index arguments of what it reads are tame. -/
def TameIndices (g : Graph (Exact K)) (f : FuncId) : Prop :=
  ∀ entry ∈ (g.func f).definitions, (∀ e ∈ entry.2.lhs, e.Tame) ∧ ∀ r ∈ entry.2.reads, ∀ a ∈ r.args, a.Tame

/-! ### Requests -/

omit [IsStrictOrderedRing K] in
theorem request_eq_ok {target : Target} {spans : List (Span (Exact K))} {intervals : List Interval}
    (found : List.Forall₂ (fun (s : Span (Exact K)) i => s.toInterval? = some i) spans intervals) :
    g.request f target spans = .ok ⟨intervals⟩ := by
  have listed : spans = spans.zipIdx.map Prod.fst := (List.zipIdx_map_fst 0 spans).symm
  rw [listed, List.forall₂_map_left_iff] at found
  refine bind_eq_ok.mpr ⟨intervals, mapM_of_forall₂ (found.imp fun entry i found => ?_), rfl⟩
  dsimp only
  rw [found]
  rfl

/-- A request for narrower ranges succeeds if one for wider ranges does, and is inside of it. -/
theorem exists_request {target : Target} {spans spans' : List (Span (Exact K))} {wanted' : Domain}
    (narrower : List.Forall₂ Span.Narrower spans spans') (run : g.request f target spans' = .ok wanted') :
    ∃ wanted, g.request f target spans = .ok wanted ∧ wanted.points ⊆ wanted'.points := by
  have each {js : List Interval} (found : List.Forall₂ (fun (s : Span (Exact K)) j => s.toInterval? = some j) spans' js) :
      ∃ is, List.Forall₂ (fun (s : Span (Exact K)) i => s.toInterval? = some i) spans is ∧
        List.Forall₂ Interval.Inside is js := by
    clear run
    induction narrower generalizing js with
    | nil =>
      cases found
      exact ⟨[], .nil, .nil⟩
    | cons first _ ih =>
      cases found with
      | cons head tail =>
        obtain ⟨i, interval, inside⟩ := first.inside.toInterval? first.proper head
        obtain ⟨is, intervals, nested⟩ := ih tail
        exact ⟨i :: is, .cons interval intervals, .cons inside nested⟩
  obtain ⟨intervals, found, inside⟩ := each (intervals_of_request run)
  exact ⟨⟨intervals⟩, request_eq_ok found, Domain.subset_of_inside inside⟩

theorem exists_requestReads (distinct : (g.func f).args.Nodup) (fit : ∀ r ∈ d.reads, r.args.length = g.dimsOf r.target)
    (tame : ∀ r ∈ d.reads, ∀ a ∈ r.args, a.Tame) (dims : region.dims = (g.func f).dims)
    (sub : region.points ⊆ region'.points) (requested : g.Requested f region' d after) (shaped : regions.Shaped g)
    (inside : regions.Grows after g) :
    ∃ t, g.requestReads f region regions d = .ok t ∧ t.Shaped g ∧ t.Grows after g := by
  unfold requestReads
  dsimp only
  split
  · exact ⟨regions, rfl, shaped, inside⟩
  rename_i reached
  have reachable : (Scope.ofDefinition (g.func f) d region).isReachable = true := by simpa using reached
  have under := Scope.under_of_subset distinct dims sub reachable
  refine foldlM_succeeds (fun t : Regions => t.Shaped g ∧ t.Grows after g) ⟨shaped, inside⟩ fun access mem t kept => ?_
  obtain ⟨shaped, inside⟩ := kept
  obtain ⟨e, own, listed⟩ := List.mem_flatMap.mp mem
  obtain ⟨read, length⟩ := Expr.read_of_mem_accesses listed
  obtain ⟨access', listed', same, narrower⟩ := Expr.accesses_inside under
    (fun r mem => tame r (List.mem_flatMap.mpr ⟨e, own, mem⟩)) listed
  have read : access.read ∈ d.reads := List.mem_flatMap.mpr ⟨e, own, read⟩
  cases target : access.read.target with
  | buffer _ | param _ => exact ⟨t, rfl, shaped, inside⟩
  | func h =>
    dsimp only
    split
    · exact ⟨t, rfl, shaped, inside⟩
    rename_i other
    obtain ⟨wanted', request', inside'⟩ := requested.wanted (under.isReachable reachable)
      (List.mem_flatMap.mpr ⟨e, own, listed'⟩) (same ▸ target) other
    obtain ⟨wanted, request, sub'⟩ := exists_request narrower request'
    have fit : access.spans.length = (g.func h).dims := by
      rw [length, fit _ read, target]
      rfl
    obtain ⟨passed, -⟩ : g.Passed (fun _ => False) t _ ∧ _ := passed_request shaped request fit id
    exact exists_bind_ok request ⟨_, rfl, passed.shaped, inside.merge fun p mem => inside' p (sub' mem)⟩

/-! ### Updates -/

theorem exists_growByUpdate (distinct : (g.func f).args.Nodup)
    (reads : ∀ r ∈ d.reads, r.args.length = g.dimsOf r.target) (writes : d.lhs.length = (g.func f).dims)
    (tameLhs : ∀ e ∈ d.lhs, e.Tame) (tame : ∀ r ∈ d.reads, ∀ a ∈ r.args, a.Tame) (dims : region.dims = (g.func f).dims)
    (sub : region.points ⊆ region'.points) (widened : g.Widened f region' d bound)
    (start : extra.dims = (g.func f).dims) (inside : extra.points ⊆ bound.points) :
    ∃ grown, g.growByUpdate f region extra d = .ok grown ∧ grown.dims = (g.func f).dims ∧
      grown.points ⊆ bound.points := by
  unfold growByUpdate
  dsimp only
  split
  · exact ⟨extra, rfl, start, inside⟩
  rename_i reached
  have reachable : (Scope.ofDefinition (g.func f) d region).isReachable = true := by simpa using reached
  have under := Scope.under_of_subset distinct dims sub reachable
  have reachable' := under.isReachable reachable
  -- whatever else is added, it is inside of what the larger domain needs
  have add {t wanted wanted' : Domain} {spans : List (Span (Exact K))} (request : g.request f (.func f) spans = .ok wanted)
      (length : spans.length = (g.func f).dims) (kept : t.dims = (g.func f).dims ∧ t.points ⊆ bound.points)
      (narrower : wanted.points ⊆ wanted'.points) (wide : ∀ p ∈ wanted'.points, p ∈ bound.points) :
      (t.union wanted).dims = (g.func f).dims ∧ (t.union wanted).points ⊆ bound.points := by
    have same : t.dims = wanted.dims := kept.1.trans (length.symm.trans (intervals_of_request request).length_eq)
    exact ⟨(Domain.dims_union same).trans kept.1, Domain.union_subset kept.2 fun p mem => wide p (narrower mem)⟩
  obtain ⟨written', request', wide⟩ := widened.written reachable'
  obtain ⟨written, request, narrower⟩ := exists_request (Expr.spans_narrower under tameLhs) request'
  have length : (d.lhs.map (·.span (Scope.ofDefinition (g.func f) d region))).length = (g.func f).dims :=
    (List.length_map _).trans writes
  refine exists_bind_ok request ?_
  refine foldlM_succeeds (fun t : Domain => t.dims = (g.func f).dims ∧ t.points ⊆ bound.points)
    (add request length ⟨start, inside⟩ narrower wide) fun access listed t kept => ?_
  split
  swap
  · exact ⟨t, rfl, kept⟩
  rename_i self
  have own : d.value ∈ d.exprs := List.mem_append_right _ (List.mem_singleton_self _)
  obtain ⟨read, length⟩ := Expr.read_of_mem_accesses listed
  have fit := reads _ (List.mem_flatMap.mpr ⟨_, own, read⟩)
  obtain ⟨access', listed', same, narrower⟩ := Expr.accesses_inside under
    (fun r mem => tame r (List.mem_flatMap.mpr ⟨_, own, mem⟩)) listed
  obtain ⟨wanted', request', wide⟩ := widened.reread reachable' listed' (same ▸ self)
  obtain ⟨wanted, request, narrower⟩ := exists_request narrower request'
  refine exists_bind_ok request ⟨_, rfl, add request ?_ kept narrower wide⟩
  rw [length, fit, self]
  rfl

theorem exists_grownRegion (distinct : (g.func f).args.Nodup) (reads : g.ReadsFit f) (writes : g.WritesFit f)
    (tame : g.TameIndices f) (dims : region.dims = (g.func f).dims) (sub : region.points ⊆ region'.points)
    (boundDims : bound.dims = (g.func f).dims) (wider : ∀ p ∈ region'.points, p ∈ bound.points)
    (widened : region'.isEmpty = false → ∀ d ∈ (g.func f).updates, g.Widened f region' d bound) :
    ∃ grown, g.grownRegion f region = .ok grown ∧ grown.dims = (g.func f).dims ∧ grown.points ⊆ bound.points := by
  have inside : region.points ⊆ bound.points := fun p mem => wider p (sub mem)
  unfold grownRegion
  split
  · exact ⟨region, rfl, dims, inside⟩
  rename_i nonempty
  have nonempty' : region'.isEmpty = false := Domain.isEmpty_of_subset (Bool.not_eq_true _ ▸ nonempty) sub
  obtain ⟨extra, run, kept⟩ : ∃ extra, (g.func f).updates.foldlM (g.growByUpdate f region) (.empty (g.func f).dims) =
      .ok extra ∧ extra.dims = (g.func f).dims ∧ extra.points ⊆ bound.points := by
    refine foldlM_succeeds (fun t : Domain => t.dims = (g.func f).dims ∧ t.points ⊆ bound.points)
      ⟨List.length_replicate, fun p mem => Domain.mem_of_mem_empty mem boundDims⟩ fun d update t kept => ?_
    obtain ⟨i, listed⟩ := Func.mem_definitions_update update
    exact exists_growByUpdate distinct (reads _ d listed) (writes d update) (tame _ listed).1 (tame _ listed).2 dims sub
      (widened nonempty' d update) kept.1 kept.2
  have same : region.dims = extra.dims := dims.trans kept.1.symm
  exact exists_bind_ok run ⟨_, rfl, (Domain.dims_union same).trans dims, Domain.union_subset inside kept.2⟩

end Graph

/-! ### Regions -/

/-- Regions of the right shapes, each of them inside of the other one for the same func. -/
structure Regions.Under (r r' : Regions) (g : Graph (Exact K)) : Prop where
  shaped : r.Shaped g
  shaped' : r'.Shaped g
  inside : r.Grows r' g

omit [Field K] [LinearOrder K] [IsStrictOrderedRing K] [FloorRing K] [Transcendental K] in
theorem Regions.Under.insert {g : Graph (Exact K)} {f : FuncId} {r r' : Regions} {D D' : Domain} (h : r.Under r' g)
    (dims : D.dims = (g.func f).dims) (dims' : D'.dims = (g.func f).dims) (sub : D.points ⊆ D'.points) :
    Regions.Under (r.insert f D) (r'.insert f D') g := by
  refine ⟨h.shaped.insert dims, h.shaped'.insert dims', fun k p mem => ?_⟩
  rw [Regions.of_insert] at mem ⊢
  split at mem
  · rename_i here
    rw [if_pos here]
    exact sub mem
  · rename_i other
    rw [if_neg other]
    exact h.inside k p mem

namespace Graph

variable {g : Graph (Exact K)} {s : Schedule} {f root : FuncId} {D D' : Domain} {regions regions' after' : Regions}

/-- Settling a func keeps smaller regions inside of larger ones. -/
theorem exists_inferRegion (distinct : (g.func f).args.Nodup) (reads : g.ReadsFit f) (writes : g.WritesFit f)
    (tame : g.TameIndices f) (under : regions.Under regions' g) (run : g.inferRegion regions' f = .ok after') :
    ∃ after, g.inferRegion regions f = .ok after ∧ after.Under after' g := by
  obtain ⟨grown', settled', run⟩ := bind_eq_ok.mp run
  obtain ⟨dims', wider, widened⟩ := widened_of_grownRegion reads writes (under.shaped'.dims_of f) settled'
  obtain ⟨grown, settled, dims, sub⟩ := exists_grownRegion distinct reads writes tame (under.shaped.dims_of f)
    (under.inside f) dims' wider widened
  refine exists_bind_ok settled ?_
  refine foldlM_follows (fun t t' : Regions => t.Under t' g) run (under.insert dims dims' sub)
    fun entry listed t t' after' under run => ?_
  obtain ⟨passed, requested⟩ : g.Passed (fun _ => False) t' after' ∧ _ :=
    requested_of_requestReads under.shaped' (reads _ _ listed) (fun _ _ _ => id) run
  obtain ⟨after, run, shaped, inside⟩ := exists_requestReads distinct (reads _ _ listed) (tame _ listed).2 dims sub
    requested under.shaped (under.inside.trans passed.grows)
  exact ⟨after, run, shaped, passed.shaped, inside⟩

theorem exists_inferRegions (fits : g.Fits s) (tame : ∀ f ∈ s.funcs, g.TameIndices f)
    (dims : D.dims = (g.func root).dims) (dims' : D'.dims = (g.func root).dims) (sub : D.points ⊆ D'.points)
    (run : g.inferRegions s root D' = .ok regions') :
    ∃ regions, g.inferRegions s root D = .ok regions ∧ regions.Under regions' g := by
  have none : Regions.Shaped (Table.empty : Regions) g := fun _ _ found => nomatch found
  have start : Regions.Under (Table.empty : Regions) Table.empty g := ⟨none, none, Regions.Grows.refl _ _⟩
  refine foldlM_follows (fun t t' : Regions => t.Under t' g) run (start.insert dims dims' sub)
    fun f listed t t' after' under run => ?_
  have mem : f ∈ s.funcs := List.mem_reverse.mp listed
  have fit := fits f mem
  refine exists_inferRegion fit.1 (fun _ _ listed => (fit.2 _ listed).2) (fun d update => ?_) (tame f mem) under run
  obtain ⟨i, listed⟩ := Func.mem_definitions_update update
  exact (fit.2 _ listed).1

/-- When bounds can be inferred for a domain, they can be inferred for every smaller one, and no region has a point that
it does not have for the larger domain. Behind this, ranges of expressions only get wider in wider scopes. -/
theorem bounds_monotone (g : Graph (Exact K)) (s : Schedule) (root : FuncId) :
    (g.schedule root = .ok s → g.Fits s → (∀ f ∈ s.funcs, g.TameIndices f) → ∀ (D D' : Domain) (regions' : Regions),
      D.dims = (g.func root).dims → D'.dims = (g.func root).dims → D.points ⊆ D'.points →
      g.inferRegions s root D' = .ok regions' →
      ∃ regions, g.inferRegions s root D = .ok regions ∧
        ∀ f, (regions.of g f).points ⊆ (regions'.of g f).points) ∧
    ∀ (t t' : Scope (Exact K)) (e : Expr (Exact K)), t.Made → t'.Made → t.Inside t' → e.Tame →
      (e.span t).Inside (e.span t') := by
  refine ⟨fun _ fits tame D D' regions' dims dims' sub run => ?_, fun t t' e made made' inside tame => ?_⟩
  · obtain ⟨regions, run, under⟩ := exists_inferRegions fits tame dims dims' sub run
    exact ⟨regions, run, under.inside⟩
  · exact Expr.span_inside (inside.under made made') tame

end Graph

namespace sliding

/-- Less of `shifted` is wanted for one position than for two, and less of `squares`. -/
theorem nested : (∃ regions regions', sliding.inferRegions order ⟨0⟩ ⟨[⟨0, 0⟩]⟩ = .ok regions ∧
      sliding.inferRegions order ⟨0⟩ ⟨[⟨0, 1⟩]⟩ = .ok regions' ∧
      ∀ f, (regions.of sliding f).points ⊆ (regions'.of sliding f).points) ∧
    ((.binary .add (.var "x") .one : Expr (Exact ℚ)).span (({} : Scope (Exact ℚ)).bindVar "x" ⟨0, 0⟩)).Inside
      ((.binary .add (.var "x") .one : Expr (Exact ℚ)).span (({} : Scope (Exact ℚ)).bindVar "x" ⟨0, 1⟩)) := by
  have order : sliding.schedule ⟨0⟩ = .ok order := by decide +kernel
  have made : (sliding.inferRegions sliding.order ⟨0⟩ ⟨[⟨0, 1⟩]⟩).toOption.isSome = true := by decide +kernel
  obtain ⟨regions', run⟩ := Option.isSome_iff_exists.mp made
  have run := toOption_eq_some.mp run
  have tame : ∀ f ∈ sliding.order.funcs, sliding.TameIndices f := by
    unfold Graph.TameIndices
    decide
  obtain ⟨monotone, wider⟩ := Graph.bounds_monotone sliding sliding.order ⟨0⟩
  obtain ⟨regions, run', inside⟩ := monotone order distinct.fits tame ⟨[⟨0, 0⟩]⟩ _ regions' rfl rfl (by decide) run
  have bound : Interval.Inside ⟨0, 0⟩ ⟨0, 1⟩ := Interval.inside_iff.mpr (.inr (by decide))
  exact ⟨⟨regions, regions', run', run, inside⟩,
    wider _ _ _ (.bindVar _ _ .new) (.bindVar _ _ .new) (Scope.Under.new.bindVar bound).inside (by decide)⟩

end sliding

/-- A region that is not inside of the one for a larger domain. -/
def Graph.Exceeds (g : Graph (Exact K)) (root : FuncId) (D D' : Domain) : Prop :=
  ∃ s regions regions', g.schedule root = .ok s ∧
    (∀ f ∈ s.funcs, g.TameIndices f ∧ ∀ entry ∈ (g.func f).definitions,
      entry.2.lhs.length = (g.func f).dims ∧ ∀ r ∈ entry.2.reads, r.args.length = g.dimsOf r.target) ∧
    D.points ⊆ D'.points ∧ g.inferRegions s root D = .ok regions ∧ g.inferRegions s root D' = .ok regions' ∧
    ∃ f, ¬(regions.of g f).points ⊆ (regions'.of g f).points

/-- `copy` is `values`, at the place that is called `x`. -/
def copying (args : List Name) : Graph (Exact ℚ) where
  funcs := #[
    { name := "copy", args, init := some ⟨args.map .var, .call ⟨1⟩ [.var "x"], none⟩ },
    { name := "values", args := ["x"], init := some ⟨[.var "x"], .var "x", none⟩ }]

namespace copying

theorem exceeds_of_regions {args : List Name} {D D' : Domain} {n m : Int} (other : n ≠ m) (sub : D.points ⊆ D'.points)
    (fit : ∀ f ∈ [⟨1⟩, ⟨0⟩], (copying args).TameIndices f ∧ ∀ entry ∈ ((copying args).func f).definitions,
      entry.2.lhs.length = ((copying args).func f).dims ∧
        ∀ r ∈ entry.2.reads, r.args.length = (copying args).dimsOf r.target)
    (small : ∃ s regions, (copying args).schedule ⟨0⟩ = .ok s ∧ (copying args).inferRegions s ⟨0⟩ D = .ok regions ∧
      s.funcs = [⟨1⟩, ⟨0⟩] ∧ regions.of (copying args) ⟨0⟩ = D ∧ regions.of (copying args) ⟨1⟩ = ⟨[⟨n, n⟩]⟩)
    (large : ∃ s regions, (copying args).schedule ⟨0⟩ = .ok s ∧ (copying args).inferRegions s ⟨0⟩ D' = .ok regions ∧
      s.funcs = [⟨1⟩, ⟨0⟩] ∧ regions.of (copying args) ⟨0⟩ = D' ∧ regions.of (copying args) ⟨1⟩ = ⟨[⟨m, m⟩]⟩) :
    (copying args).Exceeds ⟨0⟩ D D' := by
  obtain ⟨s, regions, order, run, funcs, -, values⟩ := small
  obtain ⟨s', regions', order', run', -, -, values'⟩ := large
  obtain rfl : s = s' := Except.ok.inj (order.symm.trans order')
  refine ⟨s, regions, regions', order, funcs ▸ fit, sub, run, run', ⟨1⟩, fun inside => ?_⟩
  rw [values, values'] at inside
  have mem : [n] ∈ (⟨[⟨m, m⟩]⟩ : Domain).points :=
    inside (Domain.mem_points.mpr (.cons ⟨le_refl n, le_refl n⟩ .nil))
  cases Domain.mem_points.mp mem with
  | cons bounds _ => exact other (le_antisymm bounds.2 bounds.1)

/-- Where a dimension has no argument, or its argument has the name of another one, nobody notices that it is empty. -/
theorem exceeds : (copying ["x"]).Exceeds ⟨0⟩ ⟨[⟨0, 0⟩, ⟨0, -1⟩]⟩ ⟨[⟨5, 5⟩, ⟨0, 0⟩]⟩ ∧
    (copying ["x", "x"]).Exceeds ⟨0⟩ ⟨[⟨0, -1⟩, ⟨0, 0⟩]⟩ ⟨[⟨5, 5⟩, ⟨3, 3⟩]⟩ := by
  constructor
  · exact exceeds_of_regions (n := 0) (m := 5) (by decide) (by decide) (by unfold Graph.TameIndices; decide)
      (exists_regions _ _ _ _ _ _ (by decide +kernel)) (exists_regions _ _ _ _ _ _ (by decide +kernel))
  · exact exceeds_of_regions (n := 0) (m := 3) (by decide) (by decide) (by unfold Graph.TameIndices; decide)
      (exists_regions _ _ _ _ _ _ (by decide +kernel)) (exists_regions _ _ _ _ _ _ (by decide +kernel))

end copying

end ArrayDiff
