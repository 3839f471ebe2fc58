import ArrayDiff.Proofs.Contents
import ArrayDiff.Proofs.Number

/-!
# Regions that overlap

The iterations of an update over two regions share those whose pure variables lie in both. Every other iteration writes
outside one of the regions, so that what a func holds does not depend on the region it is computed over
(`contents?_agree`).
-/

namespace ArrayDiff

variable {κ α : Type} [Scalar κ] [Scalar α] [Embed κ α]

theorem lookup_zip {A : Type} {names : List Name} (distinct : names.Nodup) {vs : List A} {i : Nat} {x : Name} {v : A}
    (name : names[i]? = some x) (value : vs[i]? = some v) : (names.zip vs).lookup x = some v := by
  induction names generalizing vs i with
  | nil => simp at name
  | cons y names ih =>
    cases vs with
    | nil => simp at value
    | cons w vs =>
      rw [List.nodup_cons] at distinct
      cases i with
      | zero =>
        obtain rfl : y = x := by simpa using name
        simpa using value
      | succ i =>
        rw [List.getElem?_cons_succ] at name value
        have other : x ≠ y := fun same => distinct.1 (same ▸ List.mem_of_getElem? name)
        rw [List.zip_cons_cons, List.lookup_cons, beq_false_of_ne other]
        exact ih distinct.2 name value

omit [Scalar α] in
theorem lookup_coordinates {names : List Name} (distinct : names.Nodup) {p : List Int} {i : Nat} {x : Name} {v : Int}
    (name : names[i]? = some x) (value : p[i]? = some v) :
    (coordinates κ names p : List (Name × α)).lookup x = some (coordinate κ v) :=
  lookup_zip distinct name (by rw [List.getElem?_map, value]; rfl)

/-- The coordinate of a point along a variable; it is 0 along any other name. -/
def coordinateOf (names : List Name) (p : List Int) (x : Name) : Int := ((names.zip p).lookup x).getD 0

theorem coordinateOf_eq {names : List Name} (distinct : names.Nodup) {p : List Int} {i : Nat} {x : Name} {n : Int}
    (name : names[i]? = some x) (value : p[i]? = some n) : coordinateOf names p x = n := by
  unfold coordinateOf
  rw [lookup_zip distinct name value]
  rfl

omit [Scalar α] in
theorem lookup_coordinates_of_mem {names : List Name} (distinct : names.Nodup) {p : List Int}
    (length : p.length = names.length) {x : Name} (mem : x ∈ names) :
    (coordinates κ names p : List (Name × α)).lookup x = some (coordinate κ (coordinateOf names p x)) := by
  obtain ⟨k, less, rfl⟩ := List.mem_iff_getElem.mp mem
  have name := List.getElem?_eq_getElem less
  have value := List.getElem?_eq_getElem (length ▸ less : k < p.length)
  rw [coordinateOf_eq distinct name value]
  exact lookup_coordinates distinct name value

/-- Coordinates are addressed by themselves. -/
class ExactIndex (κ α : Type) [Scalar κ] [Scalar α] [Embed κ α] : Prop where
  index_coordinate (i : Int) : Scalar.index (coordinate κ i : α) = i

/-- The coordinates that a domain runs through are addressed by themselves. -/
def Domain.Addressed (κ α : Type) [Scalar κ] [Scalar α] [Embed κ α] (D : Domain) : Prop :=
  ∀ i ∈ D.intervals, ∀ v, i.min ≤ v → v ≤ i.max → Scalar.index (coordinate κ v : α) = v

theorem Domain.addressed [ExactIndex κ α] (D : Domain) : D.Addressed κ α :=
  fun _ _ v _ _ => ExactIndex.index_coordinate v

section ExactNumbers

variable {K : Type} [Field K] [LinearOrder K] [FloorRing K] [Transcendental K]

@[simp] theorem coordinate_exact (v : Int) : (coordinate (Exact K) v : K) = v := rfl

instance [IsStrictOrderedRing K] : ExactIndex (Exact K) K := ⟨fun i => Int.floor_intCast i⟩

end ExactNumbers

/-- Each pure variable stands alone in the position at most once. -/
def Definition.DistinctFree (d : Definition κ) : Prop := (d.lhs.filterMap Expr.varName?).Nodup

namespace Definition

/-- The pure variables that stand alone in the position, with the ranges that they run through. -/
def free (d : Definition κ) (region : Domain) : List (Name × Interval) :=
  (d.lhs.zip region.intervals).filterMap fun (e, i) => e.varName?.map fun x => (x, i)

def freeNames (d : Definition κ) (region : Domain) : List Name := (d.free region).map (·.1)

def freeDomain (d : Definition κ) (region : Domain) : Domain := ⟨(d.free region).map (·.2)⟩

/-- The iterations at given values of the pure variables. -/
def slice (d : Definition κ) (names : List Name) (x : List Int) : List (Env α) :=
  (d.rdom.elim [[]] ReductionDomain.points).map fun r =>
    ⟨coordinates κ names x, coordinates κ (d.rdom.elim [] ReductionDomain.names) r⟩

omit [Scalar α] in
theorem iterations_eq (d : Definition κ) (region : Domain) :
    (d.iterations region : List (Env α)) = (d.freeDomain region).points.flatMap (d.slice (d.freeNames region)) := rfl

omit [Scalar κ] in
theorem freeNames_eq (d : Definition κ) {region other : Domain} (same : region.dims = other.dims) :
    d.freeNames region = d.freeNames other := by
  obtain ⟨is⟩ := region
  obtain ⟨js⟩ := other
  unfold freeNames free
  simp only [Domain.dims] at same ⊢
  induction d.lhs generalizing is js with
  | nil => rfl
  | cons e es ih =>
    cases is with
    | nil =>
      obtain rfl : js = [] := List.length_eq_zero_iff.mp same.symm
      rfl
    | cons i is =>
      cases js with
      | nil => simp at same
      | cons j js =>
        have rest := ih is js (by simpa using same)
        rw [List.zip_cons_cons, List.zip_cons_cons, List.filterMap_cons, List.filterMap_cons]
        cases e.varName? <;> simp [rest]

omit [Scalar κ] in
theorem freeNames_sublist (d : Definition κ) (region : Domain) :
    List.Sublist (d.freeNames region) (d.lhs.filterMap Expr.varName?) := by
  obtain ⟨is⟩ := region
  unfold freeNames free
  simp only
  induction d.lhs generalizing is with
  | nil => simp
  | cons e es ih =>
    cases is with
    | nil => simp
    | cons i is =>
      have rest := ih is
      rw [List.zip_cons_cons, List.filterMap_cons, List.filterMap_cons]
      cases e.varName? with
      | none => exact rest
      | some x => exact rest.cons_cons x

variable {d : Definition κ} {P : Answers α} {f : FuncId}

omit [Scalar κ] in
theorem bound_of_position {env : Env α} {p : List Int} {region : Domain}
    (at' : Expr.position? P env d.lhs = some p) (inside : p ∈ region.points) :
    ∀ y i, (y, i) ∈ d.free region → ∃ v : α, env.vars.lookup y = some v ∧
      i.min ≤ Scalar.index v ∧ Scalar.index v ≤ i.max := by
  have within := Domain.mem_points.mp inside
  unfold free
  clear inside
  generalize region.intervals = is at within ⊢
  generalize d.lhs = es at at' ⊢
  induction es generalizing p is with
  | nil => simp
  | cons e es ih =>
    obtain ⟨v, value, at'⟩ := Option.bind_eq_some_iff.mp at'
    obtain ⟨q, rest, made⟩ := Option.bind_eq_some_iff.mp at'
    obtain rfl := Option.some.inj made
    cases within with
    | cons head tail =>
      intro y i mem
      rw [List.zip_cons_cons, List.filterMap_cons] at mem
      cases e with
      | var z =>
        rcases List.mem_cons.mp mem with same | mem
        · obtain ⟨rfl, rfl⟩ := Prod.mk.inj same
          refine ⟨v, ?_, head⟩
          change (List.lookup _ _).elim _ _ = _ at value
          cases found : env.vars.lookup y with
          | none => rw [found] at value; cases value
          | some w => rw [found] at value; exact value
        · exact ih _ tail rest y i mem
      | _ => exact ih _ tail rest y i mem

theorem within_free {names : List Name} (distinct : names.Nodup) {x : List Int} {r : List (Name × α)} {region : Domain}
    {p : List Int} (addressed : ∀ v ∈ x, Scalar.index (coordinate κ v : α) = v) (same : d.freeNames region = names)
    (length : x.length = names.length)
    (at' : Expr.position? P ⟨coordinates κ names x, r⟩ d.lhs = some p) (inside : p ∈ region.points) :
    x ∈ (d.freeDomain region).points := by
  refine Domain.mem_points.mpr ?_
  rw [freeDomain, Within, List.forall₂_iff_get]
  have size : (d.free region).length = names.length := by rw [← same, freeNames, List.length_map]
  refine ⟨by simp [size, length], fun j hj hx => ?_⟩
  simp only [List.length_map] at hj
  obtain ⟨v, found, bound⟩ := bound_of_position at' inside _ _ (List.getElem_mem hj)
  have name : names[j]? = some (d.free region)[j].1 := by
    rw [← same, freeNames, List.getElem?_map, List.getElem?_eq_getElem hj]
    rfl
  have value := lookup_coordinates (κ := κ) (α := α) distinct name (List.getElem?_eq_getElem hx)
  obtain rfl := Option.some.inj (found.symm.trans value)
  rw [addressed _ (List.getElem_mem hx)] at bound
  simpa using bound

omit [Scalar κ] in
theorem step?_agree {start start' A A' B B' : Contents α} {env : Env α} (starts : start.Agree start')
    (h : A.Agree A') (hB : d.step? P f start A env = some B) (hB' : d.step? P f start' A' env = some B') :
    B.Agree B' := by
  obtain ⟨p, v, position, value, stored⟩ := step?_eq_some.mp hB
  obtain ⟨q, w, position', value', stored'⟩ := step?_eq_some.mp hB'
  have seen : Contents.Agree (if d.rdom.isSome then A else start) (if d.rdom.isSome then A' else start') := by
    split
    · exact h
    · exact starts
  have related (e : Expr κ) : Expr.Related Lifting.agree Eq (P.set f (if d.rdom.isSome then A else start)).reader
      (P.set f (if d.rdom.isSome then A' else start')).reader env env e := by
    refine ⟨fun _ => rfl, ?_, ?_, ?_, ?_, ?_⟩
    · intro x _ v w hv hw
      exact Option.some.inj (hv.symm.trans hw)
    · intro x _ v w hv hw
      exact Option.some.inj (hv.symm.trans hw)
    · intro g args index _ v w hv hw
      by_cases self : g = f
      · rw [self] at hv hw
        exact seen index v w (by simpa [Answers.reader] using hv) (by simpa [Answers.reader] using hw)
      · simp only [Answers.reader, Answers.set_of_ne _ _ self] at hv hw
        exact Option.some.inj (hv.symm.trans hw)
    · intro b index v w hv hw
      exact Option.some.inj (hv.symm.trans hw)
    · intro i v w hv hw
      exact Option.some.inj (hv.symm.trans hw)
  obtain rfl := Expr.evalIndex_related Respected.eq (fun a _ => related a) _ _ position position'
  obtain rfl := Expr.eval_rel Respected.eq (related d.value) _ _ value value'
  exact h.store stored stored'

theorem addressed_free (d : Definition κ) {R : Domain} (h : R.Addressed κ α) {x : List Int}
    (mem : x ∈ (d.freeDomain R).points) : ∀ v ∈ x, Scalar.index (coordinate κ v : α) = v := by
  have ranges : ∀ i ∈ (d.freeDomain R).intervals, i ∈ R.intervals := by
    intro i listed
    obtain ⟨entry, own, rfl⟩ := List.mem_map.mp listed
    obtain ⟨⟨e, j⟩, both, found⟩ := List.mem_filterMap.mp own
    obtain ⟨y, -, rfl⟩ := Option.map_eq_some_iff.mp found
    exact (List.of_mem_zip both).2
  intro v inside
  obtain ⟨k, less, rfl⟩ := List.mem_iff_getElem.mp inside
  obtain ⟨lengths, bounds⟩ := List.forall₂_iff_get.mp (Domain.mem_points.mp mem)
  have less' : k < (d.freeDomain R).intervals.length := lengths ▸ less
  obtain ⟨low, high⟩ := bounds k less' less
  exact h _ (ranges _ (List.get_mem _ ⟨k, less'⟩)) _ low high

theorem step?_alone {names : List Name} (distinct : names.Nodup) {S S' : Domain} {start C D C' : Contents α}
    {x : List Int} {env : Env α} (addressed : ∀ v ∈ x, Scalar.index (coordinate κ v : α) = v)
    (length : x.length = names.length)
    (off : x ∉ (d.freeDomain S').points) (same : d.freeNames S' = names) (mem : env ∈ d.slice names x)
    (held : ∀ q, (C q).isSome = true ↔ q ∈ S.points) (held' : ∀ q, (C' q).isSome = true ↔ q ∈ S'.points)
    (agree : C.Agree C') (step : d.step? P f start C env = some D) :
    D.Agree C' ∧ ∀ q, (D q).isSome = true ↔ q ∈ S.points := by
  obtain ⟨r, -, rfl⟩ := List.mem_map.mp mem
  obtain ⟨p, v, position, -, stored⟩ := step?_eq_some.mp step
  have outside : p ∉ S'.points := fun inside => off (within_free distinct addressed same length position inside)
  refine ⟨agree.store_left stored ?_, fun q => ?_⟩
  · rw [← Option.not_isSome_iff_eq_none, held']
    exact outside
  · rw [Contents.isSome_of_store? stored]
    exact held q

/-- An update that is run over two regions writes the same values where they overlap. -/
theorem run?_agree (distinct : d.DistinctFree) {R R' : Domain} (addressed : R.Addressed κ α) (addressed' : R'.Addressed κ α)
    (dims : R.dims = R'.dims)
    {A A' B B' : Contents α} (heldA : ∀ q, (A q).isSome = true ↔ q ∈ R.points)
    (heldA' : ∀ q, (A' q).isSome = true ↔ q ∈ R'.points) (h : A.Agree A')
    (hB : d.run? P f (d.iterations R) A = some B) (hB' : d.run? P f (d.iterations R') A' = some B') : B.Agree B' := by
  have names := d.freeNames_eq dims
  have nodup : (d.freeNames R).Nodup := distinct.sublist (d.freeNames_sublist R)
  unfold run? at hB hB'
  rw [iterations_eq, foldlM_flatMap] at hB hB'
  rw [← names] at hB'
  let inv (C C' : Contents α) : Prop := C.Agree C' ∧ (∀ q, (C q).isSome = true ↔ q ∈ R.points) ∧
    ∀ q, (C' q).isSome = true ↔ q ∈ R'.points
  have lengths : ∀ S : Domain, d.freeNames S = d.freeNames R → ∀ x ∈ (d.freeDomain S).points,
      x.length = (d.freeNames R).length := by
    intro S same x mem
    rw [Domain.length_of_mem_points mem, ← same, freeNames, List.length_map, Domain.dims, freeDomain, List.length_map]
  have off {S : Domain} {x : List Int} (absent : (d.freeDomain S).contains x = false) : x ∉ (d.freeDomain S).points := by
    intro inside
    rw [Domain.contains_eq_true.mpr inside] at absent
    cases absent
  -- points of pure variables that both regions have come in the same order; the others write outside the other region
  have result : inv B B' := by
    refine foldlM_merge inv (Domain.filter_product (d.freeDomain R) (d.freeDomain R')) ?_ ?_ ?_ hB hB' ⟨h, heldA, heldA'⟩
    · intro x mem absent C D C' run hinv
      refine foldlM_some_invariant (fun D => inv D C') run hinv ?_
      rintro env member C D ⟨agree, held, held'⟩ step
      obtain ⟨agree', held''⟩ :=
        step?_alone nodup (d.addressed_free addressed mem) (lengths R rfl x mem) (off absent) names.symm
          member held held' agree step
      exact ⟨agree', held'', held'⟩
    · intro x mem absent C C' D' run hinv
      refine foldlM_some_invariant (fun D' => inv C D') run hinv ?_
      rintro env member C' D' ⟨agree, held, held'⟩ step
      obtain ⟨agree', held''⟩ :=
        step?_alone nodup (d.addressed_free addressed' mem) (lengths R' names.symm x mem) (off absent) rfl
          member held' held agree.symm step
      exact ⟨agree'.symm, held, held''⟩
    · intro x _ _ C D C' D' run run' hinv
      refine foldlM_both inv ?_ run run' hinv
      rintro env - C D C' D' step step' ⟨agree, held, held'⟩
      refine ⟨step?_agree h agree step step', fun q => ?_, fun q => ?_⟩
      · obtain ⟨_, -, stored⟩ := Option.bind_eq_some_iff.mp step
        rw [Contents.isSome_of_store? stored, held]
      · obtain ⟨_, -, stored⟩ := Option.bind_eq_some_iff.mp step'
        rw [Contents.isSome_of_store? stored, held']
  exact result.1

end Definition

/-- Where two regions overlap, a func holds the same values over both. -/
theorem Func.contents?_agree {P : Answers α} {f : FuncId} {func : Func κ} {R R' : Domain}
    (distinct : ∀ d ∈ func.updates, d.DistinctFree)
    (addressed : func.updates ≠ [] → R.Addressed κ α ∧ R'.Addressed κ α) {A A' : Contents α}
    (hA : func.contents? P f R = some A) (hA' : func.contents? P f R' = some A') : A.Agree A' := by
  by_cases dims : R.dims = R'.dims
  swap
  · intro p v w hv hw
    have inside := (Func.isSome_of_contents? hA p).mp (by rw [hv]; rfl)
    have inside' := (Func.isSome_of_contents? hA' p).mp (by rw [hw]; rfl)
    exact absurd ((Domain.length_of_mem_points inside).symm.trans (Domain.length_of_mem_points inside')) dims
  obtain ⟨B, begun, run⟩ := Option.bind_eq_some_iff.mp hA
  obtain ⟨B', begun', run'⟩ := Option.bind_eq_some_iff.mp hA'
  have start : B.Agree B' := by
    obtain ⟨d, found, -, rfl⟩ := Func.start?_eq_some.mp begun
    obtain ⟨d', found', -, rfl⟩ := Func.start?_eq_some.mp begun'
    obtain rfl := Option.some.inj (found.symm.trans found')
    intro p v w hv hw
    simp only [Option.ite_none_right_eq_some] at hv hw
    exact Option.some.inj (hv.2.symm.trans hw.2)
  have all : A.Agree A' ∧ (∀ q, (A q).isSome = true ↔ q ∈ R.points) ∧ ∀ q, (A' q).isSome = true ↔ q ∈ R'.points := by
    refine foldlM_both (fun C C' : Contents α => C.Agree C' ∧ (∀ q, (C q).isSome = true ↔ q ∈ R.points) ∧
      ∀ q, (C' q).isSome = true ↔ q ∈ R'.points) ?_ run run'
      ⟨start, Func.isSome_of_start? begun, Func.isSome_of_start? begun'⟩
    rintro d mem C D C' D' step step' ⟨agree, held, held'⟩
    obtain ⟨first, second⟩ := addressed (List.ne_nil_of_mem mem)
    refine ⟨Definition.run?_agree (distinct d mem) first second dims held held' agree step step', fun q => ?_, fun q => ?_⟩
    · rw [Definition.isSome_of_run? step, held]
    · rw [Definition.isSome_of_run? step', held']
  exact all.1

end ArrayDiff
