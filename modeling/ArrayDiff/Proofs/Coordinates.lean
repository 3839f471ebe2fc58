import ArrayDiff.Proofs.Contribution
import ArrayDiff.Proofs.Failure
import ArrayDiff.Recurrence

/-!
# Which iteration writes the position that another one reads

The positions of an update are compared through their coordinates. A position that `Definition.distinctPositions?`
accepts belongs to one iteration only (`WritesOnce.inj`, and for all iterations `Definition.pairwise_writesOnce`), and
`seen?` tells whether a read addresses the position of an iteration that runs before (`WritesOnce.writer`).
-/

open ArrayDiff.Expr

namespace ArrayDiff

variable {K : Type} [Field K] [LinearOrder K] [IsStrictOrderedRing K] [FloorRing K] [Transcendental K]

/-! ### Values of coordinates -/

namespace Coord

/-- The value of a coordinate for given values of the pure and of the reduction variables. -/
def place (w u : Name → Int) : Coord → Int
  | fixed k => k
  | pure x => w x
  | reduction x positive offset => if positive then u x + offset else offset - u x

section Spelling

variable {κ : Type} [Extended κ]

/-- The simplified expressions that stand for a coordinate. -/
inductive SpelledBy : Coord → Expr κ → Prop
  | fixed {e : Expr κ} {k : Int} (integer : e.integer? = some k) : SpelledBy (fixed k) e
  | pure (x : Name) : SpelledBy (pure x) (.var x)
  | rvar (x : Name) : SpelledBy (reduction x true 0) (.rvar x)
  | neg (x : Name) : SpelledBy (reduction x false 0) (.unary .neg (.rvar x))
  | addRight {b : Expr κ} {c : Int} (x : Name) (integer : b.integer? = some c) :
    SpelledBy (reduction x true c) (.binary .add (.rvar x) b)
  | addLeft {a : Expr κ} {c : Int} (x : Name) (integer : a.integer? = some c) :
    SpelledBy (reduction x true c) (.binary .add a (.rvar x))
  | subRight {b : Expr κ} {c : Int} (x : Name) (integer : b.integer? = some c) :
    SpelledBy (reduction x true (-c)) (.binary .sub (.rvar x) b)
  | subLeft {a : Expr κ} {c : Int} (x : Name) (integer : a.integer? = some c) :
    SpelledBy (reduction x false c) (.binary .sub a (.rvar x))

omit [Extended κ] in
theorem along?_eq_some {e : Expr κ} {positive : Bool} {offset : Int} {c : Coord}
    (found : along? e positive offset = some c) : ∃ x, e = .rvar x ∧ c = reduction x positive offset := by
  cases e with
  | rvar x => exact ⟨x, rfl, (Option.some.inj found).symm⟩
  | _ => cases found

theorem spelledBy_of_ofSimplified? {e : Expr κ} {c : Coord} (found : ofSimplified? e = some c) :
    c.SpelledBy e := by
  unfold ofSimplified? at found
  split at found
  · rename_i k integer
    obtain rfl := Option.some.inj found
    exact .fixed integer
  split at found
  · obtain rfl := Option.some.inj found
    exact .pure _
  · obtain rfl := Option.some.inj found
    exact .rvar _
  · obtain ⟨x, rfl, rfl⟩ := along?_eq_some found
    exact .neg x
  · split at found
    · rename_i integer
      obtain ⟨x, rfl, rfl⟩ := along?_eq_some found
      exact .addRight x integer
    · rename_i integer _
      obtain ⟨x, rfl, rfl⟩ := along?_eq_some found
      exact .addLeft x integer
    · cases found
  · split at found
    · rename_i integer
      obtain ⟨x, rfl, rfl⟩ := along?_eq_some found
      exact .subRight x integer
    · rename_i integer _
      obtain ⟨x, rfl, rfl⟩ := along?_eq_some found
      exact .subLeft x integer
    · cases found
  · cases found

theorem SpelledBy.not_mem_var {c : Coord} {e : Expr κ} (spelled : c.SpelledBy e) (other : c.pure? = none)
    (x : Name) : .var x ∉ e.nodes := by
  have number {a : Expr κ} {k : Int} (integer : a.integer? = some k) : .var x ∉ a.nodes := by
    obtain ⟨n, const, -⟩ := Option.bind_eq_some_iff.mp integer
    rw [const?_eq_some const]
    simp [nodes]
  cases spelled with
  | fixed integer => exact number integer
  | pure y => cases other
  | rvar y => simp [nodes]
  | neg y => simp [nodes]
  | addRight y integer => simp [nodes, number integer]
  | addLeft y integer => simp [nodes, number integer]
  | subRight y integer => simp [nodes, number integer]
  | subLeft y integer => simp [nodes, number integer]

theorem SpelledBy.eq_var {c : Coord} {e : Expr κ} (spelled : c.SpelledBy e) {x : Name}
    (own : c.pure? = some x) : e = .var x := by
  cases spelled <;> cases own
  rfl

/-- The coordinates of a list of index arguments. -/
abbrev Listed (args : List (Expr κ)) (cs : List Coord) : Prop :=
  List.Forall₂ (fun a c => ofExpr? a = some c) args cs

end Spelling

omit [IsStrictOrderedRing K] in
theorem SpelledBy.value {c : Coord} {e : Expr (Exact K)} (spelled : c.SpelledBy e) {ρ : Valuation K} {env : Env K}
    {w u : Name → Int} (vars : ∀ x, env.var x = (w x : K)) (rvars : ∀ x, env.rvar x = (u x : K)) :
    e.value ρ env = (c.place w u : K) := by
  cases spelled with
  | fixed integer => exact value_of_integer? integer
  | pure x => rw [value_var, vars, Coord.place]
  | rvar x =>
    rw [value_rvar, rvars]
    simp [Coord.place]
  | neg x =>
    rw [value_neg, value_rvar, rvars]
    simp [Coord.place]
  | addRight x integer =>
    rw [value_add, value_rvar, rvars, value_of_integer? integer]
    simp [Coord.place]
  | addLeft x integer =>
    rw [value_add, value_rvar, rvars, value_of_integer? integer]
    simp [Coord.place, add_comm]
  | subRight x integer =>
    rw [value_sub, value_rvar, rvars, value_of_integer? integer]
    simp [Coord.place, sub_eq_add_neg]
  | subLeft x integer =>
    rw [value_sub, value_rvar, rvars, value_of_integer? integer]
    simp [Coord.place]

theorem position_of_listed {args : List (Expr (Exact K))} {cs : List Coord} (listed : Listed args cs) {ρ : Valuation K}
    {env : Env K} {Q : Atom → Prop} (strict : ¬Q .logic) (plain : ∀ a ∈ args, a.Plain ρ env Q) {w u : Name → Int}
    (vars : ∀ x, env.var x = (w x : K)) (rvars : ∀ x, env.rvar x = (u x : K)) :
    position ρ env args = cs.map (Coord.place w u) := by
  induction listed with
  | nil => rfl
  | @cons a c args cs head tail ih =>
    have value : a.value ρ env = (c.place w u : K) := by
      rw [← value_simplify strict (plain a List.mem_cons_self)]
      exact (spelledBy_of_ofSimplified? head).value vars rvars
    have rest := ih fun b mem => plain b (List.mem_cons_of_mem _ mem)
    rw [position_cons, rest, value, List.map_cons]
    exact congrArg (· :: _) (Int.floor_intCast _)

end Coord

/-! ### Coordinates of points -/

omit [IsStrictOrderedRing K] in
theorem var_coordinates (names : List Name) (p : List Int) (r : List (Name × K)) (x : Name) :
    (⟨coordinates (Exact K) names p, r⟩ : Env K).var x = (coordinateOf names p x : K) := by
  unfold Env.var coordinateOf coordinates
  induction names generalizing p with
  | nil => simp
  | cons y names ih =>
    cases p with
    | nil => simp
    | cons v p =>
      simp only [List.map_cons, List.zip_cons_cons, List.lookup_cons]
      cases x == y with
      | true => rfl
      | false => exact ih p

omit [IsStrictOrderedRing K] in
theorem rvar_coordinates (names : List Name) (r : List Int) (p : List (Name × K)) (x : Name) :
    (⟨p, coordinates (Exact K) names r⟩ : Env K).rvar x = (coordinateOf names r x : K) :=
  var_coordinates names r [] x

theorem map_coordinateOf {names : List Name} (distinct : names.Nodup) {p : List Int} (length : p.length = names.length) :
    names.map (coordinateOf names p) = p := by
  refine List.ext_getElem (by simp [length]) fun i hi hp => ?_
  rw [List.getElem_map]
  exact coordinateOf_eq distinct (List.getElem?_eq_getElem (by simpa using hi)) (List.getElem?_eq_getElem hp)

theorem coordinateOf_inj {names : List Name} (distinct : names.Nodup) {p q : List Int}
    (lengthP : p.length = names.length) (lengthQ : q.length = names.length)
    (same : ∀ x ∈ names, coordinateOf names p x = coordinateOf names q x) : p = q := by
  rw [← map_coordinateOf distinct lengthP, ← map_coordinateOf distinct lengthQ]
  exact List.map_congr_left same

omit [IsStrictOrderedRing K] in
theorem pick_position (lhs : List (Expr (Exact K))) (ρ : Valuation K) (env : Env K) :
    pick lhs (position ρ env lhs) = (lhs.filterMap varName?).map fun x => Scalar.index (env.var x) := by
  unfold position
  induction lhs with
  | nil => rfl
  | cons e lhs ih =>
    rw [List.map_cons]
    cases name : e.varName? with
    | none =>
      rw [pick_cons_none name, List.filterMap_cons_none name]
      exact ih
    | some x =>
      rw [pick_cons_some name, List.filterMap_cons_some name, List.map_cons]
      cases e with
      | var y =>
        obtain rfl := Option.some.inj name
        rw [ih, value_var]
      | _ => cases name

namespace ReductionDomain

variable {rdom : ReductionDomain} {r q : List Int}

theorem length_of_mem_points (mem : r ∈ rdom.points) : r.length = rdom.names.length := by
  rw [← (mem_points.mp mem).length_eq, names, List.length_map, List.length_map]

theorem coordinateOf_bounds (distinct : rdom.names.Nodup) (mem : r ∈ rdom.points) {x : Name} {i : Interval}
    (listed : (x, i) ∈ rdom.dims) : i.min ≤ coordinateOf rdom.names r x ∧ coordinateOf rdom.names r x ≤ i.max := by
  obtain ⟨k, at'⟩ := List.mem_iff_getElem?.mp listed
  have less : k < rdom.dims.length := (List.getElem?_eq_some_iff.mp at').1
  have lessR : k < r.length := by rw [length_of_mem_points mem, names, List.length_map]; exact less
  have name : rdom.names[k]? = some x := by rw [names, List.getElem?_map, at']; rfl
  have inside := (mem_points.mp mem).get (by rw [List.length_map]; exact less) lessR
  rw [coordinateOf_eq distinct name (List.getElem?_eq_getElem lessR)]
  simpa [(List.getElem?_eq_some_iff.mp at').2] using inside

theorem sorted_points (rdom : ReductionDomain) : rdom.points.Pairwise fun r q => r.reverse < q.reverse := by
  unfold points
  rw [List.pairwise_map]
  simpa using Domain.sorted_product (rdom.dims.map (·.2)).reverse

end ReductionDomain

/-! ### Relations -/

/-- Coordinates compared one by one. -/
inductive Compared : List Coord → List Coord → List Relation → Prop
  | nil : Compared [] [] []
  | cons {w r : Coord} {rel : Relation} {ws rs : List Coord} {rels : List Relation} (head : w.relation? r = some rel)
    (tail : Compared ws rs rels) : Compared (w :: ws) (r :: rs) (rel :: rels)

theorem Coord.place_eq_place {written read : Coord} {rel : Relation} (related : written.relation? read = some rel)
    {w w' u u' : Name → Int} (same : read.place w u = written.place w' u') :
    rel ≠ .never ∧ (∀ x, written.pure? = some x → w x = w' x) ∧ ∀ x delta, rel = .shifted x delta → u' x = u x + delta := by
  cases written with
  | fixed k =>
    cases read with
    | fixed j =>
      have equal : k = j := Eq.symm same
      obtain rfl := Option.some.inj related
      rw [if_pos equal]
      simp [pure?]
    | _ => cases related
  | pure x =>
    cases read with
    | pure y =>
      obtain ⟨rfl, made⟩ := Option.ite_none_right_eq_some.mp related
      obtain rfl := Option.some.inj made
      simpa [pure?, place] using same
    | _ => cases related
  | reduction x positive offset =>
    cases read with
    | reduction y sign o =>
      obtain ⟨⟨rfl, rfl⟩, made⟩ := Option.ite_none_right_eq_some.mp related
      obtain rfl := Option.some.inj made
      refine ⟨by simp, by simp [pure?], ?_⟩
      intro y delta found
      obtain ⟨rfl, rfl⟩ := Relation.shifted.inj found
      cases positive <;> simp only [Coord.place, if_true, if_false, Bool.false_eq_true] at same ⊢ <;> omega
    | _ => cases related

theorem Coord.reduction?_of_relation? {written read : Coord} {rel : Relation}
    (related : written.relation? read = some rel) (x : Name) :
    written.reduction? = some x ↔ ∃ delta, rel = .shifted x delta := by
  cases written with
  | fixed k =>
    cases read with
    | fixed j =>
      obtain rfl := Option.some.inj related
      split <;> simp [reduction?]
    | _ => cases related
  | pure y =>
    cases read with
    | pure z =>
      obtain ⟨-, made⟩ := Option.ite_none_right_eq_some.mp related
      obtain rfl := Option.some.inj made
      simp [reduction?]
    | _ => cases related
  | reduction y positive offset =>
    cases read with
    | reduction z sign o =>
      obtain ⟨-, made⟩ := Option.ite_none_right_eq_some.mp related
      obtain rfl := Option.some.inj made
      simp [reduction?]
    | _ => cases related

theorem Coord.relation?_self (c : Coord) : c.relation? c = some .same ∨ ∃ x, c.relation? c = some (.shifted x 0) := by
  cases c with
  | fixed k => simp [relation?]
  | pure x => simp [relation?]
  | reduction x positive offset => simp [relation?]

namespace Compared

variable {written read : List Coord} {relations : List Relation}

theorem place_eq_place (h : Compared written read relations) {w w' u u' : Name → Int}
    (same : read.map (Coord.place w u) = written.map (Coord.place w' u')) :
    (∀ x ∈ written.filterMap Coord.pure?, w x = w' x) ∧
      ∀ x delta, .shifted x delta ∈ relations → u' x = u x + delta := by
  induction h with
  | nil => simp
  | @cons c r rel ws rs rels head tail ih =>
    rw [List.map_cons, List.map_cons, List.cons.injEq] at same
    obtain ⟨-, pure, shifts⟩ := Coord.place_eq_place head same.1
    obtain ⟨pures, shiftss⟩ := ih same.2
    refine ⟨fun x mem => ?_, fun x delta mem => ?_⟩
    · obtain ⟨c', listed, own⟩ := List.mem_filterMap.mp mem
      rcases List.mem_cons.mp listed with rfl | listed
      · exact pure x own
      · exact pures x (List.mem_filterMap.mpr ⟨c', listed, own⟩)
    · rcases List.mem_cons.mp mem with same | mem
      · exact shifts x delta same.symm
      · exact shiftss x delta mem

theorem never_not_mem (h : Compared written read relations) {w w' u u' : Name → Int}
    (same : read.map (Coord.place w u) = written.map (Coord.place w' u')) : .never ∉ relations := by
  induction h with
  | nil => simp
  | @cons c r rel ws rs rels head tail ih =>
    rw [List.map_cons, List.map_cons, List.cons.injEq] at same
    rw [List.mem_cons, not_or]
    exact ⟨(Coord.place_eq_place head same.1).1.symm, ih same.2⟩

theorem map_pure? (h : Compared written read relations) : written.map Coord.pure? = read.map Coord.pure? := by
  induction h with
  | nil => rfl
  | @cons c r rel ws rs rels head tail ih =>
    rw [List.map_cons, List.map_cons, ih]
    congr 1
    cases c with
    | pure x =>
      cases r with
      | pure y =>
        obtain ⟨rfl, -⟩ := Option.ite_none_right_eq_some.mp head
        rfl
      | _ => cases head
    | _ =>
      cases r with
      | pure y => cases head
      | _ => rfl

theorem mem_reductions (h : Compared written read relations) (x : Name) :
    x ∈ written.filterMap Coord.reduction? ↔ ∃ delta, .shifted x delta ∈ relations := by
  induction h with
  | nil => simp
  | @cons c r rel ws rs rels head tail ih =>
    have own := Coord.reduction?_of_relation? head x
    simp only [List.filterMap_cons]
    cases found : c.reduction? with
    | none =>
      rw [found] at own
      have other : ∀ delta, Relation.shifted x delta ≠ rel := fun delta same => by simpa using own.mpr ⟨delta, same.symm⟩
      simp [ih, other]
    | some y =>
      rw [found, Option.some_inj] at own
      rw [List.mem_cons, ih, eq_comm, own]
      simp only [List.mem_cons, eq_comm (a := rel), exists_or]

theorem self (cs : List Coord) : ∃ relations, Compared cs cs relations ∧ ∀ x d, .shifted x d ∈ relations → d = 0 := by
  induction cs with
  | nil => exact ⟨[], .nil, by simp⟩
  | cons c cs ih =>
    obtain ⟨rels, rest, still⟩ := ih
    rcases c.relation?_self with head | ⟨y, head⟩
    · refine ⟨_, .cons head rest, fun x d mem => ?_⟩
      rcases List.mem_cons.mp mem with same | mem
      · cases same
      · exact still x d mem
    · refine ⟨_, .cons head rest, fun x d mem => ?_⟩
      rcases List.mem_cons.mp mem with same | mem
      · exact (Relation.shifted.inj same).2
      · exact still x d mem

theorem delta_mem {x : Name} (along : ∃ d, .shifted x d ∈ relations) : .shifted x (delta relations x) ∈ relations := by
  obtain ⟨d, mem⟩ := along
  have some : ∃ d, relations.findSome? (·.delta? x) = some d := by
    rw [← Option.isSome_iff_exists, List.findSome?_isSome_iff]
    exact ⟨_, mem, by simp [Relation.delta?]⟩
  obtain ⟨d, found⟩ := some
  obtain ⟨rel, listed, own⟩ := List.exists_of_findSome?_eq_some found
  cases rel with
  | shifted y e =>
    obtain ⟨rfl, made⟩ := Option.ite_none_right_eq_some.mp own
    obtain rfl := Option.some.inj made
    unfold delta
    rw [found]
    simpa using listed
  | _ => cases own

theorem delta_eq_zero {x : Name} (off : ¬∃ d, .shifted x d ∈ relations) : delta relations x = 0 := by
  unfold delta
  rw [List.findSome?_eq_none_iff.mpr]
  · rfl
  intro rel mem
  cases rel with
  | shifted y d =>
    refine if_neg ?_
    rintro rfl
    exact off ⟨d, mem⟩
  | _ => rfl

end Compared

theorem compared_of_mapM {κ : Type} [Extended κ] {written : List Coord} {args : List (Expr κ)} {relations : List Relation}
    (length : args.length = written.length)
    (found : ((written.zip args).mapM fun (w, a) => (Coord.ofExpr? a).bind w.relation?) = some relations) :
    ∃ read, Coord.Listed args read ∧ Compared written read relations := by
  induction written generalizing args relations with
  | nil =>
    obtain rfl := List.length_eq_zero_iff.mp length
    obtain rfl := Option.some.inj found
    exact ⟨[], .nil, .nil⟩
  | cons w ws ih =>
    cases args with
    | nil => cases length
    | cons a args =>
      rw [List.zip_cons_cons, List.mapM_cons] at found
      obtain ⟨rel, first, found⟩ := Option.bind_eq_some_iff.mp found
      obtain ⟨rels, rest, made⟩ := Option.bind_eq_some_iff.mp found
      obtain rfl := Option.some.inj made
      obtain ⟨c, coordinate, related⟩ := Option.bind_eq_some_iff.mp first
      obtain ⟨read, listed, compared⟩ := ih (Nat.succ.inj length) rest
      exact ⟨c :: read, .cons coordinate listed, .cons related compared⟩

/-- The shifted list comes before the other one exactly when its first difference is a step back. -/
theorem lex_iff_find? {xs : List Name} {a b step : Name → Int} (shift : ∀ x ∈ xs, b x = a x + step x) :
    xs.map b < xs.map a ↔ ∃ d, (xs.map step).find? (· ≠ 0) = some d ∧ d < 0 := by
  induction xs with
  | nil => simp
  | cons x xs ih =>
    have head := shift x List.mem_cons_self
    have tail := ih fun y mem => shift y (List.mem_cons_of_mem _ mem)
    rw [List.map_cons, List.map_cons, List.cons_lt_cons_iff, List.map_cons]
    by_cases zero : step x = 0
    · rw [List.find?_cons_of_neg (by simp [zero]), ← tail]
      have still : b x = a x := by omega
      simp [still]
    · rw [List.find?_cons_of_pos (by simp [zero])]
      have moved : b x ≠ a x := by omega
      simp only [moved, false_and, or_false, Option.some.injEq, exists_eq_left']
      omega

/-! ### Positions that are written once -/

/-- The iteration at a point of the pure variables and a point of the reduction domain. -/
def Definition.iteration {α : Type} [Scalar α] [Embed (Exact K) α] (d : Definition (Exact K)) (rdom : ReductionDomain)
    (p r : List Int) : Env α :=
  ⟨coordinates (Exact K) d.pureVars p, coordinates (Exact K) rdom.names r⟩

namespace Definition

variable {α : Type} [Scalar α] [Embed (Exact K) α] {d : Definition (Exact K)} {R : Domain} {rdom : ReductionDomain}

omit [IsStrictOrderedRing K] in
theorem iterations_reduced (length : d.lhs.length = R.dims) (reduced : d.rdom = some rdom) :
    (d.iterations R : List (Env α)) =
      (d.freeDomain R).points.flatMap fun p => rdom.points.map (d.iteration rdom p) := by
  rw [Definition.iterations_eq, freeNames_eq_filterMap length]
  unfold Definition.slice
  rw [reduced]
  rfl

omit [IsStrictOrderedRing K] in
theorem mem_iterations (length : d.lhs.length = R.dims) (reduced : d.rdom = some rdom) {env : Env α} :
    env ∈ (d.iterations R : List (Env α)) ↔
      ∃ p ∈ (d.freeDomain R).points, ∃ r ∈ rdom.points, d.iteration rdom p r = env := by
  rw [iterations_reduced length reduced]
  simp only [List.mem_flatMap, List.mem_map]

omit [Field K] [LinearOrder K] [IsStrictOrderedRing K] [FloorRing K] [Transcendental K] in
theorem length_of_mem_freeDomain (length : d.lhs.length = R.dims) {p : List Int} (mem : p ∈ (d.freeDomain R).points) :
    p.length = d.pureVars.length := by
  have names : d.freeNames R = d.pureVars := freeNames_eq_filterMap length
  rw [Domain.length_of_mem_points mem, ← names]
  unfold Definition.freeDomain Definition.freeNames Domain.dims
  rw [List.length_map, List.length_map]

omit [Scalar α] [IsStrictOrderedRing K] in
theorem bound_of_mem_iterations (length : d.lhs.length = R.dims) {env : Env α}
    (mem : env ∈ (d.iterations R : List (Env α))) : (∀ x ∈ d.pureVars, (env.vars.lookup x).isSome) ∧
      ∀ x ∈ namesOf d.rdom, (env.rvars.lookup x).isSome := by
  rw [Definition.iterations_eq, freeNames_eq_filterMap length] at mem
  obtain ⟨p, memP, mem⟩ := List.mem_flatMap.mp mem
  obtain ⟨r, memR, rfl⟩ := List.mem_map.mp mem
  exact ⟨fun x => isSome_lookup_coordinates (length_of_mem_freeDomain length memP),
    fun x => isSome_lookup_coordinates (length_of_mem_pointsOf memR)⟩

theorem pairwise_position_single (length : d.lhs.length = R.dims) (distinct : d.pureVars.Nodup) (single : d.rdom = none)
    (ρ : Valuation K) :
    (d.iterations R : List (Env K)).Pairwise fun x y => position ρ x d.lhs ≠ position ρ y d.lhs := by
  have picked {p : List Int} (mem : p ∈ (d.freeDomain R).points) :
      pick d.lhs (position ρ ⟨coordinates (Exact K) d.pureVars p, []⟩ d.lhs) = p := by
    rw [pick_position]
    refine Eq.trans ?_ (map_coordinateOf distinct (length_of_mem_freeDomain length mem))
    refine List.map_congr_left fun x _ => ?_
    rw [var_coordinates]
    exact Int.floor_intCast _
  rw [iterations_single length single]
  refine List.pairwise_map.mpr ((Domain.nodup_points _).imp_of_mem ?_)
  intro p q memP memQ other same
  apply other
  rw [← picked memP, same, picked memQ]

omit [IsStrictOrderedRing K] in
/-- The interpreter runs through the reduction domain for one point of the pure variables after the other. -/
theorem pairwise_iterations {S : Env α → Env α → Prop} (length : d.lhs.length = R.dims) (reduced : d.rdom = some rdom)
    (later : ∀ p ∈ (d.freeDomain R).points, ∀ p' ∈ (d.freeDomain R).points, ∀ r ∈ rdom.points, ∀ q ∈ rdom.points,
      (p = p' → r.reverse < q.reverse) → S (d.iteration rdom p r) (d.iteration rdom p' q)) :
    (d.iterations R : List (Env α)).Pairwise S := by
  rw [iterations_reduced length reduced]
  refine List.pairwise_flatMap.mpr ⟨fun p memP => ?_, (Domain.nodup_points _).imp_of_mem ?_⟩
  · refine List.pairwise_map.mpr (rdom.sorted_points.imp_of_mem ?_)
    intro r q memR memQ less
    exact later p memP p memP r memR q memQ fun _ => less
  · intro p p' memP memP' other x memX y memY
    obtain ⟨r, memR, rfl⟩ := List.mem_map.mp memX
    obtain ⟨q, memQ, rfl⟩ := List.mem_map.mp memY
    exact later p memP p' memP' r memR q memQ fun same => absurd same other

end Definition

theorem Coord.listed_of_mapM {κ : Type} [Extended κ] {args : List (Expr κ)} {cs : List Coord}
    (found : args.mapM ofExpr? = some cs) : Listed args cs := by
  induction args generalizing cs with
  | nil =>
    obtain rfl := Option.some.inj found
    exact .nil
  | cons a args ih =>
    rw [List.mapM_cons] at found
    obtain ⟨c, head, found⟩ := Option.bind_eq_some_iff.mp found
    obtain ⟨rest, tail, made⟩ := Option.bind_eq_some_iff.mp found
    obtain rfl := Option.some.inj made
    exact .cons head (ih tail)

omit [IsStrictOrderedRing K] in
theorem Coord.Listed.sublist_pure {args : List (Expr (Exact K))} {cs : List Coord} (listed : Listed args cs) :
    (args.filterMap varName?).Sublist (cs.filterMap Coord.pure?) := by
  induction listed with
  | nil => exact List.Sublist.refl _
  | @cons e c es cs head tail ih =>
    cases name : e.varName? with
    | some x =>
      cases e with
      | var y =>
        obtain rfl := Option.some.inj name
        obtain rfl := Option.some.inj head
        exact ih.cons_cons y
      | _ => cases name
    | none =>
      rw [List.filterMap_cons_none name, List.filterMap_cons]
      cases c.pure? with
      | none => exact ih
      | some x => exact ih.cons x

omit [IsStrictOrderedRing K] in
theorem Coord.Listed.map_pure? {args rnames : List Name} {T : Target → Prop} {lhs : List (Expr (Exact K))}
    {cs : List Coord} (listed : Listed lhs cs) (placed : Placed args rnames T lhs) :
    cs.map Coord.pure? = lhs.map varName? := by
  induction placed generalizing cs with
  | nil =>
    cases listed
    rfl
  | @cons x e args lhs own rest ih =>
    cases listed with
    | @cons _ c _ cs head tail =>
      rw [List.map_cons, List.map_cons, ih tail]
      congr 1
      rcases own with rfl | neat
      · obtain rfl := Option.some.inj head
        rfl
      · rw [neat.varName?_eq_none]
        cases found : c.pure? with
        | none => rfl
        | some y =>
          have spelled := (spelledBy_of_ofSimplified? head).eq_var found
          have closed : e.simplify.varName? = none := neat.simplify.varName?_eq_none
          rw [spelled] at closed
          cases closed

theorem Definition.distinctPositions?_eq_some {κ : Type} [Extended κ] {d : Definition κ} {written : List Coord}
    (found : d.distinctPositions? = some written) : Coord.Listed d.lhs written ∧
      (written.filterMap Coord.pure?).Nodup ∧ ((d.rdom.elim [] (·.dims)).all fun (x, range) =>
        range.size ≤ 1 || x ∈ written.filterMap Coord.reduction?) := by
  obtain ⟨coords, listed, kept⟩ := Option.bind_eq_some_iff.mp found
  obtain ⟨⟨distinct, -, covered⟩, same⟩ := Option.ite_none_right_eq_some.mp kept
  obtain rfl := Option.some.inj same
  exact ⟨Coord.listed_of_mapM listed, distinct, covered⟩

/-- An update over a reduction domain that writes every position once. -/
structure WritesOnce (d : Definition (Exact K)) (rdom : ReductionDomain) (written : List Coord) : Prop where
  reduced : d.rdom = some rdom
  names : rdom.names.Nodup
  found : d.distinctPositions? = some written

namespace WritesOnce

variable {d : Definition (Exact K)} {rdom : ReductionDomain} {written : List Coord} {ρ : Valuation K} {Q : Atom → Prop}
  {args : List (Expr (Exact K))} {read : List Coord} {relations : List Relation} {p p' r q : List Int}

section

omit [IsStrictOrderedRing K]

theorem listed (h : WritesOnce d rdom written) : Coord.Listed d.lhs written :=
  (Definition.distinctPositions?_eq_some h.found).1

theorem size_le_one (h : WritesOnce d rdom written) {x : Name} {i : Interval} (mem : (x, i) ∈ rdom.dims)
    (off : x ∉ written.filterMap Coord.reduction?) : i.size ≤ 1 := by
  obtain ⟨-, -, covered⟩ := Definition.distinctPositions?_eq_some h.found
  rw [h.reduced] at covered
  have own := List.all_eq_true.mp covered _ mem
  simpa [off] using own

theorem nodup_pureVars (h : WritesOnce d rdom written) : d.pureVars.Nodup :=
  h.listed.sublist_pure.nodup (Definition.distinctPositions?_eq_some h.found).2.1

end

theorem position_written (h : WritesOnce d rdom written) (strict : ¬Q .logic)
    (plain : ∀ e ∈ d.lhs, e.Plain ρ (d.iteration rdom p r) Q) : position ρ (d.iteration rdom p r) d.lhs =
      written.map (Coord.place (coordinateOf d.pureVars p) (coordinateOf rdom.names r)) :=
  Coord.position_of_listed h.listed strict plain (var_coordinates _ _ _) (rvar_coordinates _ _ _)

omit [IsStrictOrderedRing K] in
/-- How the iteration that writes a position lies to the one that reads it. -/
theorem steps (h : WritesOnce d rdom written) (compared : Compared written read relations)
    (memR : r ∈ rdom.points) (memQ : q ∈ rdom.points)
    (same : read.map (Coord.place (coordinateOf d.pureVars p) (coordinateOf rdom.names r)) =
      written.map (Coord.place (coordinateOf d.pureVars p') (coordinateOf rdom.names q))) :
    (∀ x ∈ d.pureVars, coordinateOf d.pureVars p x = coordinateOf d.pureVars p' x) ∧
      ∀ x ∈ rdom.names, coordinateOf rdom.names q x = coordinateOf rdom.names r x + delta relations x := by
  obtain ⟨pure, shifts⟩ := compared.place_eq_place same
  refine ⟨fun x mem => pure x (h.listed.sublist_pure.subset mem), fun x mem => ?_⟩
  by_cases along : ∃ d, .shifted x d ∈ relations
  · exact shifts x _ (Compared.delta_mem along)
  · obtain ⟨⟨y, i⟩, listed, rfl⟩ := List.mem_map.mp mem
    have short := h.size_le_one listed (along ∘ (compared.mem_reductions y).mp)
    have boundsR := ReductionDomain.coordinateOf_bounds h.names memR listed
    have boundsQ := ReductionDomain.coordinateOf_bounds h.names memQ listed
    rw [Compared.delta_eq_zero along]
    unfold Interval.size at short
    simp only at boundsR boundsQ ⊢
    omega

omit [IsStrictOrderedRing K] in
theorem place_inj (h : WritesOnce d rdom written) (lengthP : p.length = d.pureVars.length)
    (lengthP' : p'.length = d.pureVars.length) (memR : r ∈ rdom.points) (memQ : q ∈ rdom.points)
    (same : written.map (Coord.place (coordinateOf d.pureVars p) (coordinateOf rdom.names r)) =
      written.map (Coord.place (coordinateOf d.pureVars p') (coordinateOf rdom.names q))) : p = p' ∧ r = q := by
  obtain ⟨relations, compared, still⟩ := Compared.self written
  obtain ⟨pure, shifts⟩ := h.steps compared memR memQ same
  refine ⟨coordinateOf_inj h.nodup_pureVars lengthP lengthP' pure, ?_⟩
  refine coordinateOf_inj h.names (ReductionDomain.length_of_mem_points memR)
    (ReductionDomain.length_of_mem_points memQ) fun x mem => ?_
  have zero : delta relations x = 0 := by
    by_cases along : ∃ d, .shifted x d ∈ relations
    · exact still x _ (Compared.delta_mem along)
    · exact Compared.delta_eq_zero along
  rw [shifts x mem, zero, add_zero]

theorem inj (h : WritesOnce d rdom written) (strict : ¬Q .logic)
    (plain : ∀ e ∈ d.lhs, e.Plain ρ (d.iteration rdom p r) Q) (plain' : ∀ e ∈ d.lhs, e.Plain ρ (d.iteration rdom p' q) Q)
    (lengthP : p.length = d.pureVars.length) (lengthP' : p'.length = d.pureVars.length) (memR : r ∈ rdom.points)
    (memQ : q ∈ rdom.points)
    (same : position ρ (d.iteration rdom p r) d.lhs = position ρ (d.iteration rdom p' q) d.lhs) : p = p' ∧ r = q := by
  rw [h.position_written strict plain, h.position_written strict plain'] at same
  exact h.place_inj lengthP lengthP' memR memQ same

theorem pairwise_position (h : WritesOnce d rdom written) {R : Domain} (length : d.lhs.length = R.dims)
    (strict : ¬Q .logic) (plain : ∀ env ∈ (d.iterations R : List (Env K)), ∀ e ∈ d.lhs, e.Plain ρ env Q) :
    (d.iterations R : List (Env K)).Pairwise fun x y => position ρ x d.lhs ≠ position ρ y d.lhs := by
  have plain_at {p r : List Int} (memP : p ∈ (d.freeDomain R).points) (memR : r ∈ rdom.points) :
      ∀ e ∈ d.lhs, e.Plain ρ (d.iteration rdom p r) Q :=
    plain _ ((Definition.mem_iterations length h.reduced).mpr ⟨p, memP, r, memR, rfl⟩)
  apply Definition.pairwise_iterations length h.reduced
  intro p memP p' memP' r memR q memQ later same
  obtain ⟨pure, equal⟩ := h.inj strict (plain_at memP memR) (plain_at memP' memQ)
    (Definition.length_of_mem_freeDomain length memP) (Definition.length_of_mem_freeDomain length memP') memR memQ same
  have less := later pure
  rw [equal] at less
  exact lt_irrefl _ less

omit [IsStrictOrderedRing K] in
/-- The iteration that writes the coordinates of a read comes before the reading one exactly when the read sees what an
earlier iteration wrote. -/
theorem order (h : WritesOnce d rdom written) (length : args.length = d.lhs.length) {sight : Seen}
    (seen : seen? written rdom args = some sight) : ∃ read, Coord.Listed args read ∧
      ∀ {p p' r q : List Int}, p.length = d.pureVars.length → p'.length = d.pureVars.length → r ∈ rdom.points →
        q ∈ rdom.points → read.map (Coord.place (coordinateOf d.pureVars p) (coordinateOf rdom.names r)) =
          written.map (Coord.place (coordinateOf d.pureVars p') (coordinateOf rdom.names q)) →
        p = p' ∧ (q.reverse < r.reverse ↔ sight = .earlier) := by
  obtain ⟨relations, found, ordered⟩ := Option.bind_eq_some_iff.mp seen
  obtain ⟨read, listed, compared⟩ := compared_of_mapM (length.trans h.listed.length_eq) found
  refine ⟨read, listed, fun {p p' r q} lengthP lengthP' memR memQ same => ?_⟩
  obtain ⟨pure, shifts⟩ := h.steps compared memR memQ same
  refine ⟨coordinateOf_inj h.nodup_pureVars lengthP lengthP' pure, ?_⟩
  have first := lex_iff_find? (fun x mem => shifts x (List.mem_reverse.mp mem))
  rw [List.map_reverse, List.map_reverse, map_coordinateOf h.names (ReductionDomain.length_of_mem_points memR),
    map_coordinateOf h.names (ReductionDomain.length_of_mem_points memQ)] at first
  rw [first]
  rw [if_neg (compared.never_not_mem same)] at ordered
  split at ordered
  · rename_i d decided
    rw [decided]
    split at ordered
    · rename_i back
      obtain rfl := Option.some.inj ordered
      simpa using back
    · rename_i forth
      obtain rfl := Option.some.inj ordered
      simpa using forth
  · rename_i decided
    obtain rfl := Option.some.inj ordered
    rw [decided]
    simp

theorem writer (h : WritesOnce d rdom written) (strict : ¬Q .logic) (length : args.length = d.lhs.length) {sight : Seen}
    (seen : seen? written rdom args = some sight) (plain : ∀ e ∈ args, e.Plain ρ (d.iteration rdom p r) Q)
    (plain' : ∀ e ∈ d.lhs, e.Plain ρ (d.iteration rdom p' q) Q) (lengthP : p.length = d.pureVars.length)
    (lengthP' : p'.length = d.pureVars.length) (memR : r ∈ rdom.points) (memQ : q ∈ rdom.points)
    (same : position ρ (d.iteration rdom p r) args = position ρ (d.iteration rdom p' q) d.lhs) :
    p = p' ∧ (q.reverse < r.reverse ↔ sight = .earlier) := by
  obtain ⟨read, listed, ordered⟩ := h.order length seen
  rw [Coord.position_of_listed listed strict plain (var_coordinates _ _ _) (rvar_coordinates _ _ _),
    h.position_written strict plain'] at same
  exact ordered lengthP lengthP' memR memQ same

section Sights

variable {R : Domain} (h : WritesOnce d rdom written) (length : d.lhs.length = R.dims) (strict : ¬Q .logic)
  (arity : args.length = d.lhs.length)
  (plain : ∀ env ∈ (d.iterations R : List (Env K)), ∀ e ∈ d.lhs ++ args, e.Plain ρ env Q)
include h length strict arity plain

theorem writer_of_mem {sight : Seen} (seen : seen? written rdom args = some sight) {p p' r q : List Int}
    (memP : p ∈ (d.freeDomain R).points) (memP' : p' ∈ (d.freeDomain R).points) (memR : r ∈ rdom.points)
    (memQ : q ∈ rdom.points)
    (same : position ρ (d.iteration rdom p r) args = position ρ (d.iteration rdom p' q) d.lhs) :
    p = p' ∧ (q.reverse < r.reverse ↔ sight = .earlier) := by
  have read := plain _ ((Definition.mem_iterations length h.reduced).mpr ⟨p, memP, r, memR, rfl⟩)
  have written := plain _ ((Definition.mem_iterations length h.reduced).mpr ⟨p', memP', q, memQ, rfl⟩)
  exact h.writer strict arity seen (fun e mem => read e (List.mem_append_right _ mem))
    (fun e mem => written e (List.mem_append_left _ mem)) (Definition.length_of_mem_freeDomain length memP)
    (Definition.length_of_mem_freeDomain length memP') memR memQ same

/-- Where a read sees values from before the update, no iteration reads what an earlier one has written. -/
theorem pairwise_before (seen : seen? written rdom args = some .before) :
    (d.iterations R : List (Env K)).Pairwise fun x y => position ρ y args ≠ position ρ x d.lhs := by
  refine Definition.pairwise_iterations length h.reduced ?_
  intro p memP p' memP' r memR q memQ later same
  obtain ⟨pure, order⟩ := h.writer_of_mem length strict arity plain seen memP' memP memQ memR same
  cases order.mp (later pure.symm)

/-- Where a read sees what an earlier iteration wrote, nobody writes there from the reading iteration on. -/
theorem pairwise_earlier (seen : seen? written rdom args = some .earlier) :
    (d.iterations R : List (Env K)).Pairwise (fun x y => position ρ x args ≠ position ρ y d.lhs) ∧
      ∀ x ∈ (d.iterations R : List (Env K)), position ρ x args ≠ position ρ x d.lhs := by
  constructor
  · refine Definition.pairwise_iterations length h.reduced ?_
    intro p memP p' memP' r memR q memQ later same
    obtain ⟨pure, order⟩ := h.writer_of_mem length strict arity plain seen memP memP' memR memQ same
    exact lt_asymm (later pure) (order.mpr rfl)
  · intro x mem same
    obtain ⟨p, memP, r, memR, rfl⟩ := (Definition.mem_iterations length h.reduced).mp mem
    exact lt_irrefl _ ((h.writer_of_mem length strict arity plain seen memP memP memR memR same).2.mpr rfl)

end Sights

end WritesOnce

/-- In exact arithmetic no two iterations of an update that writes every position once write the same position, whatever
the region, when the operands of logic in the position are truth values. -/
theorem Definition.pairwise_writesOnce {d : Definition (Exact K)} {R : Domain} (length : d.lhs.length = R.dims)
    (names : ∀ rdom, d.rdom = some rdom → rdom.names.Nodup) (once : d.writesOnce = true)
    {reader : Reader (Except EvalError) K} (bound : ∀ x v, reader.unbound x ≠ .ok v) {Q : Atom → Prop}
    (strict : ¬Q .logic)
    (plain : ∀ env ∈ (d.iterations R : List (Env K)), ∀ e ∈ d.lhs, e.Plain reader.valuation env Q) :
    (d.iterations R : List (Env K)).Pairwise fun x y => ∀ i q, evalIndex reader x d.lhs = .ok i →
      evalIndex reader y d.lhs = .ok q → i ≠ q := by
  obtain ⟨written, found⟩ := Option.isSome_iff_exists.mp once
  have apart : (d.iterations R : List (Env K)).Pairwise fun x y =>
      position reader.valuation x d.lhs ≠ position reader.valuation y d.lhs := by
    cases reduced : d.rdom with
    | none =>
      obtain ⟨listed, distinct, -⟩ := distinctPositions?_eq_some found
      exact pairwise_position_single length (listed.sublist_pure.nodup distinct) reduced _
    | some rdom =>
      have writes : WritesOnce d rdom written := ⟨reduced, names rdom reduced, found⟩
      exact writes.pairwise_position length strict plain
  apply apart.imp
  intro x y other i q here there same
  rw [position_of_evalIndex bound (.refl _) here, position_of_evalIndex bound (.refl _) there] at same
  exact other same

/-- The condition on logic is needed: `r and 1` counts as `r`, and is 1 for every `r` but 0. -/
example :
    let d : Definition (Exact ℚ) := ⟨[.and (.rvar "r") .one], .rvar "r", some ⟨[("r", ⟨1, 2⟩)]⟩⟩
    d.writesOnce = true ∧ (d.iterations ⟨[⟨0, 2⟩]⟩ : List (Env ℚ)).map
      (fun env => position ⟨fun _ _ => 0, fun _ _ => 0, fun _ => 0⟩ env d.lhs) = [[1], [1]] := by
  decide +kernel

end ArrayDiff
