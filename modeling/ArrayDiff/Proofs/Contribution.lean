import ArrayDiff.Proofs.Inversion

/-!
# What a read contributes

Every iteration of a definition sends a value to the position that it reads. `Definition.spread` adds these values up
for one position of the target, and the term made by `contribution?` adds exactly that, as a pointwise expression and
as an update (`run_contribution`).
-/

open ArrayDiff.Expr

namespace ArrayDiff

variable {K : Type} [Field K] [LinearOrder K] [FloorRing K] [Transcendental K]

/-! ### Multiples of an adjoint -/

/-- Products with a call, as far as they have not been simplified away. -/
inductive Multiple (f : FuncId) (lhs : List (Expr (Exact K))) : Expr (Exact K) → Prop
  | zero : Multiple f lhs .zero
  | self : Multiple f lhs (.call f lhs)
  | neg : Multiple f lhs (.unary .neg (.call f lhs))
  | product (s : Expr (Exact K)) : Multiple f lhs (.binary .mul s (.call f lhs))

namespace Multiple

variable {f : FuncId} {lhs : List (Expr (Exact K))} {e : Expr (Exact K)}

theorem mul (s : Expr (Exact K)) : Multiple f lhs (Smart.mul s (.call f lhs)) := by
  unfold Smart.mul
  simp only [const?]
  split
  · rename_i found
    cases found
  split
  · exact zero
  split
  · exact self
  rw [if_neg (by simp [isOne])]
  split
  · exact neg
  rw [if_neg (by simp [Smart.isMinusOne])]
  exact product s

theorem simplify (h : Multiple f lhs e) : Multiple f (lhs.map Expr.simplify) e.simplify := by
  cases h with
  | zero => exact zero
  | self =>
    simp only [Expr.simplify, simplifyList_eq_map]
    exact self
  | neg =>
    simp only [Expr.simplify, simplifyList_eq_map]
    exact neg
  | product s =>
    simp only [Expr.simplify, simplifyList_eq_map]
    exact mul _

theorem bind (h : Multiple f lhs e) (σ τ : Name → Option (Expr (Exact K))) :
    Multiple f (lhs.map (Expr.bind σ τ)) (e.bind σ τ) := by
  cases h with
  | zero => exact zero
  | self =>
    simp only [Expr.bind, bindList_eq_map]
    exact self
  | neg =>
    simp only [Expr.bind, bindList_eq_map]
    exact neg
  | product s =>
    simp only [Expr.bind, bindList_eq_map]
    exact product _

theorem value_eq_zero (h : Multiple f lhs e) {ρ : Valuation K} {env : Env K}
    (vanishes : (Expr.call f lhs).value ρ env = 0) : e.value ρ env = 0 := by
  cases h with
  | zero => exact (Represents.zero (Q := fun _ => True)).value
  | self => exact vanishes
  | neg =>
    change -(Expr.call f lhs).value ρ env = 0
    rw [vanishes, neg_zero]
  | product s =>
    change s.value ρ env * (Expr.call f lhs).value ρ env = 0
    rw [vanishes, mul_zero]

end Multiple

/-- What becomes of an expression that is simplified, moved to other variables, and simplified again. -/
def Expr.moved (σ τ : Name → Option (Expr (Exact K))) (e : Expr (Exact K)) : Expr (Exact K) :=
  (e.simplify.bind σ τ).simplify

section Moving

variable {ρ : Valuation K} {env env' : Env K} {Q P : Atom → Prop} {σ τ : Name → Option (Expr (Exact K))}

theorem Expr.Represents.moved {e : Expr (Exact K)} {v : K} (h : e.Represents ρ env Q v) (strict : ¬Q .logic)
    (strict' : ¬P .logic) (vars : ∀ x, Q (.var x) → ((σ x).getD (.var x)).Represents ρ env' P (env.var x))
    (rvars : ∀ x, Q (.rvar x) → ((τ x).getD (.rvar x)).Represents ρ env' P (env.rvar x))
    (targets : ∀ t, Q (.target t) → P (.target t)) : (e.moved σ τ).Represents ρ env' P v :=
  ((h.simplify strict).bind vars rvars targets fun logic => absurd logic strict).simplify strict'

/-- A multiple of an adjoint keeps its value: where the adjoint vanishes nothing else matters. -/
theorem Multiple.value_moved {f : FuncId} {lhs : List (Expr (Exact K))} {e : Expr (Exact K)} (h : Multiple f lhs e)
    (strict : ¬Q .logic) (strict' : ¬P .logic)
    (vars : ∀ x, Q (.var x) → ((σ x).getD (.var x)).Represents ρ env' P (env.var x))
    (rvars : ∀ x, Q (.rvar x) → ((τ x).getD (.rvar x)).Represents ρ env' P (env.rvar x))
    (targets : ∀ t, Q (.target t) → P (.target t)) (plain : ∀ a ∈ lhs, a.Plain ρ env Q)
    (alive : (Expr.call f lhs).value ρ env ≠ 0 → e.Plain ρ env Q) :
    (e.moved σ τ).value ρ env' = e.value ρ env := by
  by_cases vanishes : (Expr.call f lhs).value ρ env = 0
  · rw [h.value_eq_zero vanishes]
    refine ((h.simplify.bind σ τ).simplify).value_eq_zero ?_
    rw [← vanishes, value_call, value_call]
    refine congrArg (ρ.call f) ?_
    unfold position
    rw [List.map_map, List.map_map, List.map_map]
    refine List.map_congr_left fun a mem => congrArg Scalar.index ?_
    exact ((Represents.of_plain (plain a mem)).moved strict strict' vars rvars targets).value
  · exact ((Represents.of_plain (alive vanishes)).moved strict strict' vars rvars targets).value

end Moving

/-! ### Variables of the reader -/

section Variables

variable {reader : Func (Exact K)} {R : Domain} {d : Definition (Exact K)} {T : Target → Prop} {rnames : List Name}

/-- The pure variables that a definition writes along. -/
def Definition.pureVars (d : Definition (Exact K)) : List Name := d.lhs.filterMap varName?

theorem liveVars_eq (placed : Placed reader.args rnames T d.lhs) (distinct : reader.args.Nodup) :
    reader.liveVars d = d.pureVars := by
  have written (x : Name) : d.lhs.any (fun e => decide (e.varName? = some x)) = true ↔ x ∈ d.pureVars := by
    unfold Definition.pureVars
    simp only [List.any_eq_true, decide_eq_true_eq, List.mem_filterMap]
  have sublist : d.pureVars.Sublist (reader.liveVars d) := by
    have placedVars : d.pureVars.Sublist reader.args := sublist_of_aligned placed.aligned
    have kept := placedVars.filter fun x => d.lhs.any fun e => decide (e.varName? = some x)
    rwa [List.filter_eq_self.mpr fun x mem => (written x).mpr mem] at kept
  have live : (reader.liveVars d).Nodup := distinct.filter _
  have within : reader.liveVars d ⊆ d.pureVars := fun x mem => (written x).mp (List.mem_filter.mp mem).2
  exact (sublist.eq_of_length_le (List.subperm_of_subset live within).length_le).symm

theorem rangeOf?_of_mem_free (placed : Placed reader.args rnames T d.lhs) (distinct : reader.args.Nodup) {x : Name}
    {i : Interval} (mem : (x, i) ∈ d.free R) : reader.rangeOf? R x = some i := by
  unfold Definition.free at mem
  obtain ⟨⟨e, j⟩, listed, found⟩ := List.mem_filterMap.mp mem
  obtain ⟨y, name, same⟩ := Option.map_eq_some_iff.mp found
  obtain ⟨rfl, rfl⟩ := Prod.mk.inj same
  obtain ⟨k, at'⟩ := List.mem_iff_getElem?.mp listed
  obtain ⟨position, interval⟩ := List.getElem?_zip_eq_some.mp at'
  have less : k < d.lhs.length := (List.getElem?_eq_some_iff.mp position).1
  have lessArgs : k < reader.args.length := placed.length_eq ▸ less
  have entry : d.lhs[k] = e := (List.getElem?_eq_some_iff.mp position).2
  have own : reader.args[k] = y := by
    rcases (List.forall₂_iff_get.mp placed).2 k lessArgs less with same | neat
    · have same : d.lhs[k] = .var reader.args[k] := same
      rw [← entry, same] at name
      exact Option.some.inj name
    · have none : d.lhs[k].varName? = none := neat.varName?_eq_none
      rw [entry, name] at none
      cases none
  have dimension : reader.dimOf? y = some k :=
    Func.dimOf?_eq_some distinct (List.getElem?_eq_some_iff.mpr ⟨lessArgs, own⟩)
  unfold Func.rangeOf?
  rw [dimension]
  exact interval

theorem map_fst_free (placed : Placed reader.args rnames T d.lhs) (dims : R.dims = reader.args.length) :
    (d.free R).map (·.1) = d.pureVars := freeNames_eq_filterMap (placed.length_eq.symm.trans dims.symm)

end Variables

theorem Definition.iterations_single {d : Definition (Exact K)} {R : Domain} (length : d.lhs.length = R.dims)
    (single : d.rdom = none) : (d.iterations R : List (Env K)) =
      (d.freeDomain R).points.map fun p => ⟨coordinates (Exact K) d.pureVars p, []⟩ := by
  have freeNames : d.freeNames R = d.pureVars := freeNames_eq_filterMap length
  rw [Definition.iterations_eq, freeNames]
  unfold Definition.slice
  rw [single]
  exact List.map_eq_flatMap.symm

/-- What the atoms of a definition may be: its own variables, the targets of `T`, and no logic with operands that are
not truth values. -/
abbrev Definition.Bound (d : Definition (Exact K)) (T : Target → Prop) : Atom → Prop :=
  Atom.Among d.pureVars (namesOf d.rdom) T False

/-- What the iterations of a definition over a region add up to at a position, each sent to the position `args`. -/
def Definition.spread (ρ : Valuation K) (d : Definition (Exact K)) (R : Domain) (args : List (Expr (Exact K)))
    (w : Env K → K) (q : List Int) : K :=
  ((d.iterations R).map fun env => if position ρ env args = q then w env else 0).sum

/-- A read at `args` in a definition of `reader`, and the value `v` that it sends to a target over `targetVars`. -/
structure Outlined (reader : Func (Exact K)) (R : Domain) (d : Definition (Exact K)) (T : Target → Prop)
    (targetVars : List Name) (args : List (Expr (Exact K))) (v : Expr (Exact K)) : Prop where
  placed : Placed reader.args (namesOf d.rdom) T d.lhs
  distinct : reader.args.Nodup
  dims : R.dims = reader.args.length
  fresh {x : Name} : x ∈ d.pureVars → scatterVar reader x ∉ namesOf d.rdom
  length : args.length = targetVars.length
  targets : targetVars.Nodup
  neatArgs : ∀ a ∈ args, a.Neat d.pureVars (namesOf d.rdom) T
  neatValue : v.Neat d.pureVars (namesOf d.rdom) T

/-- The value is a multiple of the adjoint at the written position; where that adjoint does not vanish, operands of
logic are truth values. -/
structure Carried (ρ : Valuation K) (R : Domain) (d : Definition (Exact K)) (T : Target → Prop) (adj : FuncId)
    (args : List (Expr (Exact K))) (v : Expr (Exact K)) : Prop where
  multiple : Multiple adj d.lhs v
  plain {env : Env K} : env ∈ d.iterations R → ∀ e ∈ d.lhs, e.Plain ρ env (d.Bound T)
  alive {env : Env K} : env ∈ d.iterations R → (Expr.call adj d.lhs).value ρ env ≠ 0 →
    v.Plain ρ env (d.Bound T) ∧ ∀ a ∈ args, a.Plain ρ env (d.Bound T)

omit [LinearOrder K] [FloorRing K] [Transcendental K] in
theorem sum_map_single {A : Type} [DecidableEq A] {l : List A} (distinct : l.Nodup) {a : A} (mem : a ∈ l) {w : A → K}
    (others : ∀ b, b ≠ a → b ∈ l → w b = 0) : (l.map w).sum = w a := by
  rw [List.sum_map_eq_nsmul_single a w others, List.count_eq_one_of_mem distinct mem, one_nsmul]

section Reading

variable {reader : Func (Exact K)} {R : Domain} {d : Definition (Exact K)} {T : Target → Prop}
  {targetVars : List Name} {args : List (Expr (Exact K))} {v : Expr (Exact K)} {ρ : Valuation K} {adj : FuncId}
  {q : List Int}

theorem Carried.plain_args (h : Carried ρ R d T adj args v) {env : Env K} (mem : env ∈ d.iterations R)
    (nonzero : v.value ρ env ≠ 0) : ∀ a ∈ args, a.Plain ρ env (d.Bound T) :=
  (h.alive mem fun vanishes => nonzero (h.multiple.value_eq_zero vanishes)).2

theorem Outlined.nodup_pureVars (h : Outlined reader R d T targetVars args v) : d.pureVars.Nodup :=
  (sublist_of_aligned h.placed.aligned).nodup h.distinct

theorem Outlined.ranged (h : Outlined reader R d T targetVars args v) {p : List Int}
    (mem : p ∈ (d.freeDomain R).points) (r : List (Name × K)) :
    Inversion.Ranged reader R d.pureVars ⟨coordinates (Exact K) d.pureVars p, r⟩ := by
  intro x live
  have names := map_fst_free h.placed h.dims
  obtain ⟨⟨y, i⟩, listed, rfl⟩ := List.mem_map.mp (names ▸ live)
  have paired : (y, i) ∈ d.pureVars.zip (d.freeDomain R).intervals := by
    unfold Definition.freeDomain
    rw [← names, List.zip_map']
    simpa using listed
  obtain ⟨n, found, bounds⟩ := bound_coordinates (K := K) h.nodup_pureVars (Domain.mem_points.mp mem) paired
  refine ⟨n, ?_, fun range within => ?_⟩
  · unfold Env.var
    rw [found]
    rfl
  · obtain rfl := Option.some.inj (within.symm.trans (rangeOf?_of_mem_free h.placed h.distinct listed))
    exact bounds

theorem eraseDups_of_nodup {l : List Name} (distinct : l.Nodup) : l.eraseDups = l := by
  induction l with
  | nil => rfl
  | cons x l ih =>
    obtain ⟨absent, distinct⟩ := List.nodup_cons.mp distinct
    have kept : (l.filter fun y => !y == x) = l :=
      List.filter_eq_self.mpr fun y mem => by simpa using fun same : y = x => absent (same ▸ mem)
    rw [List.eraseDups_cons, kept, ih distinct]

theorem represents_coordinate (targets : targetVars.Nodup) {P : Atom → Prop} (own : ∀ x ∈ targetVars, P (.var x))
    {i : Nat} {x : Name} {n : Int} (name : targetVars[i]? = some x) (value : q[i]? = some n) :
    (Expr.var x : Expr (Exact K)).Represents ρ ⟨coordinates (Exact K) targetVars q, []⟩ P (n : K) := by
  refine ⟨(plain_var ρ _ P x).mpr (own x (List.mem_of_getElem? name)), ?_⟩
  have found : (coordinates (Exact K) targetVars q : List (Name × K)).lookup x = some _ :=
    lookup_coordinates targets name value
  rw [value_var, Env.var, found]
  exact coordinate_exact n

theorem position_eq_iff (targets : targetVars.Nodup) (arity : args.length = targetVars.length)
    (length : q.length = targetVars.length) {env : Env K} :
    position ρ env args = q ↔
      ∀ pair ∈ targetVars.zip args, Scalar.index (pair.2.value ρ env) = coordinateOf targetVars q pair.1 := by
  constructor
  · rintro rfl ⟨x, a⟩ mem
    obtain ⟨i, at'⟩ := List.mem_iff_getElem?.mp mem
    obtain ⟨name, arg⟩ := List.getElem?_zip_eq_some.mp at'
    refine (coordinateOf_eq targets name ?_).symm
    unfold position
    rw [List.getElem?_map, arg]
    rfl
  · intro same
    refine List.ext_getElem ((List.length_map _).trans (arity.trans length.symm)) fun i hi hq => ?_
    have lessArgs : i < args.length := by simpa [position] using hi
    have lessTargets : i < targetVars.length := arity ▸ lessArgs
    have value := same (targetVars[i], args[i])
      (List.mem_iff_getElem?.mpr ⟨i, List.getElem?_zip_eq_some.mpr
        ⟨List.getElem?_eq_getElem lessTargets, List.getElem?_eq_getElem lessArgs⟩⟩)
    simp only [position, List.getElem_map, value]
    exact coordinateOf_eq targets (List.getElem?_eq_getElem lessTargets) (List.getElem?_eq_getElem hq)

/-! ### Pointwise contributions -/

theorem solved_of_gather? {κ : Type} [Extended κ] {reader : Func κ} {d : Definition κ} {args : List (Expr κ)}
    {e g : Expr κ} (found : gather? reader R d targetVars args e = some g) :
    d.rdom = none ∧ ∃ inv : Inversion κ,
      (targetVars.zip args).foldlM (fun (inv : Inversion κ) (t, arg) =>
        inv.solve? reader R (reader.liveVars d).eraseDups t arg) {} = some inv ∧
      inv.solved.keys.length = (reader.liveVars d).eraseDups.length ∧
      g = Smart.select (Smart.all inv.guards) (e.substitute inv.solved.get?).simplify .zero := by
  unfold gather? at found
  simp only at found
  split at found
  · cases found
  · rename_i single
    obtain ⟨inv, solved, found⟩ := Option.bind_eq_some_iff.mp found
    split at found
    · cases found
    · rename_i all
      have none : d.rdom = none := by simpa using single
      exact ⟨none, inv, solved, not_not.mp all, (Option.some.inj found).symm⟩

variable [IsStrictOrderedRing K] in
theorem Outlined.solves (h : Outlined reader R d T targetVars args v) {inv : Inversion (Exact K)}
    (solved : (targetVars.zip args).foldlM (fun (inv : Inversion (Exact K)) (t, arg) =>
      inv.solve? reader R (reader.liveVars d).eraseDups t arg) {} = some inv)
    (ρ : Valuation K) (length : q.length = targetVars.length) :
    ∃ sol vs, Inversion.Solves reader R d.pureVars ρ ⟨coordinates (Exact K) targetVars q, []⟩
      (coordinateOf targetVars q) (Atom.Among targetVars [] T False) (d.Bound T) (targetVars.zip args) inv sol vs := by
  rw [liveVars_eq h.placed h.distinct, eraseDups_of_nodup h.nodup_pureVars] at solved
  have start : Inversion.Solves reader R d.pureVars ρ ⟨coordinates (Exact K) targetVars q, []⟩
      (coordinateOf targetVars q) (Atom.Among targetVars [] T False) (d.Bound T) [] {} (fun _ => 0) [] :=
    Inversion.Solves.start
  refine Inversion.Solves.run (fun logic => logic) ?_ start solved
  rintro ⟨x, a⟩ mem
  obtain ⟨i, at'⟩ := List.mem_iff_getElem?.mp mem
  obtain ⟨name, -⟩ := List.getElem?_zip_eq_some.mp at'
  have less : i < q.length := length ▸ (List.getElem?_eq_some_iff.mp name).1
  have value : q[i]? = some q[i] := List.getElem?_eq_getElem less
  rw [coordinateOf_eq h.targets name value]
  exact represents_coordinate h.targets (fun x mem => mem) name value

theorem Outlined.solved_all (h : Outlined reader R d T targetVars args v) {inv : Inversion (Exact K)} {target : Env K}
    {w : Name → Int} {P Q : Atom → Prop} {done : List (Name × Expr (Exact K))} {sol : Name → Int} {vs : List K}
    (solves : Inversion.Solves reader R d.pureVars ρ target w P Q done inv sol vs)
    (all : inv.solved.keys.length = (reader.liveVars d).eraseDups.length) {x : Name} (mem : x ∈ d.pureVars) :
    x ∈ inv.solved.keys := by
  rw [liveVars_eq h.placed h.distinct, eraseDups_of_nodup h.nodup_pureVars] at all
  have subperm := List.subperm_of_subset solves.distinct fun _ known => solves.known known
  exact (subperm.perm_of_length_le all.ge).mem_iff.mpr mem

theorem neat_moved (h : Outlined reader R d T targetVars args v) (single : d.rdom = none) {inv : Inversion (Exact K)}
    {target : Env K} {w : Name → Int} {Q : Atom → Prop} {done : List (Name × Expr (Exact K))} {sol : Name → Int}
    {vs : List K} (solves : Inversion.Solves reader R d.pureVars ρ target w (Atom.Among targetVars [] T False) Q done
      inv sol vs) (all : inv.solved.keys.length = (reader.liveVars d).eraseDups.length) :
    (v.simplify.substitute inv.solved.get?).simplify.Neat targetVars [] T := by
  refine (h.neatValue.simplify.bind (fun x mem => ?_) fun x mem => ?_).simplify
  · obtain ⟨e, entry⟩ := Table.mem_keys.mp (h.solved_all solves all mem)
    rw [entry]
    exact (solves.solved entry).plain.neat
  · rw [single] at mem
    cases mem

variable [IsStrictOrderedRing K] in
theorem neat_gather (h : Outlined reader R d T targetVars args v) {g : Expr (Exact K)}
    (found : gather? reader R d targetVars args v.simplify = some g) : g.Neat targetVars [] T := by
  obtain ⟨single, inv, solved, all, rfl⟩ := solved_of_gather? found
  intro ρ env
  obtain ⟨sol, vs, solves⟩ := h.solves solved ρ (q := List.replicate targetVars.length 0) List.length_replicate
  have guards : ∀ e ∈ inv.guards, e.Plain ρ env (Atom.Among targetVars [] T True) := by
    intro e mem
    obtain ⟨i, less, rfl⟩ := List.mem_iff_getElem.mp mem
    obtain ⟨lengths, represents⟩ := List.forall₂_iff_get.mp solves.guards
    exact (represents i less (lengths ▸ less)).1.plain.neat ρ env
  exact (Smart.represents_select (Represents.of_plain (Smart.plain_all trivial guards))
    ((neat_moved h single solves all).represents ρ env) Represents.zero).plain

theorem coordinates_eq_iff {names : List Name} (distinct : names.Nodup) {p : List Int} (length : p.length = names.length)
    {sol : Name → Int} :
    (∀ x ∈ names, (⟨coordinates (Exact K) names p, []⟩ : Env K).var x = (sol x : K)) ↔ p = names.map sol := by
  have var {i : Nat} (less : i < names.length) (lessPoint : i < p.length) :
      (⟨coordinates (Exact K) names p, []⟩ : Env K).var names[i] = (p[i] : K) := by
    have found : (coordinates (Exact K) names p : List (Name × K)).lookup names[i] = some _ :=
      lookup_coordinates distinct (List.getElem?_eq_getElem less) (List.getElem?_eq_getElem lessPoint)
    rw [Env.var, found]
    exact coordinate_exact _
  constructor
  · intro same
    refine List.ext_getElem (by rw [length, List.length_map]) fun i hi hm => ?_
    have less : i < names.length := length ▸ hi
    have value := same names[i] (List.getElem_mem less)
    rw [var less hi, Int.cast_inj] at value
    rw [List.getElem_map, value]
  · rintro same x mem
    obtain ⟨i, less, rfl⟩ := List.mem_iff_getElem.mp mem
    have lessPoint : i < p.length := length ▸ less
    rw [var less lessPoint]
    simp only [same, List.getElem_map]

section Solved

variable {inv : Inversion (Exact K)} {sol : Name → Int} {vs : List K}

theorem Outlined.mem_iterations_single (h : Outlined reader R d T targetVars args v) (single : d.rdom = none)
    {p : List Int} (mem : p ∈ (d.freeDomain R).points) :
    ⟨coordinates (Exact K) d.pureVars p, []⟩ ∈ (d.iterations R : List (Env K)) := by
  rw [Definition.iterations_single (h.placed.length_eq.symm.trans h.dims.symm) single]
  exact List.mem_map_of_mem mem

theorem Outlined.reads_solved (h : Outlined reader R d T targetVars args v) (carried : Carried ρ R d T adj args v)
    (single : d.rdom = none) (length : q.length = targetVars.length)
    (solves : Inversion.Solves reader R d.pureVars ρ ⟨coordinates (Exact K) targetVars q, []⟩ (coordinateOf targetVars q)
      (Atom.Among targetVars [] T False) (d.Bound T) (targetVars.zip args) inv sol vs)
    (all : inv.solved.keys.length = (reader.liveVars d).eraseDups.length) {p : List Int}
    (mem : p ∈ (d.freeDomain R).points) (nonzero : v.value ρ ⟨coordinates (Exact K) d.pureVars p, []⟩ ≠ 0) :
    position ρ ⟨coordinates (Exact K) d.pureVars p, []⟩ args = q ↔ vs.prod = 1 ∧ p = d.pureVars.map sol := by
  have plain := carried.plain_args (h.mem_iterations_single single mem) nonzero
  have lengths : p.length = d.pureVars.length := by
    rw [Domain.length_of_mem_points mem, ← map_fst_free h.placed h.dims]
    unfold Domain.dims Definition.freeDomain
    rw [List.length_map, List.length_map]
  rw [position_eq_iff h.targets h.length length,
    solves.reads (h.ranged mem []) fun pair mem => plain pair.2 (List.of_mem_zip mem).2,
    ← coordinates_eq_iff (K := K) h.nodup_pureVars lengths]
  exact and_congr_right fun _ =>
    ⟨fun same x mem => same x (h.solved_all solves all mem), fun same x mem => same x (solves.known mem)⟩

theorem Outlined.mem_solved (h : Outlined reader R d T targetVars args v) {target : Env K} {w : Name → Int}
    {P Q : Atom → Prop} {done : List (Name × Expr (Exact K))}
    (solves : Inversion.Solves reader R d.pureVars ρ target w P Q done inv sol vs)
    (all : inv.solved.keys.length = (reader.liveVars d).eraseDups.length) (always : vs.prod = 1) :
    d.pureVars.map sol ∈ (d.freeDomain R).points := by
  have names := map_fst_free h.placed h.dims
  have same : d.pureVars.map sol = (d.free R).map fun entry => sol entry.1 := by
    rw [← names, List.map_map]
    rfl
  rw [same]
  refine Domain.mem_points.mpr ?_
  refine List.forall₂_map_left_iff.mpr (List.forall₂_map_right_iff.mpr (List.forall₂_same.mpr ?_))
  rintro ⟨x, i⟩ mem
  have known : x ∈ d.pureVars := names ▸ List.mem_map_of_mem (f := (·.1)) mem
  exact solves.ranges always (h.solved_all solves all known) (rangeOf?_of_mem_free h.placed h.distinct mem)

theorem Outlined.value_solved (h : Outlined reader R d T targetVars args v) (carried : Carried ρ R d T adj args v)
    (single : d.rdom = none) {target : Env K} {w : Name → Int} {done : List (Name × Expr (Exact K))}
    (solves : Inversion.Solves reader R d.pureVars ρ target w (Atom.Among targetVars [] T False) (d.Bound T) done inv sol
      vs) (all : inv.solved.keys.length = (reader.liveVars d).eraseDups.length)
    (inside : d.pureVars.map sol ∈ (d.freeDomain R).points) :
    (v.moved inv.solved.get? fun _ => none).value ρ target =
      v.value ρ ⟨coordinates (Exact K) d.pureVars (d.pureVars.map sol), []⟩ := by
  have listed := h.mem_iterations_single single inside
  refine carried.multiple.value_moved (Q := d.Bound T) (P := Atom.Among targetVars [] T False) (fun logic => logic)
    (fun logic => logic) (fun x mem => ?_) (fun x mem => ?_) (fun t known => known) (carried.plain listed)
    fun nonzero => (carried.alive listed nonzero).1
  · obtain ⟨e, entry⟩ := Table.mem_keys.mp (h.solved_all solves all mem)
    have var : (⟨coordinates (Exact K) d.pureVars (d.pureVars.map sol), []⟩ : Env K).var x = (sol x : K) :=
      (coordinates_eq_iff h.nodup_pureVars (List.length_map _)).mpr rfl x mem
    rw [entry, var]
    exact solves.solved entry
  · have none : x ∈ namesOf d.rdom := mem
    rw [single] at none
    cases none

end Solved

variable [IsStrictOrderedRing K] in
/-- A pointwise contribution is the sum over the only iteration that can read the position. -/
theorem value_gather (h : Outlined reader R d T targetVars args v) (carried : Carried ρ R d T adj args v)
    {g : Expr (Exact K)} (found : gather? reader R d targetVars args v.simplify = some g)
    (length : q.length = targetVars.length) :
    g.value ρ ⟨coordinates (Exact K) targetVars q, []⟩ = d.spread ρ R args (v.value ρ) q := by
  obtain ⟨single, inv, solved, all, rfl⟩ := solved_of_gather? found
  obtain ⟨sol, vs, solves⟩ := h.solves solved ρ length
  let target : Env K := ⟨coordinates (Exact K) targetVars q, []⟩
  let point := d.pureVars.map sol
  let w (p : List Int) : K :=
    if position ρ ⟨coordinates (Exact K) d.pureVars p, []⟩ args = q then v.value ρ ⟨coordinates (Exact K) d.pureVars p, []⟩
    else 0
  have reads {p : List Int} (mem : p ∈ (d.freeDomain R).points)
      (nonzero : v.value ρ ⟨coordinates (Exact K) d.pureVars p, []⟩ ≠ 0) :=
    h.reads_solved carried single length solves all mem nonzero
  have sum : d.spread ρ R args (v.value ρ) q = ((d.freeDomain R).points.map w).sum := by
    unfold Definition.spread
    rw [Definition.iterations_single (h.placed.length_eq.symm.trans h.dims.symm) single, List.map_map]
    rfl
  have loosened : List.Forall₂ (fun e y => e.Represents ρ target (Atom.Among targetVars [] T True) y ∧ IsTruth y)
      inv.guards vs :=
    solves.guards.imp fun e y guard => ⟨⟨guard.1.plain.neat ρ target, guard.1.value⟩, guard.2⟩
  obtain ⟨guards, truth⟩ := Smart.represents_all loosened
  have value := (Smart.represents_select guards ((neat_moved h single solves all).represents ρ target)
    Represents.zero).value
  rw [value, sum]
  -- either the guards hold and the solved point counts, or nothing reads the position
  rcases truth with never | always
  · rw [if_pos never]
    refine (List.sum_eq_zero fun y mem => ?_).symm
    obtain ⟨p, inside, rfl⟩ := List.mem_map.mp mem
    by_cases nonzero : v.value ρ ⟨coordinates (Exact K) d.pureVars p, []⟩ = 0
    · simp [w, nonzero]
    · exact if_neg fun reached => zero_ne_one (never.symm.trans ((reads inside nonzero).mp reached).1)
  · rw [if_neg (by rw [always]; exact one_ne_zero)]
    have inside : point ∈ (d.freeDomain R).points := h.mem_solved solves all always
    have others : ∀ p, p ≠ point → p ∈ (d.freeDomain R).points → w p = 0 := by
      intro p other mem
      by_cases nonzero : v.value ρ ⟨coordinates (Exact K) d.pureVars p, []⟩ = 0
      · simp [w, nonzero]
      · exact if_neg fun reached => other ((reads mem nonzero).mp reached).2
    rw [sum_map_single (Domain.nodup_points _) inside others]
    refine (h.value_solved carried single solves all inside).trans ?_
    by_cases nonzero : v.value ρ ⟨coordinates (Exact K) d.pureVars point, []⟩ = 0
    · simp only [w, nonzero, ite_self]
      exact nonzero
    · exact (if_pos ((reads inside nonzero).mpr ⟨always, rfl⟩)).symm

/-! ### Contributions as updates -/

theorem scatterVar_inj {κ : Type} {reader : Func κ} {x y : Name} (same : scatterVar reader x = scatterVar reader y) :
    x = y := by
  unfold scatterVar at same
  have same : (toString x).toList = (toString y).toList := by simpa [String.ext_iff] using same
  exact String.toList_inj.mp same

theorem lookup_scatterVar {κ A : Type} {reader : Func κ} (names : List Name) (vs : List A) (x : Name) :
    ((names.map (scatterVar reader)).zip vs).lookup (scatterVar reader x) = (names.zip vs).lookup x := by
  induction names generalizing vs with
  | nil => rfl
  | cons y names ih =>
    cases vs with
    | nil => rfl
    | cons v vs =>
      rw [List.map_cons, List.zip_cons_cons, List.zip_cons_cons, List.lookup_cons, List.lookup_cons, ih]
      by_cases same : x = y
      · rw [same, beq_self_eq_true, beq_self_eq_true]
      · rw [beq_false_of_ne same, beq_false_of_ne fun equal => same (scatterVar_inj equal)]

theorem mapM_eq_some_map {A B : Type} {l : List A} {f : A → Option B} {c : A → B} (value : ∀ a ∈ l, f a = some (c a)) :
    l.mapM f = some (l.map c) := by
  induction l with
  | nil => rfl
  | cons a l ih =>
    rw [List.mapM_cons, value a List.mem_cons_self, ih fun b mem => value b (List.mem_cons_of_mem _ mem)]
    rfl

/-- The reduction domain of a scatter: the reduction variables of the definition, then its pure variables. -/
def scatterDomain (reader : Func (Exact K)) (R : Domain) (d : Definition (Exact K)) : ReductionDomain :=
  let own : ReductionDomain := ⟨(d.free R).map fun (x, i) => (scatterVar reader x, i)⟩
  d.rdom.elim own (·.join own)

/-- An expression of the reader over the variables of a scatter. -/
def scattered (reader : Func (Exact K)) (d : Definition (Exact K)) (e : Expr (Exact K)) : Expr (Exact K) :=
  (e.substitute fun x => if x ∈ d.pureVars then some (.rvar (scatterVar reader x)) else none).simplify

theorem scatter?_eq (h : Outlined reader R d T targetVars args v) (e : Expr (Exact K)) :
    scatter? reader R d args e =
      if (d.freeDomain R).isEmpty then none
      else some (.scatter (args.map (scattered reader d)) (scattered reader d e) (scatterDomain reader R d)) := by
  have dims : (reader.liveVars d).mapM (fun x => (reader.rangeOf? R x).map fun range => (scatterVar reader x, range)) =
      some ((d.free R).map fun (x, i) => (scatterVar reader x, i)) := by
    rw [liveVars_eq h.placed h.distinct, ← map_fst_free h.placed h.dims]
    refine List.mapM_map.trans (mapM_eq_some_map fun entry mem => ?_)
    rw [Function.comp_apply, rangeOf?_of_mem_free h.placed h.distinct mem]
    rfl
  unfold scatter?
  simp only [dims, Option.bind_eq_bind, Option.bind_some]
  have empty : ((d.free R).map fun (x, i) => (scatterVar reader x, i)).any (·.2.isEmpty) =
      (d.freeDomain R).isEmpty := by
    unfold Domain.isEmpty Definition.freeDomain
    rw [List.any_map, List.any_map]
    rfl
  rw [empty]
  split
  · rfl
  · unfold scattered scatterDomain
    rw [liveVars_eq h.placed h.distinct]
    rfl

theorem names_scatterDomain (h : Outlined reader R d T targetVars args v) :
    (scatterDomain reader R d).names = namesOf d.rdom ++ d.pureVars.map (scatterVar reader) := by
  refine (names_join _ _).trans (congrArg (namesOf d.rdom ++ ·) ?_)
  rw [← map_fst_free h.placed h.dims, ReductionDomain.names, List.map_map, List.map_map]
  rfl

omit [Field K] [LinearOrder K] [FloorRing K] [Transcendental K] in
theorem mem_points_scatterDomain {p : List Int} : p ∈ (scatterDomain reader R d).points ↔
    ∃ r ∈ pointsOf d.rdom, ∃ x ∈ (d.freeDomain R).points, p = r ++ x := by
  have own : ((d.free R).map fun (x, i) => (scatterVar reader x, i)).map (·.2) = (d.freeDomain R).intervals := by
    unfold Definition.freeDomain
    rw [List.map_map]
    rfl
  refine mem_points_join.trans ?_
  simp only [ReductionDomain.mem_points, own, Domain.mem_points]

omit [Field K] [LinearOrder K] [FloorRing K] [Transcendental K] in
theorem perm_points_scatterDomain : (scatterDomain reader R d).points.Perm
    ((d.freeDomain R).points.flatMap fun x => (pointsOf d.rdom).map (· ++ x)) := by
  have nodup : (pointsOf d.rdom).Nodup := by
    unfold pointsOf
    cases d.rdom with
    | none => exact List.nodup_singleton _
    | some r => exact r.nodup_points
  refine (List.perm_ext_iff_of_nodup (ReductionDomain.nodup_points _) (List.nodup_flatMap.mpr ⟨?_, ?_⟩)).mpr ?_
  · exact fun x _ => nodup.map fun _ _ same => List.append_cancel_right same
  · refine (Domain.nodup_points _).imp fun {x y} other => ?_
    rintro p left right
    obtain ⟨r, outer, rfl⟩ := List.mem_map.mp left
    obtain ⟨s, outer', same⟩ := List.mem_map.mp right
    have lengths : s.length = r.length := (length_of_mem_pointsOf outer').trans (length_of_mem_pointsOf outer).symm
    exact other (List.append_inj_right same lengths).symm
  · intro p
    rw [mem_points_scatterDomain]
    simp only [List.mem_flatMap, List.mem_map]
    constructor
    · rintro ⟨r, outer, x, inner, rfl⟩
      exact ⟨x, inner, r, outer, rfl⟩
    · rintro ⟨x, inner, r, outer, rfl⟩
      exact ⟨r, outer, x, inner, rfl⟩

theorem neat_scattered (h : Outlined reader R d T targetVars args v) {e : Expr (Exact K)}
    (neat : e.Neat d.pureVars (namesOf d.rdom) T) : (scattered reader d e).Neat [] (scatterDomain reader R d).names T := by
  rw [names_scatterDomain h]
  refine (neat.bind (fun x mem => ?_) fun x mem => ?_).simplify
  · rw [if_pos mem]
    exact fun ρ env => (plain_rvar ρ env _ _).mpr (List.mem_append_right _ (List.mem_map_of_mem mem))
  · exact fun ρ env => (plain_rvar ρ env _ _).mpr (List.mem_append_left _ mem)

theorem scattered_vars (h : Outlined reader R d T targetVars args v) {r : List Int} (x : List Int)
    (outer : r ∈ pointsOf d.rdom) :
    let env : Env K := ⟨coordinates (Exact K) d.pureVars x, coordinates (Exact K) (namesOf d.rdom) r⟩
    let env' : Env K := ⟨[], coordinates (Exact K) (scatterDomain reader R d).names (r ++ x)⟩
    (∀ y ∈ d.pureVars, env'.rvar (scatterVar reader y) = env.var y) ∧ ∀ y ∈ namesOf d.rdom, env'.rvar y = env.rvar y := by
  intro env env'
  have rvars : env'.rvars = coordinates (Exact K) (namesOf d.rdom) r ++
      coordinates (Exact K) (d.pureVars.map (scatterVar reader)) x := by
    change coordinates (Exact K) (scatterDomain reader R d).names (r ++ x) = _
    rw [names_scatterDomain h, coordinates_append (length_of_mem_pointsOf outer)]
  constructor
  · intro y mem
    unfold Env.rvar
    rw [rvars, List.lookup_append, lookup_coordinates_of_not_mem r (h.fresh mem), Option.none_or]
    exact congrArg (Option.getD · Scalar.zero) (lookup_scatterVar _ _ y)
  · intro y mem
    obtain ⟨value, found⟩ := Option.isSome_iff_exists.mp
      (isSome_lookup_coordinates (κ := Exact K) (α := K) (length_of_mem_pointsOf outer) mem)
    unfold Env.rvar
    rw [rvars, List.lookup_append, found, Option.some_or]

/-- An update over the variables of the reader adds what the iterations send. -/
theorem run_scatter (h : Outlined reader R d T targetVars args v) (carried : Carried ρ R d T adj args v)
    (F : List Int → K) : Term.run ρ targetVars F (.scatter (args.map (scattered reader d))
      (scattered reader d v.simplify) (scatterDomain reader R d)) q = F q + d.spread ρ R args (v.value ρ) q := by
  let env (x r : List Int) : Env K := ⟨coordinates (Exact K) d.pureVars x, coordinates (Exact K) (namesOf d.rdom) r⟩
  let env' (p : List Int) : Env K := ⟨[], coordinates (Exact K) (scatterDomain reader R d).names p⟩
  have freeNames : d.freeNames R = d.pureVars := map_fst_free h.placed h.dims
  have same : ∀ x ∈ (d.freeDomain R).points, ∀ r ∈ pointsOf d.rdom,
      (if position ρ (env' (r ++ x)) (args.map (scattered reader d)) = q
        then (scattered reader d v.simplify).value ρ (env' (r ++ x)) else 0) =
      if position ρ (env x r) args = q then v.value ρ (env x r) else 0 := by
    intro x inner r outer
    have listed : env x r ∈ (d.iterations R : List (Env K)) := by
      rw [Definition.iterations_eq, freeNames]
      exact List.mem_flatMap.mpr ⟨x, inner, List.mem_map.mpr ⟨r, outer, rfl⟩⟩
    obtain ⟨vars, rvars⟩ := scattered_vars (K := K) h x outer
    let P := Atom.Among [] (scatterDomain reader R d).names T False
    let σ (y : Name) : Option (Expr (Exact K)) :=
      if y ∈ d.pureVars then some (.rvar (scatterVar reader y)) else none
    have images : ∀ y, d.Bound T (.var y) →
        ((σ y).getD (.var y)).Represents ρ (env' (r ++ x)) P ((env x r).var y) := by
      intro y mem
      have image : (σ y).getD (.var y) = .rvar (scatterVar reader y) := by
        have pure : y ∈ d.pureVars := mem
        simp only [σ]
        rw [if_pos pure]
        rfl
      rw [image, ← vars y mem]
      refine ⟨(plain_rvar _ _ _ _).mpr ?_, value_rvar _ _ _⟩
      change scatterVar reader y ∈ (scatterDomain reader R d).names
      rw [names_scatterDomain h]
      exact List.mem_append_right _ (List.mem_map_of_mem mem)
    have rimages : ∀ y, d.Bound T (.rvar y) →
        (Expr.rvar y : Expr (Exact K)).Represents ρ (env' (r ++ x)) P ((env x r).rvar y) := by
      intro y mem
      rw [← rvars y mem]
      refine ⟨(plain_rvar _ _ _ _).mpr ?_, value_rvar _ _ _⟩
      change y ∈ (scatterDomain reader R d).names
      rw [names_scatterDomain h]
      exact List.mem_append_left _ mem
    have value : (scattered reader d v.simplify).value ρ (env' (r ++ x)) = v.value ρ (env x r) :=
      carried.multiple.value_moved (Q := d.Bound T) (P := P) (fun logic => logic) (fun logic => logic) images rimages
        (fun t known => known) (carried.plain listed) fun nonzero => (carried.alive listed nonzero).1
    rw [value]
    by_cases zero : v.value ρ (env x r) = 0
    · rw [zero, ite_self, ite_self]
    have at' : position ρ (env' (r ++ x)) (args.map (scattered reader d)) = position ρ (env x r) args := by
      unfold position
      rw [List.map_map]
      refine List.map_congr_left fun a mem => congrArg Scalar.index ?_
      have plain := Represents.of_plain (carried.plain_args listed zero a mem)
      have moved : (a.substitute σ).Represents ρ (env' (r ++ x)) P (a.value ρ (env x r)) :=
        plain.bind images rimages (fun t known => known) fun logic => logic
      exact (moved.simplify fun logic => logic).value
    rw [at']
  change F q + _ = _
  congr 1
  rw [(perm_points_scatterDomain.map _).sum_eq]
  unfold Definition.spread
  rw [Definition.iterations_eq, freeNames, List.map_flatMap, List.map_flatMap]
  refine congrArg List.sum (List.flatMap_congr fun x inner => ?_)
  unfold Definition.slice
  rw [List.map_map, List.map_map]
  exact List.map_congr_left fun r outer => same x inner r outer

/-! ### Either kind of contribution -/

variable [IsStrictOrderedRing K] in
theorem neat_contribution (h : Outlined reader R d T targetVars args v) {t : Term (Exact K)}
    (found : contribution? reader R d targetVars args v = some t) : t.Neat targetVars T := by
  unfold contribution? at found
  simp only at found
  split at found
  · cases found
  split at found
  · rename_i g pointwise
    obtain rfl := Option.some.inj found
    exact neat_gather h pointwise
  · rw [scatter?_eq h] at found
    split at found
    · cases found
    obtain rfl := Option.some.inj found
    refine ⟨(List.length_map _).trans h.length, fun e mem => ?_, neat_scattered h h.neatValue.simplify⟩
    obtain ⟨a, listed, rfl⟩ := List.mem_map.mp mem
    exact neat_scattered h (h.neatArgs a listed)

theorem spread_eq_zero {w : Env K → K} (zero : ∀ env ∈ (d.iterations R : List (Env K)), w env = 0) :
    d.spread ρ R args w q = 0 := by
  refine List.sum_eq_zero fun y mem => ?_
  obtain ⟨env, listed, rfl⟩ := List.mem_map.mp mem
  rw [zero env listed, ite_self]

variable [IsStrictOrderedRing K] in
/-- A contribution adds exactly what the iterations of the reader send to each position. -/
theorem run_contribution (h : Outlined reader R d T targetVars args v) (carried : Carried ρ R d T adj args v)
    (length : q.length = targetVars.length) (F : List Int → K) :
    (contribution? reader R d targetVars args v).toList.foldl (Term.run ρ targetVars) F q =
      F q + d.spread ρ R args (v.value ρ) q := by
  unfold contribution?
  simp only
  split
  · rename_i zero
    rw [spread_eq_zero fun env mem => ?_, add_zero]
    · rfl
    by_cases vanishes : (Expr.call adj d.lhs).value ρ env = 0
    · exact carried.multiple.value_eq_zero vanishes
    · have simplified := represents_simplify (Q := d.Bound T) (fun logic => logic) (carried.alive mem vanishes).1
      exact simplified.of_isZero zero
  split
  · rename_i g pointwise
    change F q + g.value ρ ⟨coordinates (Exact K) targetVars q, []⟩ = _
    rw [value_gather h carried pointwise length]
  · rw [scatter?_eq h]
    split
    · rename_i empty
      rw [spread_eq_zero fun env mem => ?_, add_zero]
      · rfl
      rw [Definition.iterations_eq] at mem
      obtain ⟨x, inside, -⟩ := List.mem_flatMap.mp mem
      rw [Domain.not_isEmpty_of_mem inside] at empty
      cases empty
    · exact run_scatter h carried F

end Reading

end ArrayDiff
