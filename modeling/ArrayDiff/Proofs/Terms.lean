import ArrayDiff.Adjoint.Slot
import ArrayDiff.Proofs.Coverage
import ArrayDiff.Proofs.Meaning
import ArrayDiff.Proofs.Simplification

/-!
# What a list of terms adds up to

`Term.run` is the effect of one term on an array without bounds. The func made from the terms of a key runs them in
order, starting from 0, and is 0 outside the region (`Site.value_materialize`).
-/

open ArrayDiff.Expr

namespace ArrayDiff

variable {K : Type} [Field K] [LinearOrder K] [FloorRing K] [Transcendental K]

/-- The variables, targets and logic that an expression may be made of. -/
def Atom.Among (vars rvars : List Name) (T : Target → Prop) (loose : Prop) : Atom → Prop
  | var x => x ∈ vars
  | rvar x => x ∈ rvars
  | target t => T t
  | logic => loose

theorem Atom.Among.mono {vars vars' rvars rvars' : List Name} {T T' : Target → Prop} {loose loose' : Prop}
    (hv : ∀ x ∈ vars, x ∈ vars') (hr : ∀ x ∈ rvars, x ∈ rvars') (ht : ∀ t, T t → T' t) (hl : loose → loose') (a : Atom)
    (h : Among vars rvars T loose a) : Among vars' rvars' T' loose' a := by
  cases a with
  | var x => exact hv x h
  | rvar x => exact hr x h
  | target t => exact ht t h
  | logic => exact hl h

/-- Constants are numbers, and only the given variables and targets occur. -/
def Expr.Neat (vars rvars : List Name) (T : Target → Prop) (e : Expr (Exact K)) : Prop :=
  ∀ (ρ : Valuation K) (env : Env K), e.Plain ρ env (Atom.Among vars rvars T True)

section Neatness

variable {vars vars' rvars rvars' : List Name} {T T' : Target → Prop} {e : Expr (Exact K)} {ρ : Valuation K}
  {env : Env K}

theorem Expr.Plain.neat {loose : Prop} (plain : e.Plain ρ env (Atom.Among vars rvars T loose)) : e.Neat vars rvars T :=
  fun _ _ => plain.loosen trivial
    (Atom.Among.mono (fun _ h => h) (fun _ h => h) (fun _ h => h) fun _ => trivial)

theorem Expr.Neat.mono (neat : e.Neat vars rvars T) (hv : ∀ x ∈ vars, x ∈ vars') (hr : ∀ x ∈ rvars, x ∈ rvars')
    (ht : ∀ t, T t → T' t) : e.Neat vars' rvars' T' :=
  fun ρ env => (neat ρ env).mono (Atom.Among.mono hv hr ht id)

theorem Expr.Neat.represents (neat : e.Neat vars rvars T) (ρ : Valuation K) (env : Env K) :
    e.Represents ρ env (Atom.Among vars rvars T True) (e.value ρ env) := Represents.of_plain (neat ρ env)

theorem Expr.Neat.simplify (neat : e.Neat vars rvars T) : e.simplify.Neat vars rvars T :=
  fun ρ env => plain_simplify (neat ρ env)

theorem Expr.Neat.bind {σ τ : Name → Option (Expr (Exact K))} (neat : e.Neat vars rvars T)
    (hσ : ∀ x ∈ vars, ((σ x).getD (.var x)).Neat vars' rvars' T)
    (hτ : ∀ x ∈ rvars, ((τ x).getD (.rvar x)).Neat vars' rvars' T) : (e.bind σ τ).Neat vars' rvars' T := by
  intro ρ env
  have plain := neat ρ env
  induction e with
  | const c => simpa [Expr.bind] using plain
  | var x => exact hσ x ((plain_var ρ env _ x).mp plain) ρ env
  | rvar x => exact hτ x ((plain_rvar ρ env _ x).mp plain) ρ env
  | param p => simpa [Expr.bind, Atom.Among] using plain
  | call f args ih =>
    simp only [plain_call] at plain
    simp only [Expr.bind, bindList_eq_map, plain_call, List.forall_mem_map]
    refine ⟨plain.1, fun a mem => ih a mem (fun ρ' env' => ?_) (plain.2 a mem)⟩
    exact (plain.2 a mem).loosen trivial fun _ h => h
  | load b args ih =>
    simp only [plain_load] at plain
    simp only [Expr.bind, bindList_eq_map, plain_load, List.forall_mem_map]
    refine ⟨plain.1, fun a mem => ih a mem (fun ρ' env' => ?_) (plain.2 a mem)⟩
    exact (plain.2 a mem).loosen trivial fun _ h => h
  | unary op a ih =>
    simp only [plain_unary] at plain
    simp only [Expr.bind, plain_unary]
    exact ih (fun _ _ => plain.loosen trivial fun _ h => h) plain
  | not a ih =>
    simp only [plain_not] at plain
    simp only [Expr.bind, plain_not]
    exact ih (fun _ _ => plain.loosen trivial fun _ h => h) plain
  | binary op a b iha ihb =>
    simp only [plain_binary] at plain
    simp only [Expr.bind, plain_binary]
    exact ⟨iha (fun _ _ => plain.1.loosen trivial fun _ h => h) plain.1,
      ihb (fun _ _ => plain.2.loosen trivial fun _ h => h) plain.2⟩
  | compare op a b iha ihb =>
    simp only [plain_compare] at plain
    simp only [Expr.bind, plain_compare]
    exact ⟨iha (fun _ _ => plain.1.loosen trivial fun _ h => h) plain.1,
      ihb (fun _ _ => plain.2.loosen trivial fun _ h => h) plain.2⟩
  | and a b iha ihb =>
    simp only [plain_and] at plain
    simp only [Expr.bind, plain_and]
    exact ⟨Or.inl trivial, iha (fun _ _ => plain.2.1.loosen trivial fun _ h => h) plain.2.1,
      ihb (fun _ _ => plain.2.2.loosen trivial fun _ h => h) plain.2.2⟩
  | or a b iha ihb =>
    simp only [plain_or] at plain
    simp only [Expr.bind, plain_or]
    exact ⟨Or.inl trivial, iha (fun _ _ => plain.2.1.loosen trivial fun _ h => h) plain.2.1,
      ihb (fun _ _ => plain.2.2.loosen trivial fun _ h => h) plain.2.2⟩
  | select c t f ihc iht ihf =>
    simp only [plain_select] at plain
    simp only [Expr.bind, plain_select]
    exact ⟨ihc (fun _ _ => plain.1.loosen trivial fun _ h => h) plain.1,
      iht (fun _ _ => plain.2.1.loosen trivial fun _ h => h) plain.2.1,
      ihf (fun _ _ => plain.2.2.loosen trivial fun _ h => h) plain.2.2⟩

end Neatness

theorem isSome_lookup_coordinates {κ α : Type} [Scalar κ] [Embed κ α] {names : List Name} {p : List Int}
    (length : p.length = names.length) {x : Name} (mem : x ∈ names) :
    ((coordinates κ names p : List (Name × α)).lookup x).isSome := by
  induction names generalizing p with
  | nil => cases mem
  | cons y names ih =>
    cases p with
    | nil => cases length
    | cons v p =>
      unfold coordinates
      rw [List.map_cons, List.zip_cons_cons, List.lookup_cons]
      by_cases same : x = y
      · rw [same, beq_self_eq_true]
        rfl
      · rw [beq_false_of_ne same]
        exact ih (Nat.succ.inj length) ((List.mem_cons.mp mem).resolve_left same)

theorem lookup_coordinates_of_not_mem {κ α : Type} [Scalar κ] [Embed κ α] {names : List Name} (p : List Int) {x : Name}
    (other : x ∉ names) : (coordinates κ names p : List (Name × α)).lookup x = none := by
  rw [List.lookup_eq_none_iff]
  rintro ⟨y, v⟩ listed
  exact bne_iff_ne.mpr fun same => other (same ▸ (List.of_mem_zip listed).1)

theorem coordinates_append {κ α : Type} [Scalar κ] [Embed κ α] {names : List Name} {p : List Int}
    (length : p.length = names.length) (names' : List Name) (p' : List Int) :
    (coordinates κ (names ++ names') (p ++ p') : List (Name × α)) =
      coordinates κ names p ++ coordinates κ names' p' := by
  unfold coordinates
  rw [List.map_append, List.zip_append (by rw [List.length_map, length])]

/-! ### Expressions beside a func that is being computed -/

section Aside

variable {vars rvars : List Name} {T : Target → Prop} {ρ : Valuation K} {env : Env K} {acc : FuncId}

theorem Expr.Neat.target_of_read {e : Expr (Exact K)} (neat : e.Neat vars rvars T) {r : Read (Exact K)}
    (mem : r ∈ e.reads) : T r.target := by
  have plain := neat ⟨fun _ _ => 0, fun _ _ => 0, fun _ => 0⟩ ⟨[], []⟩
  obtain ⟨x, node, read⟩ := List.mem_filterMap.mp mem
  have known := plain x node
  cases x with
  | call f as | load b as | param p =>
    cases read
    exact known
  | _ => cases read

theorem Expr.Neat.of_reads {T' : Target → Prop} {e : Expr (Exact K)} (neat : e.Neat vars rvars T)
    (known : ∀ r ∈ e.reads, T' r.target) : e.Neat vars rvars T' := by
  intro ρ env x node
  have plain := neat ρ env x node
  have listed (r : Read (Exact K)) (read : x.read? = some r) : T' r.target :=
    known r (List.mem_filterMap.mpr ⟨x, node, read⟩)
  cases x with
  | param i => exact listed _ rfl
  | call f args => exact listed _ rfl
  | load i args => exact listed _ rfl
  | _ => exact plain

/-- What an expression that does not call `acc` evaluates to does not depend on what `acc` holds. -/
theorem Expr.Neat.value?_aside {e : Expr (Exact K)} (neat : e.Neat vars rvars T) (off : ¬T (.func acc)) {P : Answers K}
    {v : K} (value : e.value? P env = some v) (A : Contents K) : e.value? (P.set acc A) env = some v := by
  refine value?_follow (P.follows_set acc A) ?_ value
  rintro r mem f target rfl
  exact off (target ▸ neat.target_of_read mem)

theorem Expr.Neat.value?_set {e : Expr (Exact K)} (neat : e.Neat vars rvars T) (off : ¬T (.func acc))
    (hv : ∀ x ∈ vars, (env.vars.lookup x).isSome) (hr : ∀ x ∈ rvars, (env.rvars.lookup x).isSome) (A : Contents K) :
    e.value? (ρ.answers.set acc A) env = some (e.value ρ env) := by
  have plain := neat ρ env
  refine neat.value?_aside off (value?_answers (fun x mem => hv x (plain.var_mem mem)) fun x mem => ?_) A
  exact hr x (plain.rvar_mem mem)

theorem Expr.Neat.position?_set {es : List (Expr (Exact K))} (neat : ∀ e ∈ es, e.Neat vars rvars T)
    (off : ¬T (.func acc)) (hv : ∀ x ∈ vars, (env.vars.lookup x).isSome)
    (hr : ∀ x ∈ rvars, (env.rvars.lookup x).isSome) (A : Contents K) :
    position? (ρ.answers.set acc A) env es = some (position ρ env es) := by
  induction es with
  | nil => rfl
  | cons e es ih =>
    have head := (neat e List.mem_cons_self).value?_set (ρ := ρ) off hv hr A
    have tail := ih fun a mem => neat a (List.mem_cons_of_mem _ mem)
    change ((e.value? _ env).bind fun x => (position? _ env es).bind fun rest => some (Scalar.index x :: rest)) = _
    rw [head, tail]
    rfl

theorem value?_add_call {P : Answers K} {lhs : List (Expr (Exact K))} {v : Expr (Exact K)} {p : List Int} {x y : K}
    (at' : position? P env lhs = some p) (old : P.call acc p = some x) (value : v.value? P env = some y) :
    (Smart.add (.call acc lhs) v).value? P env = some (x + y) := by
  have call : (Expr.call acc lhs).value? P env = some x := by
    change (position? P env lhs).bind (P.call acc) = some x
    rw [at']
    exact old
  unfold Smart.add
  simp only [const?]
  rw [if_neg (by simp [isZero])]
  split
  · rename_i zero
    cases v with
    | const c =>
      have found : c = .number 0 := by
        cases c with
        | number z => simpa [isZero] using zero
        | _ => simp [isZero, Scalar.isZero, Scalar.equal, Exact.equal] at zero
      rw [found] at value
      obtain rfl : (0 : K) = y := Option.some.inj value
      rw [call, add_zero]
    | _ => simp [isZero] at zero
  · change (((Expr.call acc lhs).value? P env).bind fun a => (v.value? P env).bind fun b => some (a + b)) = _
    rw [call, value]
    rfl

end Aside

/-! ### Arrays without bounds -/

namespace Contents

/-- The part of an array that lies in a region. -/
def within (R : Domain) (F : List Int → K) : Contents K := fun p => if R.contains p then some (F p) else none

variable {R : Domain} {F G : List Int → K} {p : List Int}

section

omit [Field K] [LinearOrder K] [FloorRing K] [Transcendental K]

theorem within_of_mem (mem : p ∈ R.points) : within R F p = some (F p) :=
  if_pos (Domain.contains_eq_true.mpr mem)

theorem within_of_not_mem (outside : p ∉ R.points) : within R F p = none :=
  if_neg fun inside => outside (Domain.contains_eq_true.mp inside)

theorem within_congr (same : ∀ p ∈ R.points, F p = G p) : within R F = within R G := by
  funext p
  unfold within
  split
  · rename_i inside
    rw [same p (Domain.contains_eq_true.mp inside)]
  · rfl

theorem store?_within (mem : p ∈ R.points) (v : K) :
    (within R F).store? p v = some (within R (Function.update F p v)) := by
  refine store?_eq_some.mpr ⟨by rw [within_of_mem mem]; rfl, ?_⟩
  funext q
  by_cases same : q = p
  · rw [same, Function.update_self, within_of_mem mem, Function.update_self]
  · rw [Function.update_of_ne same]
    unfold within
    rw [Function.update_of_ne same]

theorem foldlM_within {X : Type} {f : Contents K → X → Option (Contents K)}
    {G : (List Int → K) → X → List Int → K} {l : List X}
    (step : ∀ x ∈ l, ∀ F, f (within R F) x = some (within R (G F x))) (F : List Int → K) :
    l.foldlM f (within R F) = some (within R (l.foldl G F)) := by
  induction l generalizing F with
  | nil => rfl
  | cons x l ih =>
    rw [List.foldlM_cons, step x List.mem_cons_self]
    exact ih (fun y mem => step y (List.mem_cons_of_mem _ mem)) _

end

end Contents

omit [Field K] [LinearOrder K] [FloorRing K] [Transcendental K] in
theorem foldl_assign (l : List (List Int)) (w F : List Int → K) (q : List Int) :
    l.foldl (fun F p => Function.update F p (w p)) F q = if q ∈ l then w q else F q := by
  induction l generalizing F with
  | nil => simp
  | cons p l ih =>
    rw [List.foldl_cons, ih]
    by_cases later : q ∈ l
    · simp [later]
    · by_cases same : q = p
      · simp [same]
      · simp [later, same]

omit [LinearOrder K] [FloorRing K] [Transcendental K] in
theorem foldl_add {X : Type} (l : List X) (at' : X → List Int) (w : X → K) (F : List Int → K) (q : List Int) :
    l.foldl (fun F x => Function.update F (at' x) (F (at' x) + w x)) F q =
      F q + (l.map fun x => if at' x = q then w x else 0).sum := by
  induction l generalizing F with
  | nil => simp
  | cons x l ih =>
    rw [List.foldl_cons, ih, List.map_cons, List.sum_cons, ← add_assoc]
    congr 1
    by_cases same : at' x = q
    · rw [if_pos same, ← same, Function.update_self]
    · rw [if_neg same, add_zero, Function.update_of_ne (Ne.symm same)]

omit [LinearOrder K] [FloorRing K] [Transcendental K] in
theorem foldl_clear {X : Type} (l : List X) (at' : X → List Int) (F : List Int → K) (q : List Int) :
    l.foldl (fun F x => Function.update F (at' x) 0) F q = if q ∈ l.map at' then 0 else F q := by
  induction l generalizing F with
  | nil => simp
  | cons x l ih =>
    rw [List.foldl_cons, ih, List.map_cons]
    by_cases later : q ∈ l.map at'
    · rw [if_pos later, if_pos (List.mem_cons_of_mem _ later)]
    · by_cases same : q = at' x
      · rw [if_neg later, same, Function.update_self, if_pos List.mem_cons_self]
      · rw [if_neg later, Function.update_of_ne same, if_neg]
        exact fun mem => (List.mem_cons.mp mem).elim same later

/-! ### One term -/

/-- The points of an optional reduction domain; without one there is a single iteration. -/
def pointsOf (rdom : Option ReductionDomain) : List (List Int) := rdom.elim [[]] ReductionDomain.points

def namesOf (rdom : Option ReductionDomain) : List Name := rdom.elim [] ReductionDomain.names

/-- What one term makes of an array over the arguments `args`. -/
def Term.run (ρ : Valuation K) (args : List Name) (F : List Int → K) (t : Term (Exact K)) (q : List Int) : K :=
  match t with
  | gather v => F q + v.value ρ ⟨coordinates (Exact K) args q, []⟩
  | scatter lhs v rdom => F q + (rdom.points.map fun r =>
      if position ρ ⟨[], coordinates (Exact K) rdom.names r⟩ lhs = q
      then v.value ρ ⟨[], coordinates (Exact K) rdom.names r⟩ else 0).sum
  | mask lhs rdom =>
    if (pointsOf rdom).any fun r =>
      position ρ ⟨coordinates (Exact K) args q, coordinates (Exact K) (namesOf rdom) r⟩ lhs = q then 0 else F q

/-- Pure variables stand alone, each in its own dimension. -/
abbrev Placed (args rnames : List Name) (T : Target → Prop) (lhs : List (Expr (Exact K))) : Prop :=
  List.Forall₂ (fun x e => e = .var x ∨ e.Neat [] rnames T) args lhs

/-- Expressions are neat, positions have the right length, and pure variables in them stand alone. -/
def Term.Neat (args : List Name) (T : Target → Prop) : Term (Exact K) → Prop
  | gather v => v.Neat args [] T
  | scatter lhs v rdom =>
    lhs.length = args.length ∧ (∀ e ∈ lhs, e.Neat [] rdom.names T) ∧ v.Neat [] rdom.names T
  | mask lhs rdom => Placed args (namesOf rdom) T lhs

theorem Term.Neat.mono {args : List Name} {T T' : Target → Prop} {t : Term (Exact K)} (h : t.Neat args T)
    (sub : ∀ u, T u → T' u) : t.Neat args T' := by
  cases t with
  | gather v => exact Expr.Neat.mono h (fun _ mem => mem) (fun _ mem => mem) sub
  | scatter lhs v rdom =>
    obtain ⟨length, position, value⟩ := h
    exact ⟨length, fun e mem => (position e mem).mono (fun _ mem => mem) (fun _ mem => mem) sub,
      value.mono (fun _ mem => mem) (fun _ mem => mem) sub⟩
  | mask lhs rdom =>
    exact List.Forall₂.imp (fun x e own => own.imp_right fun neat =>
      neat.mono (fun _ mem => mem) (fun _ mem => mem) sub) h

/-- Every pure variable of a position stands alone in its own dimension. -/
abbrev Aligned (args : List Name) (lhs : List (Expr (Exact K))) : Prop :=
  List.Forall₂ (fun x e => e = .var x ∨ ∀ y, .var y ∉ e.nodes) args lhs

/-- A scatter runs over its reduction variables only, and pure variables in the position of a mask stand alone. -/
def Term.Stands (args : List Name) : Term (Exact K) → Prop
  | gather _ => True
  | scatter lhs _ _ => ∀ e ∈ lhs, e.varName? = none
  | mask lhs _ => Aligned args lhs

section Steps

variable {args : List Name} {T : Target → Prop} {acc : FuncId} {ρ : Valuation K} {R : Domain}

theorem length_of_mem_pointsOf {rdom : Option ReductionDomain} {r : List Int} (mem : r ∈ pointsOf rdom) :
    r.length = (namesOf rdom).length := by
  cases rdom with
  | none =>
    obtain rfl := List.mem_singleton.mp mem
    rfl
  | some rdom =>
    have within := ReductionDomain.mem_points.mp mem
    unfold namesOf
    change r.length = (rdom.dims.map (·.1)).length
    rw [← within.length_eq, List.length_map, List.length_map]

theorem names_join (rdom : Option ReductionDomain) (own : ReductionDomain) :
    (rdom.elim own (·.join own)).names = namesOf rdom ++ own.names := by
  cases rdom with
  | none => rfl
  | some rdom => exact List.map_append

theorem mem_points_join {rdom : Option ReductionDomain} {own : ReductionDomain} {p : List Int} :
    p ∈ (rdom.elim own (·.join own)).points ↔ ∃ r ∈ pointsOf rdom, ∃ x ∈ own.points, p = r ++ x := by
  unfold pointsOf
  cases rdom with
  | none => simp only [Option.elim_none, List.mem_singleton, exists_eq_left, List.nil_append, exists_eq_right']
  | some rdom =>
    simp only [Option.elim_some, ReductionDomain.mem_points, ReductionDomain.join, List.map_append, within_append]

theorem iterations_args {d : Definition (Exact K)} (lhs : d.lhs = args.map .var) (rdom : d.rdom = none)
    (dims : R.dims = args.length) :
    (d.iterations R : List (Env K)) = R.points.map fun p => ⟨coordinates (Exact K) args p, []⟩ := by
  have free : d.free R = args.zip R.intervals := by
    unfold Definition.free
    rw [lhs, List.zip_map_left, List.filterMap_map]
    exact List.filterMap_some
  have names : d.freeNames R = args := by
    unfold Definition.freeNames
    rw [free]
    exact List.map_fst_zip (le_of_eq dims.symm)
  have domain : d.freeDomain R = R := by
    unfold Definition.freeDomain
    rw [free, show ((args.zip R.intervals).map (·.2)) = R.intervals from List.map_snd_zip (le_of_eq dims)]
  rw [Definition.iterations_eq, names, domain]
  unfold Definition.slice
  rw [rdom]
  exact List.flatMap_pure_eq_map _ _

theorem iterations_closed {d : Definition (Exact K)} (closed : ∀ e ∈ d.lhs, e.varName? = none) :
    (d.iterations R : List (Env K)) =
      (pointsOf d.rdom).map fun r => ⟨[], coordinates (Exact K) (namesOf d.rdom) r⟩ := by
  have free : d.free R = [] := by
    refine List.filterMap_eq_nil_iff.mpr fun entry mem => ?_
    simp only [closed _ (List.of_mem_zip mem).1]
    rfl
  rw [Definition.iterations_eq]
  unfold Definition.freeNames Definition.freeDomain
  rw [free]
  exact List.flatMap_singleton _ _

theorem Expr.Neat.varName?_eq_none {rnames : List Name} {e : Expr (Exact K)} (neat : e.Neat [] rnames T) :
    e.varName? = none := by
  let ρ : Valuation K := ⟨fun _ _ => 0, fun _ _ => 0, fun _ => 0⟩
  cases e with
  | var x => exact absurd ((neat ρ ⟨[], []⟩).var_mem (mem_nodes_self _)) List.not_mem_nil
  | _ => rfl

theorem step?_within {d : Definition (Exact K)} {start : Contents K} {F : List Int → K} {env : Env K} {p : List Int}
    {v : K} (result : d.iterate? (ρ.answers.set acc (if d.rdom.isSome then Contents.within R F else start)) env =
      some (p, v)) (inside : p ∈ R.points) :
    d.step? ρ.answers acc start (Contents.within R F) env = some (Contents.within R (Function.update F p v)) := by
  unfold Definition.step?
  rw [result]
  exact Contents.store?_within inside v

theorem iterate?_eq_some {d : Definition (Exact K)} {P : Answers K} {env : Env K} {p : List Int} {v : K}
    (at' : position? P env d.lhs = some p) (value : d.value.value? P env = some v) :
    d.iterate? P env = some (p, v) := by
  unfold Definition.iterate?
  rw [at', value]
  rfl

theorem position_args [IsStrictOrderedRing K] (distinct : args.Nodup) {p : List Int} (length : p.length = args.length)
    (r : List (Name × K)) : position ρ ⟨coordinates (Exact K) args p, r⟩ (args.map (.var : Name → Expr (Exact K))) = p := by
  refine List.ext_getElem (by simp [position, length]) fun i hi hp => ?_
  have less : i < args.length := length ▸ hp
  have found : (coordinates (Exact K) args p : List (Name × K)).lookup args[i] = some ((p[i] : Int) : K) :=
    lookup_coordinates distinct (List.getElem?_eq_getElem less) (List.getElem?_eq_getElem hp)
  simp only [position, List.getElem_map, value_var, Env.var, found, Option.getD_some]
  exact Int.floor_intCast _

theorem run?_gather [IsStrictOrderedRing K] {v : Expr (Exact K)} (neat : v.Neat args [] T) (distinct : args.Nodup)
    (dims : R.dims = args.length) (off : ¬T (.func acc)) (F : List Int → K) :
    let d := Term.toUpdate acc (args.map .var) (.gather v)
    d.run? ρ.answers acc (d.iterations R) (.within R F) = some (.within R (Term.run ρ args F (.gather v))) := by
  intro d
  rw [show d.iterations R = R.points.map fun p => (⟨coordinates (Exact K) args p, []⟩ : Env K) from
    iterations_args rfl rfl dims]
  unfold Definition.run?
  rw [List.foldlM_map, Contents.foldlM_within (G := fun G p => Function.update G p (Term.run ρ args F (.gather v) p))]
  · refine congrArg some (Contents.within_congr fun p mem => ?_)
    rw [foldl_assign, if_pos mem]
  intro p mem G
  have length : p.length = args.length := (Domain.length_of_mem_points mem).trans dims
  have vars : ∀ x ∈ args, ((coordinates (Exact K) args p : List (Name × K)).lookup x).isSome :=
    fun x mem => isSome_lookup_coordinates length mem
  have neatArgs : ∀ e ∈ args.map (.var : Name → Expr (Exact K)), e.Neat args [] T := by
    intro e mem
    obtain ⟨x, listed, rfl⟩ := List.mem_map.mp mem
    exact fun ρ env => (plain_var ρ env _ x).mpr listed
  have at' : position? (ρ.answers.set acc (Contents.within R F)) ⟨coordinates (Exact K) args p, []⟩
      (args.map (.var : Name → Expr (Exact K))) = some p := by
    rw [Expr.Neat.position?_set neatArgs off vars (fun _ mem => absurd mem List.not_mem_nil), position_args distinct length]
  refine step?_within (iterate?_eq_some at' ?_) mem
  refine value?_add_call at' ?_ (neat.value?_set off vars (fun _ mem => absurd mem List.not_mem_nil) _)
  rw [Answers.set_self]
  exact Contents.within_of_mem mem

theorem run?_scatter {lhs : List (Expr (Exact K))} {v : Expr (Exact K)} {rdom : ReductionDomain}
    (neat : (Term.scatter lhs v rdom).Neat args T) (off : ¬T (.func acc))
    (inside : ∀ r ∈ rdom.points, position ρ ⟨[], coordinates (Exact K) rdom.names r⟩ lhs ∈ R.points)
    (F : List Int → K) :
    let d := Term.toUpdate acc (args.map .var) (.scatter lhs v rdom)
    d.run? ρ.answers acc (d.iterations R) (.within R F) =
      some (.within R (Term.run ρ args F (.scatter lhs v rdom))) := by
  intro d
  obtain ⟨-, neatLhs, neatValue⟩ := neat
  rw [iterations_closed fun e mem => (neatLhs e mem).varName?_eq_none]
  unfold Definition.run?
  let at' (r : List Int) : List Int := position ρ ⟨[], coordinates (Exact K) rdom.names r⟩ lhs
  let added (r : List Int) : K := v.value ρ ⟨[], coordinates (Exact K) rdom.names r⟩
  rw [List.foldlM_map, Contents.foldlM_within (G := fun G r => Function.update G (at' r) (G (at' r) + added r))]
  · refine congrArg some (Contents.within_congr fun p mem => ?_)
    exact foldl_add _ _ _ _ _
  have length (r : List Int) (mem : r ∈ pointsOf (some rdom)) : r.length = (namesOf (some rdom)).length :=
    length_of_mem_pointsOf mem
  intro r mem G
  have rvars : ∀ x ∈ rdom.names, ((coordinates (Exact K) rdom.names r : List (Name × K)).lookup x).isSome :=
    fun x listed => isSome_lookup_coordinates (length r mem) listed
  have found : position? (ρ.answers.set acc (Contents.within R G)) ⟨[], coordinates (Exact K) rdom.names r⟩ lhs =
      some (at' r) := Expr.Neat.position?_set neatLhs off (fun _ mem => absurd mem List.not_mem_nil) rvars _
  refine step?_within (iterate?_eq_some found ?_) (inside r mem)
  refine value?_add_call found ?_ (neatValue.value?_set off (fun _ mem => absurd mem List.not_mem_nil) rvars _)
  rw [Answers.set_self]
  exact Contents.within_of_mem (inside r mem)

/-! ### Masks -/

/-- What belongs to the pure variables of a position, from a list with one entry per dimension. -/
def pick {A : Type} (lhs : List (Expr (Exact K))) (vs : List A) : List A :=
  (lhs.zip vs).filterMap fun (e, v) => e.varName?.map fun _ => v

section Picking

variable {A : Type} {e : Expr (Exact K)} {es lhs : List (Expr (Exact K))}

section

omit [Field K] [LinearOrder K] [FloorRing K] [Transcendental K]

theorem pick_cons_none (name : e.varName? = none) (v : A) (vs : List A) : pick (e :: es) (v :: vs) = pick es vs :=
  List.filterMap_cons_none (by simp only [name]; rfl)

theorem pick_cons_some {y : Name} (name : e.varName? = some y) (v : A) (vs : List A) :
    pick (e :: es) (v :: vs) = v :: pick es vs := List.filterMap_cons_some (by simp only [name]; rfl)

theorem freeDomain_eq (d : Definition (Exact K)) (R : Domain) : d.freeDomain R = ⟨pick d.lhs R.intervals⟩ := by
  unfold Definition.freeDomain Definition.free pick
  rw [List.map_filterMap]
  congr 2
  funext ⟨e, i⟩
  cases name : e.varName? <;> simp [name]

theorem freeNames_eq_filterMap {d : Definition (Exact K)} {R : Domain} (length : d.lhs.length = R.dims) :
    d.freeNames R = d.lhs.filterMap varName? := by
  obtain ⟨is⟩ := R
  unfold Definition.freeNames Definition.free
  change d.lhs.length = is.length at length
  rw [List.map_filterMap]
  have names : (d.lhs.zip is).map Prod.fst = d.lhs := List.map_fst_zip (le_of_eq length)
  conv_rhs => rw [← names, List.filterMap_map]
  congr 1
  funext ⟨e, i⟩
  cases name : e.varName? <;> simp [name]

theorem length_pick {vs : List A} (length : lhs.length = vs.length) :
    (pick lhs vs).length = (lhs.filterMap varName?).length := by
  induction lhs generalizing vs with
  | nil => rfl
  | cons e es ih =>
    cases vs with
    | nil => cases length
    | cons v vs =>
      cases name : e.varName? with
      | none =>
        rw [pick_cons_none name, List.filterMap_cons_none name]
        exact ih (Nat.succ.inj length)
      | some x =>
        rw [pick_cons_some name, List.filterMap_cons_some name]
        exact congrArg Nat.succ (ih (Nat.succ.inj length))

theorem within_pick {is : List Interval} {q : List Int} (inside : Within is q) : Within (pick lhs is) (pick lhs q) := by
  induction inside generalizing lhs with
  | nil => cases lhs <;> exact List.Forall₂.nil
  | @cons i v is q head tail ih =>
    cases lhs with
    | nil => exact List.Forall₂.nil
    | cons e es =>
      cases name : e.varName? with
      | none =>
        rw [pick_cons_none name, pick_cons_none name]
        exact ih
      | some x =>
        rw [pick_cons_some name, pick_cons_some name]
        exact List.Forall₂.cons head ih

/-- Values of the pure variables inside their ranges are picked from a point of the region. -/
theorem exists_pick {is : List Interval} {x q₀ : List Int} (filled : Within is q₀) (inside : Within (pick lhs is) x) :
    ∃ q, Within is q ∧ pick lhs q = x := by
  induction filled generalizing lhs x with
  | nil =>
    unfold pick at inside ⊢
    rw [List.zip_nil_right] at inside
    cases inside
    exact ⟨[], List.Forall₂.nil, by rw [List.zip_nil_right]; rfl⟩
  | @cons i v is q₀ head tail ih =>
    cases lhs with
    | nil =>
      cases inside
      exact ⟨v :: q₀, List.Forall₂.cons head tail, rfl⟩
    | cons e es =>
      cases name : e.varName? with
      | none =>
        rw [pick_cons_none name] at inside
        obtain ⟨q, within, same⟩ := ih inside
        exact ⟨v :: q, List.Forall₂.cons head within, (pick_cons_none name v q).trans same⟩
      | some y =>
        rw [pick_cons_some name] at inside
        cases inside with
        | @cons _ w _ x first rest =>
          obtain ⟨q, within, same⟩ := ih rest
          exact ⟨w :: q, List.Forall₂.cons first within, (pick_cons_some name w q).trans (congrArg (w :: ·) same)⟩

end

theorem lookup_pick {q : List Int} (distinct : (lhs.filterMap varName?).Nodup) {y : Name} {i : Nat} {v : Int}
    (at' : lhs[i]? = some (.var y)) (value : q[i]? = some v) :
    (coordinates (Exact K) (lhs.filterMap varName?) (pick lhs q) : List (Name × K)).lookup y = some (v : K) := by
  induction lhs generalizing q i with
  | nil => simp at at'
  | cons e es ih =>
    cases q with
    | nil => simp at value
    | cons w q =>
      unfold coordinates at ih ⊢
      cases i with
      | zero =>
        obtain rfl : e = .var y := by simpa using at'
        obtain rfl : w = v := by simpa using value
        have name : (Expr.var y : Expr (Exact K)).varName? = some y := rfl
        rw [List.filterMap_cons_some name, pick_cons_some name, List.map_cons, List.zip_cons_cons, List.lookup_cons,
          beq_self_eq_true]
        rfl
      | succ i =>
        rw [List.getElem?_cons_succ] at at' value
        cases name : e.varName? with
        | none =>
          rw [List.filterMap_cons_none name] at distinct ⊢
          rw [pick_cons_none name]
          exact ih distinct at' value
        | some z =>
          rw [List.filterMap_cons_some name] at distinct ⊢
          rw [pick_cons_some name, List.map_cons, List.zip_cons_cons, List.lookup_cons]
          have other : y ≠ z := by
            rintro rfl
            exact (List.nodup_cons.mp distinct).1 (List.mem_filterMap.mpr ⟨.var y, List.mem_of_getElem? at', rfl⟩)
          rw [beq_false_of_ne other]
          exact ih (List.nodup_cons.mp distinct).2 at' value

end Picking

theorem Placed.aligned {rnames : List Name} {lhs : List (Expr (Exact K))} (placed : Placed args rnames T lhs) :
    Aligned args lhs :=
  placed.imp fun _ _ => Or.imp_right fun neat _ mem =>
    List.not_mem_nil ((neat ⟨fun _ _ => 0, fun _ _ => 0, fun _ => 0⟩ ⟨[], []⟩).var_mem mem)

theorem Term.Neat.stands {t : Term (Exact K)} (neat : t.Neat args T) : t.Stands args := by
  cases t with
  | gather v => trivial
  | scatter lhs v rdom => exact fun e mem => (neat.2.1 e mem).varName?_eq_none
  | mask lhs rdom => exact Placed.aligned neat

omit [Field K] [LinearOrder K] [FloorRing K] [Transcendental K] in
theorem sublist_of_aligned {lhs : List (Expr (Exact K))} (aligned : Aligned args lhs) :
    (lhs.filterMap varName?).Sublist args := by
  induction aligned with
  | nil => exact List.Sublist.refl _
  | @cons x e args lhs head tail ih =>
    rcases head with rfl | closed
    · have name : (Expr.var x : Expr (Exact K)).varName? = some x := rfl
      rw [List.filterMap_cons_some name]
      exact ih.cons_cons x
    · have name : e.varName? = none := by
        cases e with
        | var y => exact absurd (mem_nodes_self _) (closed y)
        | _ => rfl
      rw [List.filterMap_cons_none name]
      exact ih.cons x

theorem value_congr_of_neat {rnames : List Name} {e : Expr (Exact K)} (neat : e.Neat [] rnames T)
    {vars vars' r : List (Name × K)} : e.value ρ ⟨vars, r⟩ = e.value ρ ⟨vars', r⟩ :=
  value_env_congr (fun _ mem => absurd ((neat ρ ⟨[], []⟩).var_mem mem) List.not_mem_nil) fun _ _ => rfl

section Aligned

variable [IsStrictOrderedRing K] {lhs : List (Expr (Exact K))} {q : List Int} {r : List (Name × K)}

omit [IsStrictOrderedRing K] in
theorem position_pick (aligned : Aligned args lhs) (distinct : args.Nodup) (length : q.length = args.length) :
    position ρ ⟨coordinates (Exact K) (lhs.filterMap varName?) (pick lhs q), r⟩ lhs =
      position ρ ⟨coordinates (Exact K) args q, r⟩ lhs := by
  have free := (sublist_of_aligned aligned).nodup distinct
  refine List.map_congr_left fun e mem => congrArg Scalar.index ?_
  obtain ⟨i, less, rfl⟩ := List.mem_iff_getElem.mp mem
  have lessArgs : i < args.length := aligned.length_eq ▸ less
  rcases (List.forall₂_iff_get.mp aligned).2 i lessArgs less with same | closed
  · have same : lhs[i] = .var args[i] := same
    have lessPoint : i < q.length := length ▸ lessArgs
    have value : q[i]? = some q[i] := List.getElem?_eq_getElem _
    have left := lookup_pick free ((List.getElem?_eq_getElem less).trans (congrArg some same)) value
    have right : (coordinates (Exact K) args q : List (Name × K)).lookup args[i] = some _ :=
      lookup_coordinates distinct (List.getElem?_eq_getElem lessArgs) value
    rw [same, value_var, value_var, Env.var, Env.var, left, right]
    rfl
  · exact value_env_congr (fun y mem => absurd mem (closed y)) fun _ _ => rfl

theorem position_of_position (aligned : Aligned args lhs) (distinct : args.Nodup) {p : List Int}
    (reached : position ρ ⟨coordinates (Exact K) args q, r⟩ lhs = p) :
    position ρ ⟨coordinates (Exact K) args p, r⟩ lhs = p := by
  have lengths : p.length = lhs.length := by
    rw [← reached]
    exact List.length_map _
  refine List.ext_getElem (by simp [position, lengths]) fun i hi hp => ?_
  have less : i < lhs.length := lengths ▸ hp
  have lessArgs : i < args.length := aligned.length_eq ▸ less
  simp only [position, List.getElem_map]
  rcases (List.forall₂_iff_get.mp aligned).2 i lessArgs less with same | closed
  · have same : lhs[i] = .var args[i] := same
    have found : (coordinates (Exact K) args p : List (Name × K)).lookup args[i] = some ((p[i] : Int) : K) :=
      lookup_coordinates distinct (List.getElem?_eq_getElem lessArgs) (List.getElem?_eq_getElem hp)
    rw [same, value_var, Env.var, found]
    exact Int.floor_intCast _
  · have there : p[i] = Scalar.index (lhs[i].value ρ ⟨coordinates (Exact K) args q, r⟩) := by
      simp only [← reached, position, List.getElem_map]
    rw [there]
    exact congrArg Scalar.index (value_env_congr (fun y mem => absurd mem (closed y)) fun _ _ => rfl)

end Aligned

theorem exists_of_mem_iterations {d : Definition (Exact K)} (length : d.lhs.length = R.dims) {q₀ : List Int}
    (filled : q₀ ∈ R.points) {env : Env K} (mem : env ∈ (d.iterations R : List (Env K))) :
    ∃ q ∈ R.points, ∃ r ∈ pointsOf d.rdom, env =
      ⟨coordinates (Exact K) (d.lhs.filterMap varName?) (pick d.lhs q), coordinates (Exact K) (namesOf d.rdom) r⟩ := by
  rw [Definition.iterations_eq, freeNames_eq_filterMap length, freeDomain_eq] at mem
  obtain ⟨x, inside, mem⟩ := List.mem_flatMap.mp mem
  obtain ⟨r, reduced, rfl⟩ := List.mem_map.mp mem
  obtain ⟨q, within, rfl⟩ := exists_pick (Domain.mem_points.mp filled) (Domain.mem_points.mp inside)
  exact ⟨q, Domain.mem_points.mpr within, r, reduced, rfl⟩

/-- A point of the region is written by some iteration exactly when it is written by one at its own pure variables. -/
theorem mem_written_iff [IsStrictOrderedRing K] {d : Definition (Exact K)} (aligned : Aligned args d.lhs)
    (distinct : args.Nodup) (dims : R.dims = args.length) {p : List Int} (mem : p ∈ R.points) :
    p ∈ (d.iterations R : List (Env K)).map (fun env => position ρ env d.lhs) ↔ ∃ r ∈ pointsOf d.rdom,
      position ρ ⟨coordinates (Exact K) args p, coordinates (Exact K) (namesOf d.rdom) r⟩ d.lhs = p := by
  have length : d.lhs.length = R.dims := aligned.length_eq.symm.trans dims.symm
  constructor
  · intro written
    obtain ⟨env, listed, reached⟩ := List.mem_map.mp written
    obtain ⟨q, inside, r, reduced, rfl⟩ := exists_of_mem_iterations length mem listed
    refine ⟨r, reduced, position_of_position aligned distinct (q := q) ?_⟩
    rw [← position_pick aligned distinct ((Domain.length_of_mem_points inside).trans dims)]
    exact reached
  · rintro ⟨r, reduced, reached⟩
    refine List.mem_map.mpr ⟨⟨coordinates (Exact K) (d.lhs.filterMap varName?) (pick d.lhs p),
      coordinates (Exact K) (namesOf d.rdom) r⟩, ?_, ?_⟩
    · rw [Definition.iterations_eq, freeNames_eq_filterMap length, freeDomain_eq]
      exact List.mem_flatMap.mpr ⟨pick d.lhs p, Domain.mem_points.mpr (within_pick (Domain.mem_points.mp mem)),
        List.mem_map.mpr ⟨r, reduced, rfl⟩⟩
    · exact (position_pick aligned distinct ((Domain.length_of_mem_points mem).trans dims)).trans reached

theorem Term.run_mask [IsStrictOrderedRing K] {d : Definition (Exact K)} (aligned : Aligned args d.lhs)
    (distinct : args.Nodup) (dims : R.dims = args.length) (F : List Int → K) {q : List Int} (mem : q ∈ R.points) :
    Term.run ρ args F (.mask d.lhs d.rdom) q =
      if q ∈ (d.iterations R : List (Env K)).map (fun env => position ρ env d.lhs) then 0 else F q := by
  unfold Term.run
  simp only [List.any_eq_true, decide_eq_true_eq]
  exact if_congr (mem_written_iff aligned distinct dims mem).symm rfl rfl

theorem Term.run_gather_call [IsStrictOrderedRing K] (distinct : args.Nodup) (f : FuncId) (F : List Int → K) {q : List Int}
    (length : q.length = args.length) : Term.run ρ args F (.gather (.call f (args.map .var))) q = F q + ρ.call f q := by
  change F q + (Expr.call f (args.map .var) : Expr (Exact K)).value ρ ⟨coordinates (Exact K) args q, []⟩ = _
  rw [value_call, position_args distinct length []]

theorem Placed.neat {rnames : List Name} {lhs : List (Expr (Exact K))} (placed : Placed args rnames T lhs) :
    ∀ e ∈ lhs, e.Neat (lhs.filterMap varName?) rnames T := by
  intro e mem
  obtain ⟨i, less, rfl⟩ := List.mem_iff_getElem.mp mem
  have lessArgs : i < args.length := placed.length_eq ▸ less
  rcases (List.forall₂_iff_get.mp placed).2 i lessArgs less with same | closed
  · have same : lhs[i] = .var args[i] := same
    have free : args[i] ∈ lhs.filterMap varName? := List.mem_filterMap.mpr ⟨_, mem, by rw [same]; rfl⟩
    rw [same]
    exact fun ρ env => (plain_var ρ env _ _).mpr free
  · exact closed.mono (fun _ mem => absurd mem List.not_mem_nil) (fun _ mem => mem) fun _ mem => mem

theorem run?_mask [IsStrictOrderedRing K] {lhs : List (Expr (Exact K))} {rdom : Option ReductionDomain}
    (neat : (Term.mask lhs rdom).Neat args T) (distinct : args.Nodup) (dims : R.dims = args.length)
    (off : ¬T (.func acc)) {q₀ : List Int} (filled : q₀ ∈ R.points)
    (inside : ∀ q ∈ R.points, ∀ r ∈ pointsOf rdom,
      position ρ ⟨coordinates (Exact K) args q, coordinates (Exact K) (namesOf rdom) r⟩ lhs ∈ R.points)
    (F : List Int → K) :
    let d := Term.toUpdate acc (args.map .var) (.mask lhs rdom)
    d.run? ρ.answers acc (d.iterations R) (.within R F) = some (.within R (Term.run ρ args F (.mask lhs rdom))) := by
  intro d
  have placed : Placed args (namesOf rdom) T lhs := neat
  have length : d.lhs.length = R.dims := placed.length_eq.symm.trans dims.symm
  let at' (env : Env K) : List Int := position ρ env lhs
  unfold Definition.run?
  rw [Contents.foldlM_within (G := fun G env => Function.update G (at' env) 0)]
  · refine congrArg some (Contents.within_congr fun p mem => ?_)
    rw [foldl_clear]
    exact (Term.run_mask (d := d) placed.aligned distinct dims F mem).symm
  intro env mem G
  obtain ⟨q, within, r, reduced, rfl⟩ := exists_of_mem_iterations length filled mem
  have length : q.length = args.length := (Domain.length_of_mem_points within).trans dims
  have rvars : ∀ x ∈ namesOf rdom, ((coordinates (Exact K) (namesOf rdom) r : List (Name × K)).lookup x).isSome :=
    fun x mem => isSome_lookup_coordinates (length_of_mem_pointsOf reduced) mem
  have vars : ∀ x ∈ lhs.filterMap varName?,
      ((coordinates (Exact K) (lhs.filterMap varName?) (pick lhs q) : List (Name × K)).lookup x).isSome :=
    fun x mem => isSome_lookup_coordinates (length_pick (placed.length_eq.symm.trans length.symm)) mem
  let env : Env K :=
    ⟨coordinates (Exact K) (lhs.filterMap varName?) (pick lhs q), coordinates (Exact K) (namesOf rdom) r⟩
  have found (A : Contents K) : position? (ρ.answers.set acc A) env lhs = some (at' env) :=
    Expr.Neat.position?_set placed.neat off vars rvars A
  refine step?_within (iterate?_eq_some (found _) (congrArg some Int.cast_zero)) ?_
  have same : at' env = position ρ ⟨coordinates (Exact K) args q, coordinates (Exact K) (namesOf rdom) r⟩ lhs :=
    position_pick placed.aligned distinct length
  exact same ▸ inside q within r reduced

/-! ### All terms in order -/

/-- The positions that the term writes are in the region. -/
def Term.StaysIn (ρ : Valuation K) (args : List Name) (R : Domain) : Term (Exact K) → Prop
  | gather _ => True
  | scatter lhs _ rdom => ∀ r ∈ rdom.points, position ρ ⟨[], coordinates (Exact K) rdom.names r⟩ lhs ∈ R.points
  | mask lhs rdom => ∀ q ∈ R.points, ∀ r ∈ pointsOf rdom,
    position ρ ⟨coordinates (Exact K) args q, coordinates (Exact K) (namesOf rdom) r⟩ lhs ∈ R.points

theorem run?_term [IsStrictOrderedRing K] {t : Term (Exact K)} (neat : t.Neat args T) (distinct : args.Nodup)
    (dims : R.dims = args.length) (off : ¬T (.func acc)) {q₀ : List Int} (filled : q₀ ∈ R.points)
    (inside : t.StaysIn ρ args R) (F : List Int → K) :
    (t.toUpdate acc (args.map .var)).run? ρ.answers acc ((t.toUpdate acc (args.map .var)).iterations R) (.within R F) =
      some (.within R (t.run ρ args F)) := by
  cases t with
  | gather v => exact run?_gather neat distinct dims off F
  | scatter lhs v rdom => exact run?_scatter neat off inside F
  | mask lhs rdom => exact run?_mask neat distinct dims off filled inside F

end Steps

theorem Domain.exists_box {n : Nat} {ps : List (List Int)} (length : ∀ p ∈ ps, p.length = n) :
    ∃ R : Domain, R.dims = n ∧ ∀ p ∈ ps, p ∈ R.points := by
  induction ps with
  | nil => exact ⟨.empty n, List.length_replicate, fun _ mem => absurd mem List.not_mem_nil⟩
  | cons p ps ih =>
    obtain ⟨R, dims, inside⟩ := ih fun q mem => length q (List.mem_cons_of_mem _ mem)
    have same : R.dims = (Domain.single p).dims := by
      rw [dims, ← length p List.mem_cons_self]
      exact List.length_map _ |>.symm
    refine ⟨R.union (Domain.single p), (Domain.dims_union same).trans dims, fun q mem => Domain.mem_union same ?_⟩
    rcases List.mem_cons.mp mem with rfl | mem
    · exact Or.inr (Domain.mem_single.mpr rfl)
    · exact Or.inl (inside q mem)

section Lists

variable [IsStrictOrderedRing K] {args : List Name} {T : Target → Prop} {acc : FuncId} {ρ : Valuation K}
  {ts : List (Term (Exact K))} {q : List Int}

theorem exists_staysIn (neat : ∀ t ∈ ts, t.Neat args T) (distinct : args.Nodup) (length : q.length = args.length) :
    ∃ R : Domain, R.dims = args.length ∧ q ∈ R.points ∧ ∀ t ∈ ts, t.StaysIn ρ args R := by
  let written (t : Term (Exact K)) : List (List Int) := match t with
    | .gather _ => []
    | .scatter lhs _ rdom => rdom.points.map fun r => position ρ ⟨[], coordinates (Exact K) rdom.names r⟩ lhs
    | .mask lhs rdom => (pointsOf rdom).map fun r =>
      position ρ ⟨coordinates (Exact K) args q, coordinates (Exact K) (namesOf rdom) r⟩ lhs
  have lengths : ∀ p ∈ q :: ts.flatMap written, p.length = args.length := by
    intro p mem
    rcases List.mem_cons.mp mem with rfl | mem
    · exact length
    obtain ⟨t, listed, mem⟩ := List.mem_flatMap.mp mem
    have fits := neat t listed
    cases t with
    | gather v => cases mem
    | scatter lhs v rdom =>
      obtain ⟨r, -, rfl⟩ := List.mem_map.mp mem
      exact (List.length_map _).trans fits.1
    | mask lhs rdom =>
      obtain ⟨r, -, rfl⟩ := List.mem_map.mp mem
      exact (List.length_map _).trans fits.length_eq.symm
  obtain ⟨R, dims, inside⟩ := Domain.exists_box lengths
  refine ⟨R, dims, inside q List.mem_cons_self, fun t listed => ?_⟩
  have all (p : List Int) (mem : p ∈ written t) : p ∈ R.points :=
    inside p (List.mem_cons_of_mem _ (List.mem_flatMap.mpr ⟨t, listed, mem⟩))
  have fits := neat t listed
  cases t with
  | gather v => trivial
  | scatter lhs v rdom => exact fun r mem => all _ (List.mem_map_of_mem mem)
  | mask lhs rdom =>
    intro p mem r reduced
    have own := Domain.mem_points.mp mem
    have other := Domain.mem_points.mp (all _ (List.mem_map_of_mem reduced))
    refine Domain.mem_points.mpr (List.forall₂_iff_get.mpr ⟨?_, fun i hi hp => ?_⟩)
    · exact other.length_eq.trans (by simp [position])
    have less : i < lhs.length := by simpa [position] using hp
    have lessArgs : i < args.length := fits.length_eq ▸ less
    have lessOwn : i < p.length := own.length_eq ▸ hi
    simp only [List.get_eq_getElem, position, List.getElem_map]
    rcases (List.forall₂_iff_get.mp fits).2 i lessArgs less with same | closed
    · have same : lhs[i] = .var args[i] := same
      have found : (coordinates (Exact K) args p : List (Name × K)).lookup args[i] = some ((p[i] : Int) : K) :=
        lookup_coordinates distinct (List.getElem?_eq_getElem lessArgs) (List.getElem?_eq_getElem lessOwn)
      have value : Scalar.index ((p[i] : Int) : K) = p[i] := Int.floor_intCast _
      rw [same, value_var, Env.var, found, Option.getD_some, value]
      exact (List.forall₂_iff_get.mp own).2 i hi lessOwn
    · have lessOther : i < (position ρ
          ⟨coordinates (Exact K) args q, coordinates (Exact K) (namesOf rdom) r⟩ lhs).length := by simpa [position] using less
      have there := (List.forall₂_iff_get.mp other).2 i hi lessOther
      simp only [List.get_eq_getElem, position, List.getElem_map] at there
      have same : lhs[i].value ρ ⟨coordinates (Exact K) args p, coordinates (Exact K) (namesOf rdom) r⟩ =
          lhs[i].value ρ ⟨coordinates (Exact K) args q, coordinates (Exact K) (namesOf rdom) r⟩ :=
        value_congr_of_neat closed
      rw [same]
      exact there

/-- The values of a func that starts from `init` and runs terms as updates. -/
theorem Site.value_accumulator {site : Site} {init : Expr (Exact K)}
    (settles : ρ.Settles acc (site.accumulator acc init ts)) (neatInit : init.Neat site.args [] T)
    (neat : ∀ t ∈ ts, t.Neat site.args T) (distinct : site.args.Nodup) (off : ¬T (.func acc))
    (length : q.length = site.args.length) :
    ρ.call acc q = ts.foldl (Term.run ρ site.args) (fun p => init.value ρ ⟨coordinates (Exact K) site.args p, []⟩) q := by
  obtain ⟨R, dims, filled, inside⟩ := exists_staysIn (ρ := ρ) neat distinct length
  let start (p : List Int) : K := init.value ρ ⟨coordinates (Exact K) site.args p, []⟩
  have begun : (site.accumulator acc init ts).start? ρ.answers R = some (.within R start) := by
    have value : ∀ p ∈ R.points, init.value? ρ.answers ⟨coordinates (Exact K) site.args p, []⟩ = some (start p) := by
      intro p mem
      have plain := neatInit ρ ⟨coordinates (Exact K) site.args p, []⟩
      exact value?_answers (fun x listed => isSome_lookup_coordinates ((Domain.length_of_mem_points mem).trans dims)
        (plain.var_mem listed)) fun x listed => absurd (plain.rvar_mem listed) List.not_mem_nil
    refine Func.start?_eq_some.mpr ⟨_, rfl, fun p mem => ?_, ?_⟩
    · rw [Contents.within_of_mem mem]
      rfl
    · funext p
      by_cases mem : p ∈ R.points
      · rw [Contents.within_of_mem mem, if_pos mem]
        exact (value p mem).symm
      · rw [Contents.within_of_not_mem mem, if_neg mem]
  have run : (site.accumulator acc init ts).contents? ρ.answers acc R =
      some (.within R (ts.foldl (Term.run ρ site.args) start)) := by
    unfold Func.contents?
    rw [begun]
    change (ts.map (Term.toUpdate acc site.argExprs)).foldlM _ _ = _
    rw [List.foldlM_map]
    exact Contents.foldlM_within (fun t mem F => run?_term (neat t mem) distinct dims off filled (inside t mem) F) start
  exact settles q _ ⟨R, _, run, Contents.within_of_mem filled⟩

end Lists

end ArrayDiff
