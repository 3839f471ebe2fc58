import ArrayDiff.Proofs.Contents
import ArrayDiff.Proofs.DualNumber

/-!
# Dual numbers as values

A pipeline can be evaluated over dual numbers. Operators act on the part without `ε` as they do on numbers, and on the
coefficient of `ε` by their derivatives; positions, comparisons and conditions go by the part without `ε`. So a func that
holds dual numbers holds their parts without `ε` over numbers (`Func.contents?_primal`).
-/

namespace ArrayDiff

open TrivSqZeroExt (inl inr)

variable {K : Type} [Field K] [LinearOrder K] [FloorRing K] [Transcendental K]

/-! ### Operators -/

namespace UnaryOp

/-- The operator on dual numbers. -/
def lift (op : UnaryOp) (x : DualNumber K) : DualNumber K := inl (op.apply x.fst) + inr (op.rate x.fst * x.snd)

@[simp] theorem fst_lift (op : UnaryOp) (x : DualNumber K) : (op.lift x).fst = op.apply x.fst := by simp [lift]

@[simp] theorem snd_lift (op : UnaryOp) (x : DualNumber K) : (op.lift x).snd = op.rate x.fst * x.snd := by simp [lift]

/-- For rational arithmetic this is the arithmetic of dual numbers. -/
theorem lift_eq_of_dual? {op : UnaryOp} {x w : DualNumber K} (found : op.dual? x = some w) : op.lift x = w := by
  have rational : op.isRational := by cases op <;> first | rfl | cases found
  obtain ⟨w', found', fst, snd⟩ := dual?_rate rational x
  obtain rfl := Option.some.inj (found.symm.trans found')
  exact TrivSqZeroExt.ext ((fst_lift op x).trans fst.symm) ((snd_lift op x).trans snd.symm)

end UnaryOp

namespace BinaryOp

/-- The operator on dual numbers. -/
def lift (op : BinaryOp) (x y : DualNumber K) : DualNumber K :=
  inl (op.apply x.fst y.fst) + inr ((op.rates x.fst y.fst).1 * x.snd + (op.rates x.fst y.fst).2 * y.snd)

@[simp] theorem fst_lift (op : BinaryOp) (x y : DualNumber K) : (op.lift x y).fst = op.apply x.fst y.fst := by
  simp [lift]

@[simp] theorem snd_lift (op : BinaryOp) (x y : DualNumber K) :
    (op.lift x y).snd = (op.rates x.fst y.fst).1 * x.snd + (op.rates x.fst y.fst).2 * y.snd := by simp [lift]

theorem lift_eq_of_dual? {op : BinaryOp} {x y w : DualNumber K} (found : op.dual? x y = some w) : op.lift x y = w := by
  have rational : op.isRational := by cases op <;> first | rfl | cases found
  have nonzero : op = .div → y.fst ≠ 0 := by
    rintro rfl zero
    rw [dual?, if_pos zero] at found
    cases found
  obtain ⟨w', found', fst, snd⟩ := dual?_rates rational x y nonzero
  obtain rfl := Option.some.inj (found.symm.trans found')
  exact TrivSqZeroExt.ext ((fst_lift op x y).trans fst.symm) ((snd_lift op x y).trans snd.symm)

end BinaryOp

instance dualScalar : Scalar (DualNumber K) where
  ofInt i := inl (Scalar.ofInt i)
  neg := UnaryOp.neg.lift
  abs := UnaryOp.abs.lift
  floor := UnaryOp.floor.lift
  sqrt := UnaryOp.sqrt.lift
  exp := UnaryOp.exp.lift
  log := UnaryOp.log.lift
  sin := UnaryOp.sin.lift
  cos := UnaryOp.cos.lift
  tanh := UnaryOp.tanh.lift
  add := BinaryOp.add.lift
  sub := BinaryOp.sub.lift
  mul := BinaryOp.mul.lift
  div := BinaryOp.div.lift
  min := BinaryOp.min.lift
  max := BinaryOp.max.lift
  pow := BinaryOp.pow.lift
  equal x y := Scalar.equal x.fst y.fst
  less x y := Scalar.less x.fst y.fst
  lessEq x y := Scalar.lessEq x.fst y.fst
  index x := Scalar.index x.fst

instance dualDecidableEq : DecidableEq (DualNumber K) := inferInstanceAs (DecidableEq (K × K))

instance : Embed (Exact K) (DualNumber K) := ⟨fun c => inl (Embed.embed c)⟩

theorem UnaryOp.apply_dual (op : UnaryOp) (x : DualNumber K) : op.apply x = op.lift x := by
  cases op <;> rfl

theorem BinaryOp.apply_dual (op : BinaryOp) (x y : DualNumber K) : op.apply x y = op.lift x y := by
  cases op <;> rfl

theorem Comparison.holds_dual (op : Comparison) (x y : DualNumber K) : op.holds x y = op.holds x.fst y.fst := by
  cases op <;> rfl

@[simp] theorem dual_isZero (x : DualNumber K) : Scalar.isZero x = Scalar.isZero x.fst := rfl

@[simp] theorem dual_ofBool (b : Bool) : (Scalar.ofBool b : DualNumber K) = inl (Scalar.ofBool b) := by
  cases b <;> rfl

theorem respected_fst : Respected fun (x : DualNumber K) (y : K) => x.fst = y where
  ofBool b := by simp
  isZero := by
    rintro x _ rfl
    rfl
  index := by
    rintro x _ rfl
    rfl
  unary := by
    rintro op x _ rfl
    rw [UnaryOp.apply_dual, UnaryOp.fst_lift]
  binary := by
    rintro op x x' _ _ rfl rfl
    rw [BinaryOp.apply_dual, BinaryOp.fst_lift]
  holds := by
    rintro op x x' _ _ rfl rfl
    exact op.holds_dual x x'

/-! ### Parts -/

/-- The values without their changes. -/
def Contents.primal (A : Contents (DualNumber K)) : Contents K := fun p => (A p).map TrivSqZeroExt.fst

/-- The changes of the values. -/
def Contents.change (A : Contents (DualNumber K)) : Contents K := fun p => (A p).map TrivSqZeroExt.snd

namespace Answers

/-- The answers without their changes. -/
def primal (P : Answers (DualNumber K)) : Answers K where
  call f := Contents.primal (P.call f)
  load b := Contents.primal (P.load b)
  param i := (P.param i).map TrivSqZeroExt.fst

/-- The changes of the answers. -/
def change (P : Answers (DualNumber K)) : Target → Contents K
  | .func f => Contents.change (P.call f)
  | .buffer b => Contents.change (P.load b)
  | .param i => fun p => if p = [] then (P.param i).map TrivSqZeroExt.snd else none

omit [Field K] [LinearOrder K] [FloorRing K] [Transcendental K] in
theorem primal_set (P : Answers (DualNumber K)) (f : FuncId) (A : Contents (DualNumber K)) :
    (P.set f A).primal = P.primal.set f A.primal := by
  unfold set primal
  congr 1
  funext g
  dsimp only
  split <;> rfl

end Answers

/-- Variables do not change. -/
def Env.lift (env : Env K) : Env (DualNumber K) := ⟨env.vars.map (Prod.map id inl), env.rvars.map (Prod.map id inl)⟩

omit [LinearOrder K] [FloorRing K] [Transcendental K] in
theorem lookup_map_inl (l : List (Name × K)) (x : Name) :
    (l.map (Prod.map id inl)).lookup x = (l.lookup x).map (inl : K → DualNumber K) := by
  induction l with
  | nil => rfl
  | cons e l ih =>
    obtain ⟨y, v⟩ := e
    change List.lookup x ((y, inl v) :: l.map (Prod.map id inl)) = _
    rw [List.lookup_cons, List.lookup_cons]
    cases x == y with
    | true => rfl
    | false => exact ih

theorem coordinates_dual (names : List Name) (p : List Int) :
    coordinates (Exact K) names p = (coordinates (Exact K) names p).map (Prod.map id (inl : K → DualNumber K)) := by
  unfold coordinates
  rw [← List.zip_map_right, List.map_map]
  rfl

theorem Definition.iterations_dual (d : Definition (Exact K)) (R : Domain) :
    (d.iterations R : List (Env (DualNumber K))) = (d.iterations R).map Env.lift := by
  unfold iterations
  dsimp only
  rw [List.map_flatMap]
  refine congrArg (List.flatMap · _) (funext fun p => ?_)
  rw [List.map_map]
  refine List.map_congr_left fun r _ => ?_
  rw [coordinates_dual, coordinates_dual]
  rfl

/-! ### Runs -/

section Runs

variable {P : Answers (DualNumber K)} {env : Env K}

namespace Expr

variable {e : Expr (Exact K)} {es : List (Expr (Exact K))}

omit [LinearOrder K] [FloorRing K] [Transcendental K] in
theorem related_primal (P : Answers (DualNumber K)) (env : Env K) (e : Expr (Exact K)) :
    Related Lifting.follow (fun x y => x.fst = y) P.reader P.primal.reader env.lift env e := by
  have bound (l : List (Name × K)) (x : Name) : Lifting.follow.rel (fun (v : DualNumber K) w => v.fst = w)
      (((l.map (Prod.map id inl)).lookup x).elim none some) ((l.lookup x).elim none some) := by
    rw [lookup_map_inl]
    intro v found
    cases own : l.lookup x with
    | none =>
      rw [own] at found
      cases found
    | some y =>
      rw [own] at found
      obtain rfl := Option.some.inj found
      exact ⟨y, rfl, rfl⟩
  have answered {a : Option (DualNumber K)} : Lifting.follow.rel (fun (v : DualNumber K) w => v.fst = w) a
      (a.map TrivSqZeroExt.fst) := by
    rintro v rfl
    exact ⟨v.fst, rfl, rfl⟩
  exact ⟨fun _ => rfl, fun x _ => bound env.vars x, fun x _ => bound env.rvars x, fun _ _ _ _ => answered,
    fun _ _ => answered, fun _ => answered⟩

theorem value?_primal {w : DualNumber K} (value : e.value? P env.lift = some w) :
    e.value? P.primal env = some w.fst := by
  obtain ⟨v, found, rfl⟩ := eval_rel respected_fst (related_primal P env e) w value
  exact found

theorem position?_primal {p : List Int} (found : position? P env.lift es = some p) :
    position? P.primal env es = some p := by
  obtain ⟨q, found, rfl⟩ := evalIndex_related respected_fst (fun a _ => related_primal P env a) p found
  exact found

end Expr

omit [Field K] [LinearOrder K] [FloorRing K] [Transcendental K] in
theorem Contents.primal_store? {A B : Contents (DualNumber K)} {p : List Int} {v : DualNumber K}
    (stored : A.store? p v = some B) : A.primal.store? p v.fst = some B.primal ∧ A.change.store? p v.snd = some B.change := by
  obtain ⟨held, rfl⟩ := store?_eq_some.mp stored
  constructor
  · refine store?_eq_some.mpr ⟨by simpa [primal] using held, ?_⟩
    funext q
    by_cases same : q = p
    · simp [primal, same]
    · simp [primal, Function.update_of_ne same]
  · refine store?_eq_some.mpr ⟨by simpa [change] using held, ?_⟩
    funext q
    by_cases same : q = p
    · simp [change, same]
    · simp [change, Function.update_of_ne same]

/-- A loop whose steps are steps of another one on images of its states. What runs before and after a step may be used. -/
theorem foldlM_project {S T X : Type} {f : S → X → Option S} {g : T → X → Option T} (π : S → T) {l : List X} {s t : S}
    (step : ∀ done x rest u v, l = done ++ x :: rest → done.foldlM f s = some u → f u x = some v →
      rest.foldlM f v = some t → g (π u) x = some (π v)) (run : l.foldlM f s = some t) :
    l.foldlM g (π s) = some (π t) := by
  suffices every : ∀ rest done u, l = done ++ rest → done.foldlM f s = some u → rest.foldlM f u = some t →
      rest.foldlM g (π u) = some (π t) from every l [] s rfl rfl run
  intro rest
  induction rest with
  | nil =>
    intro done u _ _ run
    obtain rfl := Option.some.inj run
    rfl
  | cons x rest ih =>
    intro done u split before run
    obtain ⟨v, now, after⟩ := Option.bind_eq_some_iff.mp run
    refine Option.bind_eq_some_iff.mpr ⟨π v, step done x rest u v split before now after, ?_⟩
    refine ih (done ++ [x]) v (by rw [split, List.append_assoc]; rfl) ?_ after
    rw [List.foldlM_append]
    exact Option.bind_eq_some_iff.mpr ⟨u, before, Option.bind_eq_some_iff.mpr ⟨v, now, rfl⟩⟩

variable {f : FuncId} {d : Definition (Exact K)} {A B start : Contents (DualNumber K)} {R : Domain}

theorem Definition.step?_primal (step : d.step? P f start A env.lift = some B) :
    d.step? P.primal f start.primal A.primal env = some B.primal := by
  obtain ⟨p, v, position, value, stored⟩ := step?_eq_some.mp step
  have same : (P.set f (if d.rdom.isSome then A else start)).primal =
      P.primal.set f (if d.rdom.isSome then A.primal else start.primal) := by
    rw [Answers.primal_set]
    split <;> rfl
  refine step?_eq_some.mpr ⟨p, v.fst, ?_, ?_, (Contents.primal_store? stored).1⟩
  · rw [← same]
    exact Expr.position?_primal position
  · rw [← same]
    exact Expr.value?_primal value

theorem Definition.run?_dual : d.run? P f (d.iterations R) A =
    (d.iterations R).foldlM (fun B env => d.step? P f A B (Env.lift env)) A := by
  unfold run?
  rw [iterations_dual, List.foldlM_map]

theorem Definition.run?_primal (run : d.run? P f (d.iterations R) A = some B) :
    d.run? P.primal f (d.iterations R) A.primal = some B.primal := by
  rw [run?_dual] at run
  exact foldlM_project Contents.primal (fun _ _ _ _ _ _ _ step _ => step?_primal step) run

theorem Definition.foldlM_run?_primal {ds : List (Definition (Exact K))}
    (run : ds.foldlM (fun A d => d.run? P f (d.iterations R) A) A = some B) :
    ds.foldlM (fun A d => d.run? P.primal f (d.iterations R) A) A.primal = some B.primal :=
  foldlM_project Contents.primal (fun _ _ _ _ _ _ _ step _ => run?_primal step) run

theorem Func.start?_primal {func : Func (Exact K)} (begun : func.start? P R = some A) :
    func.start? P.primal R = some A.primal := by
  obtain ⟨d, init, all, rfl⟩ := start?_eq_some.mp begun
  refine start?_eq_some.mpr ⟨d, init, fun p mem => Option.isSome_map.trans (all p mem), funext fun p => ?_⟩
  unfold Contents.primal
  dsimp only at all ⊢
  by_cases mem : p ∈ R.points
  · obtain ⟨w, value⟩ := Option.isSome_iff_exists.mp (all p mem)
    rw [if_pos mem] at value
    rw [if_pos mem, if_pos mem, value]
    rw [coordinates_dual] at value
    exact (Expr.value?_primal value).symm
  · rw [if_neg mem, if_neg mem]
    rfl

/-- A func that holds dual numbers holds their parts without `ε` over numbers. -/
theorem Func.contents?_primal {func : Func (Exact K)} (run : func.contents? P f R = some A) :
    func.contents? P.primal f R = some A.primal := by
  obtain ⟨B, begun, run⟩ := Option.bind_eq_some_iff.mp run
  exact Option.bind_eq_some_iff.mpr ⟨B.primal, start?_primal begun, Definition.foldlM_run?_primal run⟩

end Runs

end ArrayDiff
