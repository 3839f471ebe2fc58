import ArrayDiff.Proofs.Copying
import ArrayDiff.Proofs.Following
import ArrayDiff.Proofs.Forward
import ArrayDiff.Proofs.Sight

/-!
# A func over dual numbers and its tangent

While a func is computed over dual numbers, its tangent is computed over numbers, and holds the coefficients of `ε` at
every moment: after the initial definition (`Tangents.Abreast.start?`), after each iteration
(`Tangents.Abreast.step?`) and so after each update (`Tangents.Abreast.run?`).
-/

open ArrayDiff.Expr

namespace ArrayDiff

open TrivSqZeroExt (inl inr)

variable {K : Type} [Field K] [LinearOrder K] [FloorRing K] [Transcendental K]

/-! ### Values that change -/

/-- Values with their changes. -/
def Valuation.dual (ρ : Valuation K) (changes : Target → List Int → K) : Valuation (DualNumber K) where
  call f p := inl (ρ.call f p) + inr (changes (.func f) p)
  load b p := inl (ρ.load b p) + inr (changes (.buffer b) p)
  param i := inl (ρ.param i) + inr (changes (.param i) [])

section Dual

variable {ρ : Valuation K} {changes : Target → List Int → K}

section

omit [LinearOrder K] [FloorRing K] [Transcendental K]

@[simp] theorem Valuation.fst_dual (f : FuncId) (p : List Int) : ((ρ.dual changes).call f p).fst = ρ.call f p := by
  simp [dual]

@[simp] theorem Valuation.snd_dual (f : FuncId) (p : List Int) :
    ((ρ.dual changes).call f p).snd = changes (.func f) p := by
  simp [dual]

theorem Valuation.primal_dual : (ρ.dual changes).answers.primal = ρ.answers := by
  unfold Valuation.answers Answers.primal Contents.primal dual
  simp

theorem Valuation.change_dual {u : Target} {q : List Int} {v : K}
    (known : (ρ.dual changes).answers.change u q = some v) : changes u q = v := by
  cases u with
  | func f | buffer b => simpa [Answers.change, Contents.change, Valuation.answers, dual] using known
  | param i =>
    obtain ⟨rfl, known⟩ := Option.ite_none_right_eq_some.mp known
    obtain rfl := Option.some.inj known
    simp [dual]

/-- Values of `f` that are not held are free. -/
theorem Valuation.extendedBy_dual_set (f : FuncId) (seen : Contents (DualNumber K)) (C : List Int → K) :
    ((ρ.dual changes).answers.set f seen).primal.ExtendedBy (ρ.set f fun q => (seen.primal q).getD (C q)) := by
  rw [Answers.primal_set, primal_dual]
  exact ρ.extendedBy_answers.set fun p v held => by rw [held]; rfl

end

end Dual

section

omit [Field K] [LinearOrder K] [FloorRing K] [Transcendental K]

theorem Answers.change_set_self (P : Answers (DualNumber K)) (f : FuncId) (A : Contents (DualNumber K)) :
    (P.set f A).change (.func f) = A.change := congrArg Contents.change (P.set_self f A)

theorem Answers.change_set_of_ne (P : Answers (DualNumber K)) {f : FuncId} {u : Target} (A : Contents (DualNumber K))
    (other : u ≠ .func f) : (P.set f A).change u = P.change u := by
  cases u with
  | func g => exact congrArg Contents.change (set_of_ne P A fun same => other (congrArg _ same))
  | buffer _ | param _ => rfl

theorem Valuation.answers_set (ρ : Valuation K) (f : FuncId) (C : List Int → K) :
    (ρ.set f C).answers = ρ.answers.set f fun q => some (C q) := by
  unfold answers set Answers.set
  congr 1
  funext g
  dsimp only
  split <;> rfl

theorem Answers.set_none_follows (P : Answers K) {f : FuncId} {T : FuncId → Prop} :
    (P.set f fun _ => none).Follows P T := by
  refine ⟨fun {g p v} _ answer => ?_, id, id⟩
  by_cases same : g = f
  · rw [same, set_self] at answer
    cases answer
  · rwa [set_of_ne _ _ same] at answer

theorem Answers.redirect_set (P : Answers K) {f id copy : FuncId} (other : f ≠ id) (apart : copy ≠ id)
    (S : Contents K) : (P.set id S).redirect f copy = (P.redirect f copy).set id S := by
  unfold redirect set
  congr 1
  funext g
  dsimp only
  by_cases same : g = f
  · rw [if_pos same, if_neg apart, if_neg (same ▸ other)]
  · rw [if_neg same]

theorem Valuation.redirect_answers (ρ : Valuation K) (f copy : FuncId) :
    (ρ.set f (ρ.call copy)).answers = ρ.answers.redirect f copy := by
  unfold answers set Answers.redirect
  congr 1
  funext g
  dsimp only
  split <;> rfl

end

/-! ### One value -/

namespace Tangents

/-- The func `id` is the tangent of `f` only, and is not among the targets of `T`. -/
structure Abreast (active : Table Target FuncId) (f id : FuncId) (T : Target → Prop) : Prop where
  own : active.get? (.func f) = some id
  other : id ≠ f
  only {u : Target} : active.get? u = some id → u = .func f
  unread : ¬T (.func id)

namespace Abreast

variable {active : Table Target FuncId} {f id : FuncId} {T : Target → Prop} {ρ : Valuation K} {env : Env K}
  {e : Expr (Exact K)} {vars rvars : List Name} {seen : Contents (DualNumber K)} {C : List Int → K} {w : DualNumber K}

omit [LinearOrder K] [FloorRing K] [Transcendental K] in
/-- What moves apart from `f` moves alike while `f` and its tangent are being computed. -/
theorem motion_eq (h : Abreast active f id T)
    (apart : ∀ u i, active.get? u = some i → u ≠ .func f → (ρ.set f C).call i = ρ.call i) {u : Target}
    (other : u ≠ .func f) (V : List Int → K) : motion active ((ρ.set f C).set id V) u = motion active ρ u := by
  funext q
  unfold motion
  cases found : active.get? u with
  | none => rfl
  | some i =>
    have foreign : i ≠ id := fun same => other (h.only (same ▸ found))
    rw [Option.elim_some, Option.elim_some, Valuation.set_of_ne _ _ foreign, apart u i found other]

omit [LinearOrder K] [FloorRing K] [Transcendental K] in
/-- While the tangent holds the coefficients of what `f` holds, everything moves along the tangents. -/
theorem motion_of_change (h : Abreast active f id T)
    (apart : ∀ u i, active.get? u = some i → u ≠ .func f → (ρ.set f C).call i = ρ.call i) {u : Target} {q : List Int}
    {v : K} (answered : ((ρ.dual (motion active ρ)).answers.set f seen).change u q = some v) :
    motion active ((ρ.set f C).set id fun q => (seen.change q).getD 0) u q = v := by
  by_cases self : u = .func f
  · subst self
    rw [Answers.change_set_self] at answered
    unfold motion
    rw [h.own, Option.elim_some, Valuation.set_self, answered]
    rfl
  · rw [Answers.change_set_of_ne _ _ self] at answered
    rw [h.motion_eq apart self]
    exact Valuation.change_dual answered

theorem computes_direction (h : Abreast active f id T) {ρ' : Valuation K}
    (ext : ((ρ.set f C).answers.set id seen.change).ExtendedBy ρ') {r : Read (Exact K)}
    (args : ∀ a ∈ r.args, a.Computes ((ρ.set f C).answers.set id seen.change) env) {v : K}
    (answered : ((ρ.dual (motion active ρ)).answers.set f seen).change r.target (position ρ' env r.args) = some v) :
    (((active.get? r.target).map fun i => Expr.call i r.args).getD Expr.zero).Computes
      ((ρ.set f C).answers.set id seen.change) env := by
  cases found : active.get? r.target with
  | none => exact .const _
  | some i =>
    refine (computes_read ext).mpr ⟨args, ?_⟩
    change (((ρ.set f C).answers.set id seen.change).call i _).isSome
    by_cases same : i = id
    · subst same
      rw [h.only found, Answers.change_set_self] at answered
      rw [Answers.set_self, answered]
      rfl
    · rw [Answers.set_of_ne _ _ same]
      rfl

/-- The derivative of a value along the tangents is the coefficient of `ε`. The values `C` of `f` take the place of
those that it holds, and the tangent holds the coefficients of these. -/
theorem value?_along (h : Abreast active f id T)
    (apart : ∀ u i, active.get? u = some i → u ≠ .func f → (ρ.set f C).call i = ρ.call i) (neat : e.Neat vars rvars T)
    (logical : e.Logical (ρ.set f C) env) (bound : e.Computes (ρ.set f C).answers env)
    (sight : ∀ τ, e.derivative? (ρ.set f fun q => (seen.primal q).getD (C q)) env τ = e.derivative? (ρ.set f C) env τ)
    (value : e.value? ((ρ.dual (motion active ρ)).answers.set f seen) env.lift = some w) :
    (along active e).value? ((ρ.set f C).answers.set id seen.change) env = some w.snd := by
  have aside : (ρ.set f C).Agree ((ρ.set f C).set id fun q => (seen.change q).getD 0) T := by
    refine ⟨fun {g} known => (Valuation.set_of_ne _ _ ?_).symm, fun _ => rfl, fun _ => rfl⟩
    rintro rfl
    exact h.unread known
  have plain : e.Plain ((ρ.set f C).set id fun q => (seen.change q).getD 0) env (Atom.Among vars rvars T False) :=
    plain_congr (neat.values_agree aside) (neat.strict logical)
  have ext : ((ρ.set f C).answers.set id seen.change).ExtendedBy ((ρ.set f C).set id fun q => (seen.change q).getD 0) :=
    (ρ.set f C).extendedBy_answers.set fun p v held => by rw [held]; rfl
  have computes : e.Computes ((ρ.set f C).answers.set id seen.change) env := by
    obtain ⟨v, value⟩ := Option.isSome_iff_exists.mp bound
    exact Option.isSome_iff_exists.mpr ⟨v, neat.value?_aside h.unread value _⟩
  have known : e.derivative? ((ρ.set f C).set id fun q => (seen.change q).getD 0) env
      ((ρ.dual (motion active ρ)).answers.set f seen).change = some w.snd := by
    rw [← derivative?_congr (neat.values_agree aside) fun _ _ => rfl, ← sight]
    exact derivative?_of_dual (Valuation.extendedBy_dual_set f seen C) value
  have wider : ∀ a, Atom.Among vars rvars T False a → Atom.Among vars rvars (fun _ => True) False a :=
    Atom.Among.mono (fun _ m => m) (fun _ m => m) (fun _ _ => trivial) fun strict => strict
  have agree : ∀ u q v, ((ρ.dual (motion active ρ)).answers.set f seen).change u q = some v →
      motion active ((ρ.set f C).set id fun q => (seen.change q).getD 0) u q = v :=
    fun _ _ _ answered => h.motion_of_change apart answered
  exact value?_tangent ext (fun strict => strict) plain wider computes
    (fun r _ plain => represents_motion wider plain fun _ _ => trivial)
    (fun r args v answered => h.computes_direction ext args answered) agree known

/-! ### Updates -/

/-- In the tangent of an update, `value` stands for `e` with the values `C` for those of `f`. -/
def Stands (ρ : Valuation K) (f id : FuncId) (C : List Int → K) (e value : Expr (Exact K)) : Prop :=
  e.readsTarget (.func f) = false ∧ value = e ∨ ∃ copy ≠ id, ρ.call copy = C ∧ value = e.redirect f copy

theorem Stands.value? {value : Expr (Exact K)} (stands : Stands ρ f id C e value) (h : Abreast active f id T)
    {S : Contents K} {v : K} (known : e.value? ((ρ.set f C).answers.set id S) env = some v) :
    value.value? (ρ.answers.set id S) env = some v := by
  rcases stands with ⟨unread, rfl⟩ | ⟨copy, other, rfl, rfl⟩
  · rw [ρ.answers_set] at known
    refine value?_follow ((ρ.answers.set_follows f _).set id S) (fun r mem g target _ same => ?_) known
    exact target_ne_of_not_reads unread mem (same ▸ target)
  · rw [ρ.redirect_answers, ← Answers.redirect_set _ h.other.symm other] at known
    exact value?_redirect (T := fun _ => True) ⟨fun _ answer => answer, fun answer => answer, fun answer => answer⟩
      (fun _ _ _ _ => trivial) known

variable {d t : Definition (Exact K)} {R : Domain} {start A B : Contents (DualNumber K)} {kind : UpdateKind (Exact K)}

theorem step? (h : Abreast active f id T) (lhs : t.lhs = d.lhs) (rdom : t.rdom = d.rdom)
    (unread : ∀ e ∈ d.lhs, e.readsTarget (.func f) = false) (neat : ∀ e ∈ d.lhs, e.Neat vars rvars T)
    (value : ∀ w,
      d.value.value? ((ρ.dual (motion active ρ)).answers.set f (if d.rdom.isSome then A else start)) env.lift = some w →
      t.value.value? (ρ.answers.set id (if d.rdom.isSome then A else start).change) env = some w.snd)
    (step : d.step? (ρ.dual (motion active ρ)).answers f start A env.lift = some B) :
    t.step? ρ.answers id start.change A.change env = some B.change := by
  obtain ⟨p, w, position, found, stored⟩ := Definition.step?_eq_some.mp step
  have same : (if t.rdom.isSome then A.change else start.change) = (if d.rdom.isSome then A else start).change := by
    rw [rdom]
    split <;> rfl
  refine Definition.step?_eq_some.mpr ⟨p, w.snd, ?_, ?_, (Contents.primal_store? stored).2⟩
  · rw [same, lhs]
    have here := position?_primal position
    rw [Answers.primal_set, Valuation.primal_dual] at here
    have apart : (ρ.answers.set f (if d.rdom.isSome then A else start).primal).Follows
        (ρ.answers.set id (if d.rdom.isSome then A else start).change) fun g => g ≠ id ∧ g ≠ f := by
      refine ⟨fun {g p v} foreign answer => ?_, fun h => h, fun h => h⟩
      rw [Answers.set_of_ne _ _ foreign.2] at answer
      rwa [Answers.set_of_ne _ _ foreign.1]
    refine position?_follow apart (fun e mem r read g target => ⟨?_, ?_⟩) here
    · rintro rfl
      exact h.unread (target ▸ (neat e mem).target_of_read read)
    · rintro rfl
      exact target_ne_of_not_reads (unread e mem) read target
  · rw [same]
    exact value w found

variable [IsStrictOrderedRing K] in
theorem run? (h : Abreast active f id T)
    (apart : ∀ u i, active.get? u = some i → u ≠ .func f → (ρ.set f C).call i = ρ.call i) (regular : d.Regular ρ f T)
    (length : d.lhs.length = R.dims) (kinded : d.kindFor f = .ok kind) (lhs : t.lhs = d.lhs) (rdom : t.rdom = d.rdom)
    (stands : Stands ρ f id C (along active d.value) t.value)
    (held : ∀ q v, kind.moment A.primal B.primal q = some v → C q = v)
    (run : d.run? (ρ.dual (motion active ρ)).answers f (d.iterations R) A = some B) :
    t.run? ρ.answers id (t.iterations R) A.change = some B.change := by
  have iterations : (t.iterations R : List (Env K)) = d.iterations R := by
    unfold Definition.iterations
    rw [lhs, rdom]
  rw [iterations]
  rw [Definition.run?_dual] at run
  obtain ⟨unwritten, -⟩ := kindFor_cases kinded
  refine foldlM_project Contents.change (fun done env rest X Y split before now after => ?_) run
  have primal {l : List (Env K)} {X Y : Contents (DualNumber K)}
      (run : l.foldlM (fun B env => d.step? (ρ.dual (motion active ρ)).answers f A B (Env.lift env)) X = some Y) :
      l.foldlM (d.step? ρ.answers f A.primal) X.primal = some Y.primal := by
    refine foldlM_project Contents.primal (fun _ _ _ _ _ _ _ step _ => ?_) run
    rw [← Valuation.primal_dual]
    exact Definition.step?_primal step
  obtain ⟨bound, boundR⟩ := Definition.bound_of_mem_iterations (K := K) length
    (split ▸ List.mem_append_right _ List.mem_cons_self)
  have neat := regular.neat d.value (List.mem_append_right _ List.mem_cons_self)
  refine h.step? lhs rdom unwritten (fun e mem => regular.neat e (List.mem_append_left _ mem)) (fun w value => ?_) now
  refine stands.value? h (h.value?_along apart neat
    (regular.logical C env d.value (List.mem_append_right _ List.mem_cons_self)) ?_ (fun τ => ?_) value)
  · exact Option.isSome_iff_exists.mpr ⟨_, value?_answers
      (fun x node => bound x ((neat (ρ.set f C) env).var_mem node))
      fun x node => boundR x ((neat (ρ.set f C) env).rvar_mem node)⟩
  · have same : (if d.rdom.isSome then X else A).primal = if d.rdom.isSome then X.primal else A.primal := by
      split <;> rfl
    rw [same]
    exact regular.derivative?_sight length ρ.extendedBy_answers kinded split (primal before)
      (primal (Option.bind_eq_some_iff.mpr ⟨Y, now, after⟩)) held τ

/-! ### Initial definitions -/

theorem start? (h : Abreast active f id T) {func tangent : Func (Exact K)} (init : func.init = some d)
    (unread : ∀ r ∈ d.value.reads, r.target ≠ .func f)
    (neat : d.value.Neat func.args [] T) (logical : ∀ env, d.value.Logical ρ env) (args : tangent.args = func.args)
    (init' : tangent.init = some ⟨func.argExprs, along active d.value, none⟩)
    (begun : func.start? (ρ.dual (motion active ρ)).answers R = some A) :
    tangent.start? ρ.answers R = some A.change := by
  obtain ⟨_, same, all, rfl⟩ := Func.start?_eq_some.mp begun
  obtain rfl := Option.some.inj (init.symm.trans same)
  have value {p : List Int} {w : DualNumber K} (found : d.value.value? (ρ.dual (motion active ρ)).answers
      ⟨coordinates (Exact K) func.args p, []⟩ = some w) :
      (along active d.value).value? ρ.answers ⟨coordinates (Exact K) func.args p, []⟩ = some w.snd := by
    have lifted : d.value.value? (ρ.dual (motion active ρ)).answers
        (Env.lift ⟨coordinates (Exact K) func.args p, []⟩) = some w := by
      rw [coordinates_dual] at found
      exact found
    have computes := Option.isSome_iff_exists.mpr ⟨_, value?_primal lifted⟩
    rw [Valuation.primal_dual] at computes
    -- neither the value nor its derivative depends on what `f` and the tangent hold
    have aside := value?_follow (Answers.follows_set _ f fun _ => none)
      (fun r mem g target same => unread r mem (same ▸ target)) lifted
    have known := h.value?_along (C := ρ.call f) (fun u i _ _ => by rw [ρ.set_call_self]) neat
      (by rw [ρ.set_call_self]; exact logical _) (by rw [ρ.set_call_self]; exact computes) (fun τ => rfl) aside
    rw [ρ.set_call_self] at known
    exact value?_follow (T := fun _ => True) ρ.answers.set_none_follows (fun _ _ _ _ => trivial) known
  have values {p : List Int} (mem : p ∈ R.points) :
      (along active d.value).value? ρ.answers ⟨coordinates (Exact K) func.args p, []⟩ =
        (d.value.value? (ρ.dual (motion active ρ)).answers ⟨coordinates (Exact K) func.args p, []⟩).map
          TrivSqZeroExt.snd := by
    obtain ⟨w, found⟩ := Option.isSome_iff_exists.mp (all p mem)
    dsimp only at found
    rw [if_pos mem] at found
    rw [value found, found, Option.map_some]
  refine Func.start?_eq_some.mpr ⟨_, init', fun p mem => ?_, funext fun p => ?_⟩
  · exact Option.isSome_map.trans (all p mem)
  · unfold Contents.change
    dsimp only
    rw [args]
    by_cases mem : p ∈ R.points
    · rw [if_pos mem, if_pos mem, values mem]
    · rw [if_neg mem, if_neg mem, Option.map_none]

end Abreast

end Tangents

end ArrayDiff
