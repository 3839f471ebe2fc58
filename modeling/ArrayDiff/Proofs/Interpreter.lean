import ArrayDiff.Proofs.Meaning
import ArrayDiff.Proofs.Outcome

/-!
# The interpreter computes the meaning

Whatever the interpreter remembers is right (`Memory.Faithful`), and a call changes nothing about funcs that are still
being computed. So a run that succeeds gives the values that the funcs hold (`realize_sound`), in whatever order and
however often they are asked for.
-/

namespace ArrayDiff

variable {κ α A B : Type}

/-! ### Runs -/

theorem run_bind_ok {c : Run α A} {k : A → Run α B} {m m' : Memory α} {b : B} :
    (c >>= k) m = .ok (b, m') ↔ ∃ a m₁, c m = .ok (a, m₁) ∧ k a m₁ = .ok (b, m') := by
  refine (bind_eq_ok (c := c m)).trans ?_
  exact ⟨fun ⟨⟨a, m₁⟩, first, rest⟩ => ⟨a, m₁, first, rest⟩, fun ⟨a, m₁, first, rest⟩ => ⟨(a, m₁), first, rest⟩⟩

theorem run_pure_ok {a b : A} {m m' : Memory α} : (pure a : Run α A) m = .ok (b, m') ↔ a = b ∧ m = m' := by
  refine (pure_eq_ok (ε := EvalError)).trans ?_
  simp

theorem run_throw_ne_ok {e : EvalError} {m : Memory α} {r : A × Memory α} : (throw e : Run α A) m ≠ .ok r := by
  intro h
  cases h

theorem run_lift_ok {c : Except EvalError A} {m m' : Memory α} {a : A} :
    (liftM c : Run α A) m = .ok (a, m') ↔ c = .ok a ∧ m = m' := by
  cases c with
  | error e => simp [liftM, monadLift, MonadLift.monadLift, StateT.lift, bind, Except.bind]
  | ok b => simp [liftM, monadLift, MonadLift.monadLift, StateT.lift, bind, Except.bind, pure, Except.pure]

theorem run_get_bind {k : Memory α → Run α B} {m : Memory α} : (get >>= k) m = k m m := rfl

theorem run_modify_ok {f : Memory α → Memory α} {m m' : Memory α} {u : PUnit} :
    (modify f : Run α PUnit) m = .ok (u, m') ↔ f m = m' := by
  simp [modify, modifyGet, MonadStateOf.modifyGet, StateT.modifyGet, pure, Except.pure]

/-- A run that starts from a memory with the property `I` keeps it, and is followed by a computation without memory. -/
def Lifting.sound (I : Memory α → Prop) : Lifting (Run α) Option where
  rel S c d := ∀ m x m', I m → c m = .ok (x, m') → I m' ∧ ∃ y, d = some y ∧ S x y
  rel_pure h m x m' hm run := by
    obtain ⟨rfl, rfl⟩ := run_pure_ok.mp run
    exact ⟨hm, _, rfl, h⟩
  rel_bind h k m x m' hm run := by
    obtain ⟨a, m₁, first, rest⟩ := run_bind_ok.mp run
    obtain ⟨hm₁, b, answer, same⟩ := h m a m₁ hm first
    obtain ⟨hm', c, answer', same'⟩ := k a b same m₁ x m' hm₁ rest
    exact ⟨hm', c, Option.bind_eq_some_iff.mpr ⟨b, answer, answer'⟩, same'⟩

theorem run_mapM_ok {c : A → Run α B} {l : List A} (I : Memory α → Prop) (T : A → B → Prop)
    (step : ∀ a ∈ l, ∀ m b m', I m → c a m = .ok (b, m') → I m' ∧ T a b) {m m' : Memory α} {bs : List B} (hm : I m)
    (run : l.mapM c m = .ok (bs, m')) : I m' ∧ List.Forall₂ T l bs := by
  induction l generalizing m bs with
  | nil =>
    rw [List.mapM_nil] at run
    obtain ⟨rfl, rfl⟩ := run_pure_ok.mp run
    exact ⟨hm, List.Forall₂.nil⟩
  | cons a l ih =>
    rw [List.mapM_cons] at run
    obtain ⟨b, m₁, first, run⟩ := run_bind_ok.mp run
    obtain ⟨rest, m₂, second, made⟩ := run_bind_ok.mp run
    obtain ⟨rfl, rfl⟩ := run_pure_ok.mp made
    obtain ⟨hm₁, here⟩ := step a List.mem_cons_self m b m₁ hm first
    obtain ⟨hm₂, all⟩ := ih (fun a mem => step a (List.mem_cons_of_mem _ mem)) hm₁ second
    exact ⟨hm₂, List.Forall₂.cons here all⟩

/-! ### Storages -/

namespace Storage

/-- There is one value for each point. -/
def Filled (s : Storage α) : Prop := s.values.size = s.domain.points.length

variable {s : Storage α}

theorem isSome_get? (filled : s.Filled) (p : List Int) : (s.get? p).isSome = true ↔ p ∈ s.domain.points := by
  unfold get?
  cases at' : s.domain.position? p with
  | none => simp [← Domain.position?_isSome, at']
  | some k =>
    have bound : k < s.values.size := filled ▸ Domain.position?_lt at'
    simp [Domain.mem_of_position? at', bound]

theorem Filled.setAt (filled : s.Filled) (place : Nat) (v : α) : (s.setAt place v).Filled := by
  simpa [Filled, Storage.setAt] using filled

theorem get?_setAt_of_ne {p q : List Int} {place : Nat} (at' : s.domain.position? p = some place) (other : q ≠ p)
    (v : α) : (s.setAt place v).get? q = s.get? q := by
  unfold get? setAt
  dsimp only
  cases found : s.domain.position? q with
  | none => rfl
  | some k =>
    have different : place ≠ k := by
      rintro rfl
      exact other (Domain.position?_inj found at')
    rw [Option.bind_some, Option.bind_some, Array.getElem?_setIfInBounds_ne different]

theorem get?_setAt (filled : s.Filled) {p : List Int} {place : Nat} (at' : s.domain.position? p = some place) (v : α) :
    (s.setAt place v).get? = Function.update s.get? p (some v) := by
  funext q
  by_cases same : q = p
  · have bound : place < s.values.size := filled ▸ Domain.position?_lt at'
    simp [get?, setAt, same, at', bound]
  · rw [Function.update_of_ne same, get?_setAt_of_ne at' same]

theorem filled_ofList {d : Domain} {vs : List α} (length : vs.length = d.points.length) :
    Filled (⟨d, vs.toArray⟩ : Storage α) := by
  simpa [Filled] using length

theorem get?_ofList {d : Domain} {vs : List α} {f : List Int → Option α}
    (values : List.Forall₂ (fun p v => f p = some v) d.points vs) (p : List Int) :
    (⟨d, vs.toArray⟩ : Storage α).get? p = if p ∈ d.points then f p else none := by
  unfold get?
  simp only
  cases at' : d.position? p with
  | none =>
    have outside : p ∉ d.points := by simp [← Domain.position?_isSome, at']
    simp [outside]
  | some k =>
    rw [if_pos (Domain.mem_of_position? at')]
    have found := Domain.getElem?_position at'
    obtain ⟨bound, rfl⟩ := List.getElem?_eq_some_iff.mp found
    have bound' : k < vs.length := values.length_eq ▸ bound
    have value := List.Forall₂.get values bound bound'
    simpa [bound'] using value.symm

end Storage

/-! ### What is remembered -/

/-- The value of bound data at a position. -/
def Bindings.load? (b : Bindings α) (g : Graph κ) (i : BufferId) (p : List Int) : Option α :=
  match b.tensor g i with
  | .ok data => ((g.buffer i).domain.position? p).bind (data.values[·]?)
  | .error _ => none

namespace Memory

/-- Values of funcs of rank less than `k` are those that `P` gives. -/
structure Faithful (m : Memory α) (P : Answers α) (rank : FuncId → Nat) (k : Nat) : Prop where
  stored {f : FuncId} {s : Storage α} {p : List Int} {v : α} :
    rank f < k → m.stored.get? f = some s → s.get? p = some v → P.call f p = some v
  known {f : FuncId} {p : List Int} {v : α} : rank f < k → m.memoized? f p = some v → P.call f p = some v

/-- Nothing is different about the funcs of `T`. -/
def Unchanged (m m' : Memory α) (T : FuncId → Prop) : Prop :=
  ∀ f, T f → m'.stored.get? f = m.stored.get? f ∧ m'.known.get? f = m.known.get? f

theorem Unchanged.refl (m : Memory α) (T : FuncId → Prop) : m.Unchanged m T := fun _ _ => ⟨rfl, rfl⟩

theorem Unchanged.trans {m m' m'' : Memory α} {T : FuncId → Prop} (h : m.Unchanged m' T) (h' : m'.Unchanged m'' T) :
    m.Unchanged m'' T := fun f mem =>
  ⟨(h' f mem).1.trans (h f mem).1, (h' f mem).2.trans (h f mem).2⟩

theorem Unchanged.mono {m m' : Memory α} {T T' : FuncId → Prop} (h : m.Unchanged m' T) (sub : ∀ f, T' f → T f) :
    m.Unchanged m' T' := fun f mem => h f (sub f mem)

theorem memoized?_remember (m : Memory α) (f g : FuncId) (p q : List Int) (v : α) :
    (m.remember f p v).memoized? g q = if f = g ∧ p = q then some v else m.memoized? g q := by
  unfold memoized? remember
  simp only [Table.get?_insert]
  by_cases same : f = g
  · subst same
    rw [if_pos rfl, Option.bind_some, Std.TreeMap.getElem?_insert]
    by_cases at' : p = q
    · simp [at']
    · have other : compare p q ≠ .eq := fun h => at' (Std.LawfulEqOrd.eq_of_compare h)
      rw [if_neg other, if_neg (fun h => at' h.2)]
      cases m.known.get? f <;> simp
  · rw [if_neg same, if_neg (fun h => same h.1)]

theorem Unchanged.remember {m : Memory α} {T : FuncId → Prop} {f : FuncId} (off : ¬T f) (p : List Int) (v : α) :
    m.Unchanged (m.remember f p v) T := by
  intro g mem
  have other : f ≠ g := by
    rintro rfl
    exact off mem
  refine ⟨rfl, ?_⟩
  unfold Memory.remember
  rw [Table.get?_insert, if_neg other]

section Faithful

variable {m m' : Memory α} {P : Answers α} {rank : FuncId → Nat} {k l : Nat}

theorem Faithful.lower (h : m.Faithful P rank k) (le : l ≤ k) : m.Faithful P rank l :=
  ⟨fun below found => h.stored (below.trans_le le) found, fun below found => h.known (below.trans_le le) found⟩

theorem Faithful.raise (h : m'.Faithful P rank l) (before : m.Faithful P rank k)
    (unchanged : m.Unchanged m' fun g => l ≤ rank g) : m'.Faithful P rank k := by
  constructor
  · intro g s q v below stored found
    rcases lt_or_ge (rank g) l with earlier | later
    · exact h.stored earlier stored found
    · rw [(unchanged g later).1] at stored
      exact before.stored below stored found
  · intro g q v below found
    rcases lt_or_ge (rank g) l with earlier | later
    · exact h.known earlier found
    · unfold Memory.memoized? at found
      rw [(unchanged g later).2] at found
      exact before.known below found

theorem Faithful.remember (h : m.Faithful P rank k) {f : FuncId} {p : List Int} {v : α} (answer : P.call f p = some v) :
    (m.remember f p v).Faithful P rank k := by
  refine ⟨fun below stored found => h.stored below stored found, fun {g q w} below found => ?_⟩
  rw [Memory.memoized?_remember] at found
  split at found
  · rename_i same
    obtain ⟨rfl, rfl⟩ := same
    rwa [← Option.some.inj found]
  · exact h.known below found

end Faithful

end Memory

variable [Scalar κ] [Scalar α] [Embed κ α]

/-- `P` answers with the bound data, and with the values that the funcs of `S` hold. -/
structure Answers.Sound (P : Answers α) (g : Graph κ) (b : Bindings α) (S : FuncId → Prop) : Prop where
  load {i : BufferId} {p : List Int} {v : α} : b.load? g i p = some v → P.load i p = some v
  param {i : ParamId} {v : α} : b.param g i = .ok v → P.param i = some v
  call {f : FuncId} {p : List Int} {v : α} : S f → (g.func f).Holds P f p v → P.call f p = some v

/-- `P` answers with the bound data, and with what the funcs of `S` hold over the regions of a job. -/
structure Answers.Serves (P : Answers α) (j : Job κ α) (S : FuncId → Prop) : Prop where
  load {i : BufferId} {p : List Int} {v : α} : j.bindings.load? j.graph i p = some v → P.load i p = some v
  param {i : ParamId} {v : α} : j.bindings.param j.graph i = .ok v → P.param i = some v
  region {f : FuncId} {C : Contents α} {p : List Int} {v : α} : S f →
    (j.graph.func f).contents? P f (j.regions.of j.graph f) = some C → C p = some v → P.call f p = some v
  pointwise {f : FuncId} {d : Definition κ} {p : List Int} {v : α} : S f → (j.graph.func f).updates = [] →
    (j.graph.func f).init = some d → d.value.value? P ⟨coordinates κ (j.graph.func f).args p, []⟩ = some v →
    P.call f p = some v

theorem Answers.Sound.serves {P : Answers α} {g : Graph κ} {b : Bindings α} {S : FuncId → Prop} (h : P.Sound g b S)
    (regions : Regions) : P.Serves ⟨g, b, regions⟩ S :=
  ⟨h.load, h.param, fun mem run held => h.call mem ⟨_, _, run, held⟩,
    fun mem pointwise init value => h.call mem (Func.holds_of_value? pointwise init value)⟩

namespace Job

variable {j : Job κ α} {P : Answers α} {S : FuncId → Prop} {rank : FuncId → Nat}

omit [Scalar κ] [Scalar α] [Embed κ α] in
theorem load_ok {i : BufferId} {p : List Int} {m m' : Memory α} {v : α} (run : j.load i p m = .ok (v, m')) :
    m' = m ∧ j.bindings.load? j.graph i p = some v := by
  obtain ⟨data, m₁, lifted, run⟩ := run_bind_ok.mp run
  obtain ⟨bound, rfl⟩ := run_lift_ok.mp lifted
  simp only [Bindings.load?, bound]
  cases found : ((j.graph.buffer i).domain.position? p).bind (data.values[·]?) with
  | none =>
    simp only [found] at run
    exact absurd run run_throw_ne_ok
  | some w =>
    simp only [found] at run
    obtain ⟨rfl, rfl⟩ := run_pure_ok.mp run
    exact ⟨rfl, rfl⟩

omit [Scalar κ] [Scalar α] [Embed κ α] in
theorem store_ok {f : FuncId} {p : List Int} {v : α} {m m' : Memory α} {u : Unit} {s : Storage α}
    (run : j.store f p v m = .ok (u, m')) (held : m.stored.get? f = some s) (filled : s.Filled) :
    ∃ s', m'.stored.get? f = some s' ∧ s'.Filled ∧ s'.domain = s.domain ∧
      Contents.store? s.get? p v = some s'.get? ∧ m'.known = m.known ∧
      ∀ g, g ≠ f → m'.stored.get? g = m.stored.get? g := by
  unfold store at run
  rw [run_get_bind] at run
  cases at' : s.domain.position? p with
  | none =>
    simp only [held, Option.bind_some, at'] at run
    exact absurd run run_throw_ne_ok
  | some place =>
    simp only [held, Option.bind_some, at'] at run
    obtain rfl := run_modify_ok.mp run
    refine ⟨s.setAt place v, ?_, filled.setAt place v, rfl, ?_, rfl, fun g other => ?_⟩
    · rw [Table.get?_modify, held]
      simp
    · refine Contents.store?_eq_some.mpr ⟨?_, (Storage.get?_setAt filled at' v).symm⟩
      exact (Storage.isSome_get? filled p).mpr (Domain.mem_of_position? at')
    · rw [Table.get?_modify]
      simp [Ne.symm other]

/-- What a call gives when funcs of smaller rank than `k` are remembered faithfully: the value that `P` gives, with
nothing changed about the other funcs. -/
def CallSound (j : Job κ α) (P : Answers α) (S : FuncId → Prop) (rank : FuncId → Nat) (depth : Nat) : Prop :=
  ∀ f p k m v m', S f → rank f < k → m.Faithful P rank k → j.call depth f p m = .ok (v, m') →
    P.call f p = some v ∧ m'.Faithful P rank k ∧ m.Unchanged m' fun g => k ≤ rank g

/-- The memory while `f` is computed, with its values so far. -/
structure Computing (P : Answers α) (rank : FuncId → Nat) (f : FuncId) (m₀ : Memory α) (R : Domain) (A : Contents α)
    (m : Memory α) : Prop where
  faithful : m.Faithful P rank (rank f)
  others : m₀.Unchanged m fun g => rank f ≤ rank g ∧ g ≠ f
  known : m.known.get? f = m₀.known.get? f
  held : ∃ s, m.stored.get? f = some s ∧ s.Filled ∧ s.domain = R ∧ s.get? = A

theorem valueAt_stored {reader : Reader (Run α) α} {f : FuncId} {p : List Int} {m m' : Memory α} {v : α} {s : Storage α}
    (held : m.stored.get? f = some s) (run : j.valueAt reader f p m = .ok (v, m')) : m' = m ∧ s.get? p = some v := by
  unfold valueAt at run
  rw [run_get_bind] at run
  cases found : s.get? p with
  | none =>
    simp only [held, found] at run
    exact absurd run run_throw_ne_ok
  | some w =>
    simp only [held, found] at run
    obtain ⟨rfl, rfl⟩ := run_pure_ok.mp run
    exact ⟨rfl, rfl⟩

theorem call_self {depth : Nat} {f : FuncId} {p : List Int} {m m' : Memory α} {v : α} {s : Storage α}
    (held : m.stored.get? f = some s) (run : j.call depth f p m = .ok (v, m')) : m' = m ∧ s.get? p = some v := by
  cases depth with
  | zero => exact absurd run run_throw_ne_ok
  | succ depth =>
    obtain ⟨_, m₁, prepared, run⟩ := run_bind_ok.mp run
    have ready : (!(j.graph.func f).updates.isEmpty && !m.stored.contains f) = false := by
      simp [Table.contains, held]
    unfold prepare at prepared
    rw [run_get_bind, ready] at prepared
    obtain ⟨-, rfl⟩ := run_pure_ok.mp prepared
    exact valueAt_stored held run

variable {depth : Nat} {f : FuncId} {m₀ : Memory α} {R : Domain} {C : Contents α} {d : Definition κ}

/-- Expressions are evaluated as without a memory, in memories with a property that calls keep. -/
theorem related_sound (serves : P.Serves j S) (I : Memory α → Prop) {Q : Answers α}
    (load : Q.load = P.load) (param : Q.param = P.param) {e : Expr κ} (env : Env α)
    (call : ∀ r ∈ e.reads, ∀ h, r.target = .func h → ∀ p m v m', I m → j.call depth h p m = .ok (v, m') →
      I m' ∧ Q.call h p = some v) :
    Expr.Related (Lifting.sound I) Eq (j.reader (j.call depth)) Q.reader env env e := by
  have bound (found : Option α) (x : Name) : (Lifting.sound I).rel Eq
      (found.elim ((j.reader (j.call depth)).unbound x) pure) (found.elim (Q.reader.unbound x) pure) := by
    cases found with
    | none =>
      intro m v m' hm run
      exact absurd run run_throw_ne_ok
    | some v => exact (Lifting.sound I).rel_pure rfl
  refine ⟨fun _ => rfl, fun x _ => bound _ x, fun x _ => bound _ x, ?_, ?_, ?_⟩
  · intro h args p mem m v m' hm run
    obtain ⟨hm', answer⟩ := call _ (Expr.mem_reads_of_call mem) h rfl p m v m' hm run
    exact ⟨hm', v, answer, rfl⟩
  · intro b p m v m' hm run
    obtain ⟨rfl, found⟩ := load_ok run
    refine ⟨hm, v, ?_, rfl⟩
    change Q.load b p = some v
    rw [load]
    exact serves.load found
  · intro i m v m' hm run
    obtain ⟨found, rfl⟩ := run_lift_ok.mp run
    refine ⟨hm, v, ?_, rfl⟩
    change Q.param i = some v
    rw [param]
    exact serves.param found

theorem Computing.call (layers : j.graph.Layered S rank) (calls : CallSound j P S rank depth) (mem : S f)
    {stage : Stage} {h : FuncId} (reads : (j.graph.func f).Reads stage (.func h)) {p : List Int} {m m' : Memory α}
    {v : α} (hm : Computing P rank f m₀ R C m) (run : j.call depth h p m = .ok (v, m')) :
    Computing P rank f m₀ R C m' ∧ (P.set f C).call h p = some v := by
  by_cases self : h = f
  · subst self
    obtain ⟨s, held, -, -, rfl⟩ := hm.held
    obtain ⟨rfl, found⟩ := call_self held run
    exact ⟨hm, by rwa [Answers.set_self]⟩
  · obtain ⟨inside, less⟩ := layers.below mem reads self
    obtain ⟨answer, faithful, unchanged⟩ := calls h p (rank f) m v m' inside less hm.faithful run
    obtain ⟨s, held, rest⟩ := hm.held
    refine ⟨⟨faithful, hm.others.trans (unchanged.mono fun g above => above.1), ?_, s, ?_, rest⟩, ?_⟩
    · exact ((unchanged f (le_refl _)).2).trans hm.known
    · exact ((unchanged f (le_refl _)).1).trans held
    · rwa [Answers.set_of_ne _ _ self]

theorem Computing.iterate (layers : j.graph.Layered S rank) (serves : P.Serves j S)
    (calls : CallSound j P S rank depth) (mem : S f) {stage : Stage} (listed : (stage, d) ∈ (j.graph.func f).definitions)
    (env : Env α) : (Lifting.sound (Computing P rank f m₀ R C)).rel Eq (Job.iterate (j.reader (j.call depth)) d env)
      (d.iterate? (P.set f C) env) := by
  have related : ∀ e ∈ d.exprs, Expr.Related (Lifting.sound (Computing P rank f m₀ R C)) Eq (j.reader (j.call depth))
      (P.set f C).reader env env e := fun e inside =>
    related_sound serves _ (Q := P.set f C) rfl rfl env fun r read h target p m v m' hm run =>
      Computing.call layers calls mem ⟨d, listed, r, List.mem_flatMap.mpr ⟨e, inside, read⟩, target⟩ hm run
  refine (Lifting.sound _).rel_bind (Expr.evalIndex_related Respected.eq fun a member =>
    related a (List.mem_append_left _ member)) fun p q same => ?_
  refine (Lifting.sound _).rel_bind (Expr.eval_rel Respected.eq (related d.value (by simp [Definition.exprs])))
    fun v w same' => ?_
  exact (Lifting.sound _).rel_pure (by rw [same, same'])

omit [Scalar κ] [Scalar α] [Embed κ α] in
theorem Computing.store {p : List Int} {v : α} {m m' : Memory α} {u : Unit} (hm : Computing P rank f m₀ R C m)
    (run : j.store f p v m = .ok (u, m')) : ∃ C', C.store? p v = some C' ∧ Computing P rank f m₀ R C' m' := by
  obtain ⟨s, held, filled, domain, rfl⟩ := hm.held
  obtain ⟨s', held', filled', domain', stored, known, others⟩ := store_ok run held filled
  have below : ∀ g, rank g < rank f → g ≠ f := by
    rintro g less rfl
    exact lt_irrefl _ less
  refine ⟨s'.get?, stored, ?_, ?_, ?_, s', held', filled', domain'.trans domain, rfl⟩
  · refine ⟨fun less found => ?_, fun less found => ?_⟩
    · rw [others _ (below _ less)] at found
      exact hm.faithful.stored less found
    · unfold Memory.memoized? at found
      rw [known] at found
      exact hm.faithful.known less found
  · refine hm.others.trans fun g above => ⟨others g above.2, ?_⟩
    rw [known]
  · rw [known]
    exact hm.known

theorem Computing.stepwise (layers : j.graph.Layered S rank) (serves : P.Serves j S)
    (calls : CallSound j P S rank depth) (mem : S f) {stage : Stage} (listed : (stage, d) ∈ (j.graph.func f).definitions)
    (reduction : d.rdom.isSome = true) (start : Contents α) {envs : List (Env α)} {m m' : Memory α} {u : Unit}
    (hm : Computing P rank f m₀ R C m)
    (run : j.runStepwise (j.reader (j.call depth)) f d envs m = .ok (u, m')) :
    ∃ C', envs.foldlM (d.step? P f start) C = some C' ∧ Computing P rank f m₀ R C' m' := by
  unfold runStepwise at run
  induction envs generalizing C m with
  | nil =>
    obtain ⟨-, rfl⟩ := run_pure_ok.mp run
    exact ⟨C, rfl, hm⟩
  | cons env envs ih =>
    obtain ⟨_, m₂, first, rest⟩ := run_bind_ok.mp run
    obtain ⟨⟨p, v⟩, m₁, iterated, stored⟩ := run_bind_ok.mp first
    obtain ⟨hm₁, _, found, rfl⟩ := Computing.iterate layers serves calls mem listed env m (p, v) m₁ hm iterated
    obtain ⟨D, replaced, hm₂⟩ := hm₁.store stored
    obtain ⟨C', folded, hm'⟩ := ih hm₂ rest
    refine ⟨C', ?_, hm'⟩
    have step : d.step? P f start C env = some D := by
      unfold Definition.step?
      rw [if_pos reduction, found]
      exact replaced
    rw [List.foldlM_cons, step]
    exact folded

omit [Scalar κ] [Scalar α] [Embed κ α] in
theorem Computing.stores {pending : List (List Int × α)} {m m' : Memory α} {u : Unit}
    (hm : Computing P rank f m₀ R C m)
    (run : (pending.forM fun (p, v) => j.store f p v) m = .ok (u, m')) :
    ∃ C', pending.foldlM (fun A (p, v) => Contents.store? A p v) C = some C' ∧ Computing P rank f m₀ R C' m' := by
  induction pending generalizing C m with
  | nil =>
    obtain ⟨-, rfl⟩ := run_pure_ok.mp run
    exact ⟨C, rfl, hm⟩
  | cons entry pending ih =>
    obtain ⟨_, m₁, first, rest⟩ := run_bind_ok.mp run
    obtain ⟨D, replaced, hm₁⟩ := hm.store first
    obtain ⟨C', folded, hm'⟩ := ih hm₁ rest
    refine ⟨C', ?_, hm'⟩
    exact Option.bind_eq_some_iff.mpr ⟨D, replaced, folded⟩

theorem Computing.atOnce (layers : j.graph.Layered S rank) (serves : P.Serves j S)
    (calls : CallSound j P S rank depth) (mem : S f) {stage : Stage} (listed : (stage, d) ∈ (j.graph.func f).definitions)
    (reduction : d.rdom.isSome ≠ true) {envs : List (Env α)} {m m' : Memory α} {u : Unit}
    (hm : Computing P rank f m₀ R C m) (run : j.runAtOnce (j.reader (j.call depth)) f d envs m = .ok (u, m')) :
    ∃ C', envs.foldlM (d.step? P f C) C = some C' ∧ Computing P rank f m₀ R C' m' := by
  obtain ⟨pending, m₁, first, rest⟩ := run_bind_ok.mp run
  have mapped := run_mapM_ok (Computing P rank f m₀ R C) (fun env e => d.iterate? (P.set f C) env = some e)
    (fun env _ m e m' hm run => by
      obtain ⟨hm', _, found, rfl⟩ := Computing.iterate layers serves calls mem listed env m e m' hm run
      exact ⟨hm', found⟩) hm first
  obtain ⟨hm₁, entries⟩ := mapped
  obtain ⟨C', folded, hm'⟩ := hm₁.stores rest
  refine ⟨C', ?_, hm'⟩
  clear run first rest hm₁ hm' hm
  revert folded
  suffices general : ∀ A, pending.foldlM (fun A (p, v) => Contents.store? A p v) A = some C' →
      envs.foldlM (d.step? P f C) A = some C' from general C
  induction entries with
  | nil => exact fun A folded => folded
  | @cons env entry envs pending found _ ih =>
    intro A folded
    obtain ⟨D, stored, rest⟩ := Option.bind_eq_some_iff.mp folded
    refine Option.bind_eq_some_iff.mpr ⟨D, ?_, ih D rest⟩
    unfold Definition.step?
    rw [if_neg reduction, found]
    exact stored

theorem Computing.updates (layers : j.graph.Layered S rank) (serves : P.Serves j S)
    (calls : CallSound j P S rank depth) (mem : S f) {ds : List (Definition κ)}
    (listed : ∀ d ∈ ds, ∃ stage, (stage, d) ∈ (j.graph.func f).definitions) {m m' : Memory α} {u : Unit}
    (hm : Computing P rank f m₀ R C m)
    (run : (ds.forM (j.runUpdate (j.reader (j.call depth)) f R)) m = .ok (u, m')) :
    ∃ C', ds.foldlM (fun A d => d.run? P f (d.iterations R) A) C = some C' ∧ Computing P rank f m₀ R C' m' := by
  induction ds generalizing C m with
  | nil =>
    obtain ⟨-, rfl⟩ := run_pure_ok.mp run
    exact ⟨C, rfl, hm⟩
  | cons d ds ih =>
    obtain ⟨_, m₁, first, rest⟩ := run_bind_ok.mp run
    obtain ⟨stage, here⟩ := listed d List.mem_cons_self
    have one : ∃ D, d.run? P f (d.iterations R) C = some D ∧ Computing P rank f m₀ R D m₁ := by
      unfold runUpdate at first
      by_cases reduction : d.rdom.isSome = true
      · rw [if_pos reduction] at first
        exact hm.stepwise layers serves calls mem here reduction C first
      · rw [if_neg reduction] at first
        exact hm.atOnce layers serves calls mem here reduction first
    obtain ⟨D, done, hm₁⟩ := one
    obtain ⟨C', folded, hm'⟩ := ih (fun d inside => listed d (List.mem_cons_of_mem _ inside)) hm₁ rest
    exact ⟨C', Option.bind_eq_some_iff.mpr ⟨D, done, folded⟩, hm'⟩

theorem value_sound (layers : j.graph.Layered S rank) (serves : P.Serves j S)
    (calls : CallSound j P S rank depth) (mem : S f) (init : (j.graph.func f).init = some d) (env : Env α) :
    (Lifting.sound fun m => m.Faithful P rank (rank f) ∧ m₀.Unchanged m fun g => rank f ≤ rank g).rel Eq
      (d.value.eval (j.reader (j.call depth)) env) (d.value.value? P env) := by
  refine Expr.eval_rel Respected.eq (related_sound serves _ (Q := P) rfl rfl env ?_)
  rintro r read h target p m v m' ⟨faithful, unchanged⟩ run
  have reads : (j.graph.func f).Reads .initial (.func h) := target ▸ Func.reads_initial init read
  obtain ⟨inside, less⟩ := layers.reads_below mem reads (Or.inr rfl)
  obtain ⟨answer, faithful', unchanged'⟩ := calls h p (rank f) m v m' inside less faithful run
  exact ⟨⟨faithful', unchanged.trans unchanged'⟩, answer⟩

/-- The first part of computing a func: its initial definition everywhere, and some of its updates. -/
def fill (j : Job κ α) (reader : Reader (Run α) α) (f : FuncId) (updates : List (Definition κ)) : Run α Unit := do
  let func := j.graph.func f
  let region := j.regions.of j.graph f
  let some init := func.init | throw (.graph (.undefined func.name))
  let values ← region.points.mapM fun p => init.value.eval reader ⟨coordinates κ func.args p, []⟩
  let data ← region.tensor func.name values
  modify fun m => { m with stored := m.stored.insert f ⟨region, data.values⟩ }
  updates.forM (j.runUpdate reader f region)

theorem materialize_eq_fill (j : Job κ α) (reader : Reader (Run α) α) (f : FuncId) :
    j.materialize reader f = j.fill reader f (j.graph.func f).updates := rfl

theorem fill_append (j : Job κ α) (reader : Reader (Run α) α) (f : FuncId) (ds ds' : List (Definition κ)) :
    j.fill reader f (ds ++ ds') =
      j.fill reader f ds >>= fun _ => ds'.forM (j.runUpdate reader f (j.regions.of j.graph f)) := by
  unfold fill
  dsimp only
  cases (j.graph.func f).init with
  | none => rfl
  | some d => simp [List.forM_append]

/-- What is filled in is what the func holds if it has these updates only. -/
theorem fill_ok (layers : j.graph.Layered S rank) (serves : P.Serves j S)
    (calls : CallSound j P S rank depth) (mem : S f) {ds : List (Definition κ)}
    (listed : ∀ d ∈ ds, d ∈ (j.graph.func f).updates) {m m' : Memory α} {u : Unit}
    (hm : m.Faithful P rank (rank f)) (run : j.fill (j.reader (j.call depth)) f ds m = .ok (u, m')) :
    ∃ C, ({ j.graph.func f with updates := ds } : Func κ).contents? P f (j.regions.of j.graph f) = some C ∧
      Computing P rank f m (j.regions.of j.graph f) C m' := by
  unfold fill at run
  cases init : (j.graph.func f).init with
  | none =>
    simp only [init] at run
    exact absurd run run_throw_ne_ok
  | some d =>
    simp only [init] at run
    obtain ⟨values, m₁, mapped, run⟩ := run_bind_ok.mp run
    obtain ⟨data, _, shaped, run⟩ := run_bind_ok.mp run
    obtain ⟨made, rfl⟩ := run_lift_ok.mp shaped
    obtain ⟨-, rfl⟩ := Domain.tensor_eq_ok.mp made
    obtain ⟨_, m₂, stored, run⟩ := run_bind_ok.mp run
    obtain rfl := run_modify_ok.mp stored
    generalize j.regions.of j.graph f = R at *
    let env (p : List Int) : Env α := ⟨coordinates κ (j.graph.func f).args p, []⟩
    have evaluated := run_mapM_ok (fun m₁ => m₁.Faithful P rank (rank f) ∧ m.Unchanged m₁ fun g => rank f ≤ rank g)
      (fun p v => d.value.value? P (env p) = some v) (fun p _ m₂ v m₃ start run => by
        obtain ⟨kept, _, value, rfl⟩ := value_sound layers serves calls mem init (env p) m₂ v m₃ start run
        exact ⟨kept, value⟩) ⟨hm, Memory.Unchanged.refl _ _⟩ mapped
    obtain ⟨⟨faithful, unchanged⟩, values?⟩ := evaluated
    let A : Contents α := fun p => if p ∈ R.points then d.value.value? P (env p) else none
    have holds : (⟨R, values.toArray⟩ : Storage α).get? = A := funext (Storage.get?_ofList values?)
    have filled : (⟨R, values.toArray⟩ : Storage α).Filled := Storage.filled_ofList values?.length_eq.symm
    have begun : (j.graph.func f).start? P R = some A := by
      refine Func.start?_eq_some.mpr ⟨d, init, fun p inside => ?_, rfl⟩
      rw [← holds]
      exact (Storage.isSome_get? filled p).mpr inside
    have below : ∀ g, rank g < rank f → f ≠ g := by
      rintro g less rfl
      exact lt_irrefl _ less
    have ready : Computing P rank f m R A { m₁ with stored := m₁.stored.insert f ⟨R, values.toArray⟩ } := by
      refine ⟨⟨fun less found => ?_, fun less found => faithful.known less found⟩, fun g above => ?_,
        (unchanged f (le_refl _)).2, _, ?_, filled, rfl, holds⟩
      · rw [Table.get?_insert, if_neg (below _ less)] at found
        exact faithful.stored less found
      · refine ⟨?_, (unchanged g above.1).2⟩
        rw [Table.get?_insert, if_neg (Ne.symm above.2)]
        exact (unchanged g above.1).1
      · rw [Table.get?_insert, if_pos rfl]
    obtain ⟨C, folded, done⟩ := ready.updates layers serves calls mem (fun d inside => by
      obtain ⟨i, listed⟩ := Func.mem_definitions_update (listed d inside)
      exact ⟨.update i, listed⟩) run
    exact ⟨C, Option.bind_eq_some_iff.mpr ⟨A, begun, folded⟩, done⟩

theorem materialize_ok (layers : j.graph.Layered S rank) (serves : P.Serves j S)
    (calls : CallSound j P S rank depth) (mem : S f) {m m' : Memory α} {u : Unit}
    (hm : m.Faithful P rank (rank f)) (run : j.materialize (j.reader (j.call depth)) f m = .ok (u, m')) :
    ∃ C, (j.graph.func f).contents? P f (j.regions.of j.graph f) = some C ∧
      Computing P rank f m (j.regions.of j.graph f) C m' :=
  fill_ok layers serves calls mem (fun _ inside => inside) hm run

theorem prepare_ok (layers : j.graph.Layered S rank) (serves : P.Serves j S)
    (calls : CallSound j P S rank depth) (mem : S f) {k : Nat} (less : rank f < k) {m m' : Memory α} {u : Unit}
    (faithful : m.Faithful P rank k) (run : j.prepare (j.reader (j.call depth)) f m = .ok (u, m')) :
    m'.Faithful P rank k ∧ (m.Unchanged m' fun g => k ≤ rank g) ∧
      ((j.graph.func f).updates ≠ [] → m'.stored.contains f) := by
  unfold prepare at run
  rw [run_get_bind] at run
  split at run
  · obtain ⟨C, computed, done⟩ := materialize_ok layers serves calls mem (faithful.lower less.le) run
    obtain ⟨s, held, -, -, values⟩ := done.held
    refine ⟨⟨fun {g t p v} below stored found => ?_, fun {g p v} below found => ?_⟩, fun g above => ?_, fun _ => ?_⟩
    · by_cases self : g = f
      · subst self
        obtain rfl := Option.some.inj (held.symm.trans stored)
        rw [values] at found
        exact serves.region mem computed found
      · rcases lt_or_ge (rank g) (rank f) with earlier | later
        · exact done.faithful.stored earlier stored found
        · rw [(done.others g ⟨later, self⟩).1] at stored
          exact faithful.stored below stored found
    · unfold Memory.memoized? at found
      by_cases self : g = f
      · subst self
        rw [done.known] at found
        exact faithful.known below found
      · rcases lt_or_ge (rank g) (rank f) with earlier | later
        · exact done.faithful.known earlier found
        · rw [(done.others g ⟨later, self⟩).2] at found
          exact faithful.known below found
    · refine done.others g ⟨(less.le).trans above, ?_⟩
      rintro rfl
      exact absurd less (not_lt_of_ge above)
    · simp [Table.contains, held]
  · rename_i ready
    obtain ⟨-, rfl⟩ := run_pure_ok.mp run
    refine ⟨faithful, Memory.Unchanged.refl _ _, fun updates => ?_⟩
    simpa [updates] using ready

/-- Every call gives the value that the func holds. -/
theorem call_sound (layers : j.graph.Layered S rank) (serves : P.Serves j S) (depth : Nat) :
    CallSound j P S rank depth := by
  induction depth with
  | zero =>
    intro f p k m v m' mem less faithful run
    exact absurd run run_throw_ne_ok
  | succ depth calls =>
    intro f p k m v m' mem less faithful run
    obtain ⟨_, m₁, prepared, run⟩ := run_bind_ok.mp run
    obtain ⟨faithful₁, unchanged₁, ready⟩ := prepare_ok layers serves calls mem less faithful prepared
    suffices now : P.call f p = some v ∧ m'.Faithful P rank k ∧ m₁.Unchanged m' fun g => k ≤ rank g from
      ⟨now.1, now.2.1, unchanged₁.trans now.2.2⟩
    unfold valueAt at run
    rw [run_get_bind] at run
    cases held : m₁.stored.get? f with
    | some s =>
      cases found : s.get? p with
      | none =>
        simp only [held, found] at run
        exact absurd run run_throw_ne_ok
      | some w =>
        simp only [held, found] at run
        obtain ⟨rfl, rfl⟩ := run_pure_ok.mp run
        exact ⟨faithful₁.stored less held found, faithful₁, Memory.Unchanged.refl _ _⟩
    | none =>
      cases known : m₁.memoized? f p with
      | some w =>
        simp only [held, known] at run
        obtain ⟨rfl, rfl⟩ := run_pure_ok.mp run
        exact ⟨faithful₁.known less known, faithful₁, Memory.Unchanged.refl _ _⟩
      | none =>
        obtain ⟨d, init⟩ := Option.isSome_iff_exists.mp (layers.defined mem)
        simp only [held, known, init] at run
        obtain ⟨w, m₂, evaluated, run⟩ := run_bind_ok.mp run
        obtain ⟨_, m₃, remembered, made⟩ := run_bind_ok.mp run
        obtain rfl := run_modify_ok.mp remembered
        obtain ⟨rfl, rfl⟩ := run_pure_ok.mp made
        obtain ⟨⟨faithful₂, unchanged₂⟩, _, value, rfl⟩ :=
          value_sound layers serves calls mem init _ m₁ w m₂ ⟨faithful₁.lower less.le, Memory.Unchanged.refl _ _⟩ evaluated
        have pointwise : (j.graph.func f).updates = [] := by
          by_contra updates
          have stored := ready updates
          simp [Table.contains, held] at stored
        have answer : P.call f p = some w := serves.pointwise mem pointwise init value
        refine ⟨answer, (faithful₂.raise faithful₁ unchanged₂).remember answer, ?_⟩
        have kept : m₁.Unchanged m₂ fun g => k ≤ rank g := unchanged₂.mono fun g above => less.le.trans above
        have below : ¬k ≤ rank f := not_le_of_gt less
        exact kept.trans (Memory.Unchanged.remember (T := fun g => k ≤ rank g) below p w)

end Job

/-- A realization that succeeds has the values that the answers to its calls give, in the order of the points. -/
theorem Graph.realize_serves {κ α : Type} [Extended κ] [Scalar α] [Embed κ α] {g : Graph κ} {f : FuncId}
    {domain : Domain} {b : Bindings α} {t : Tensor α} {P : Answers α} {s : Schedule} (order : g.schedule f = .ok s)
    (serves : ∀ regions, g.inferRegions s f domain = .ok regions → P.Serves (⟨g, b, regions⟩ : Job κ α) (· ∈ s.funcs))
    (run : g.realize f domain b = .ok t) :
    t.shape = domain.shape ∧ List.Forall₂ (fun p v => P.call f p = some v) domain.points t.values.toList := by
  unfold realize at run
  obtain ⟨s', scheduled, run⟩ := bind_eq_ok.mp run
  obtain rfl := Except.ok.inj ((mapError_eq_ok.mp scheduled).symm.trans order)
  obtain ⟨regions, inferred, run⟩ := bind_eq_ok.mp run
  have inferred := mapError_eq_ok.mp inferred
  obtain ⟨⟨values, m⟩, mapped, made⟩ := bind_eq_ok.mp run
  obtain ⟨-, rfl⟩ := Domain.tensor_eq_ok.mp made
  refine ⟨rfl, ?_⟩
  obtain ⟨ordered, mem⟩ := ordered_schedule order
  have layers := ordered.layered
  let job : Job κ α := ⟨g, b, regions⟩
  let rank := s'.funcs.idxOf
  have calls := Job.call_sound (j := job) layers (serves regions inferred) (s'.funcs.length + 1)
  have empty : Memory.Faithful ({} : Memory α) P rank (rank f + 1) := by
    refine ⟨fun {g s p v} _ found => ?_, fun {g p v} _ found => ?_⟩
    · cases found
    · cases found
  exact (run_mapM_ok (fun m => m.Faithful P rank (rank f + 1)) (fun p v => P.call f p = some v)
    (fun p _ m v m' faithful run => by
      obtain ⟨answer, faithful', -⟩ := calls f p _ m v m' mem (Nat.lt_succ_self _) faithful run
      exact ⟨faithful', answer⟩) empty mapped).2

theorem Graph.realize_sound {κ α : Type} [Extended κ] [Scalar α] [Embed κ α] {g : Graph κ} {f : FuncId}
    {domain : Domain} {b : Bindings α} {t : Tensor α} {P : Answers α} {s : Schedule} (order : g.schedule f = .ok s)
    (sound : P.Sound g b (· ∈ s.funcs)) (run : g.realize f domain b = .ok t) :
    t.shape = domain.shape ∧ List.Forall₂ (fun p v => P.call f p = some v) domain.points t.values.toList :=
  realize_serves order (fun regions _ => sound.serves regions) run

end ArrayDiff
