import ArrayDiff.Proofs.Allocation
import ArrayDiff.Proofs.Classification
import ArrayDiff.Proofs.Number
import ArrayDiff.Proofs.Transposition

/-!
# What both modes accept

The backward sweep and the tangents each check that a cumulative update is additive, in places of their own. The sweep
refuses such an update for exactly the reason for which the tangents do (`Sweep.refuses_process_iff`), and it meets
every stage that the output reaches. So whatever can be differentiated backwards can be differentiated forwards, along
any directions that fit their targets (`Graph.tangents_of_adjoints`).
-/

namespace ArrayDiff

variable {κ A B : Type}

/-! ### Refusals -/

/-- The computation fails because a func uses its own values in a way that cannot be differentiated. -/
def Refuses (r : Except DiffError A) : Prop := ∃ name stage obstacle, r = .error (.unsupported name stage obstacle)

theorem not_refuses_ok (a : A) : ¬Refuses (.ok a : Except DiffError A) := by
  rintro ⟨name, stage, obstacle, failed⟩
  cases failed

theorem refuses_unsupported (name : Name) (stage : Stage) (obstacle : Obstacle) :
    Refuses (.error (.unsupported name stage obstacle) : Except DiffError A) :=
  ⟨name, stage, obstacle, rfl⟩

theorem refuses_bind_of_ok {c : Except DiffError A} {k : A → Except DiffError B} {a : A} (first : c = .ok a) :
    Refuses (c >>= k) ↔ Refuses (k a) := by
  rw [first]
  rfl

theorem Stage.exists_prev? {stage : Stage} (later : stage ≠ .initial) : ∃ prior, stage.prev? = some prior := by
  rcases stage with - | _ | i
  · exact absurd rfl later
  · exact ⟨_, rfl⟩
  · exact ⟨_, rfl⟩

variable [Extended κ]

namespace Sweep

variable {x y : Sweep κ} {g : Graph κ} {f : FuncId} {d : Definition κ} {stage prior : Stage} {t : Step κ}
  {read : List (Expr κ)} {accumulates : Bool}

/-- What is sent to others can come out of order, but is never refused. -/
theorem not_refuses_contributeReads (ps : List (Partial κ)) (adjoint : Expr κ) (copy : FuncId) :
    ¬Refuses (x.contributeReads f d ps adjoint copy) := by
  rintro ⟨name, stage, obstacle, failed⟩
  obtain ⟨p, -, y, -, step⟩ := exists_of_foldlM_error failed (fun _ => True) trivial fun _ _ _ _ _ _ => trivial
  split at step
  · cases step
  rcases bind_eq_error.mp step with keyed | ⟨key, -, sent⟩
  · generalize p.read.target = target at keyed
    cases target with
    | func h =>
      rcases bind_eq_error.mp keyed with late | ⟨-, -, made⟩
      · unfold Progress.accept at late
        split at late <;> cases late
      · cases made
    | buffer b => cases keyed
    | param p => cases keyed
  · cases sent

/-! ### One update -/

theorem isAdditive_inPlace : UpdateKind.inPlace.isAdditive t.func t.definition = true ↔
    t.selfPartials.all (·.slope.simplify.isOne) = true ∧
      ¬(t.partials.any fun p => p.read.target ≠ .func t.func && p.slope.readsTarget (.func t.func)) = true := by
  simp only [UpdateKind.isAdditive, Step.selfPartials, Step.partials, List.all_eq_true, List.any_eq_true,
    List.mem_filter, decide_eq_true_eq, Bool.and_eq_true, not_exists, not_and, Bool.not_eq_true]
  constructor
  · intro each
    refine ⟨fun p ⟨mem, self⟩ => ?_, fun p mem other => ?_⟩
    · have one := each p mem
      rwa [if_pos self] at one
    · have free := each p mem
      rwa [if_neg other, Bool.not_eq_true'] at free
  · rintro ⟨ones, free⟩ p mem
    split
    · rename_i self
      exact ones p ⟨mem, self⟩
    · rename_i other
      rw [Bool.not_eq_true']
      exact free p mem other

theorem refuses_accumulate_iff :
    Refuses (x.accumulate t) ↔ UpdateKind.inPlace.isAdditive t.func t.definition = false := by
  rw [← Bool.not_eq_true, isAdditive_inPlace]
  unfold accumulate
  dsimp only
  split
  · rename_i ones
    rw [Bool.not_eq_true'] at ones
    exact iff_of_true (refuses_unsupported _ _ _) fun additive => absurd (ones.symm.trans additive.1) Bool.false_ne_true
  rename_i ones
  rw [Bool.not_eq_true', Bool.not_eq_false] at ones
  split
  · rename_i reading
    exact iff_of_true (refuses_unsupported _ _ _) fun additive => additive.2 reading
  · rename_i free
    exact iff_of_false (not_refuses_contributeReads _ _ _) fun refused => refused ⟨ones, free⟩

theorem isAdditive_scan : (UpdateKind.scan read accumulates).isAdditive t.func t.definition = true ↔
    ∀ p ∈ t.selfPartials, Expr.sameList p.read.args read = true ∨ p.slope.simplify.isOne = true := by
  simp only [UpdateKind.isAdditive, Step.selfPartials, Step.partials, List.all_eq_true, List.mem_filter,
    Bool.or_eq_true, decide_eq_true_eq]
  constructor
  · rintro each p ⟨mem, self⟩
    rcases each p mem with (other | same) | one
    · exact absurd self other
    · exact Or.inl same
    · exact Or.inr one
  · intro each p mem
    by_cases self : p.read.target = .func t.func
    · exact (each p ⟨mem, self⟩).elim (fun same => Or.inl (Or.inr same)) Or.inr
    · exact Or.inl (Or.inl self)

/-- The slope of a scan is found when every other read of the func enters with slope 1, and otherwise is refused. -/
theorem scanSlope_cases (after : FuncId) :
    (UpdateKind.scan read accumulates).isAdditive t.func t.definition = true ∧
        (∃ slope, x.scanSlope t read after = .ok slope) ∨
      (UpdateKind.scan read accumulates).isAdditive t.func t.definition = false ∧
        Refuses (x.scanSlope t read after) := by
  rw [← Bool.not_eq_true, isAdditive_scan]
  unfold scanSlope
  cases run : (t.selfPartials.foldlM _ _ : Except DiffError (Expr κ)) with
  | ok slope =>
    refine Or.inl ⟨?_, slope, rfl⟩
    refine foldlM_invariant run
      (fun done _ => ∀ p ∈ done, Expr.sameList p.read.args read = true ∨ p.slope.simplify.isOne = true) (by simp) ?_
    rintro done p rest s s' - before step
    refine List.forall_mem_append.mpr ⟨before, List.forall_mem_singleton.mpr ?_⟩
    split at step
    · rename_i same
      exact Or.inl same
    split at step
    · rename_i one
      exact Or.inr one
    · cases step
  | error e =>
    obtain ⟨p, mem, s, -, step⟩ := exists_of_foldlM_error run (fun _ => True) trivial fun _ _ _ _ _ _ => trivial
    split at step
    · cases step
    rename_i other
    split at step
    · cases step
    rename_i slope
    obtain rfl := Except.error.inj step
    exact Or.inr ⟨fun each => (each p mem).elim other slope, refuses_unsupported _ _ _⟩

theorem refuses_scan_iff (reduced : t.definition.rdom.isSome) :
    Refuses (x.scan t read accumulates) ↔
      (UpdateKind.scan read accumulates).isAdditive t.func t.definition = false := by
  obtain ⟨rdom, listed⟩ := Option.isSome_iff_exists.mp reduced
  unfold scan
  dsimp only
  rw [listed]
  dsimp only
  generalize x.snapshot t.func t.stage = snap
  obtain ⟨after, x'⟩ := snap
  have cases : _ ∧ (∃ slope, x'.scanSlope t read after = .ok slope) ∨
      (UpdateKind.scan read accumulates).isAdditive t.func t.definition = false ∧ _ := scanSlope_cases after
  rcases cases with ⟨additive, slope, found⟩ | ⟨additive, refused⟩
  · rw [refuses_bind_of_ok found, additive]
    exact iff_of_false (not_refuses_contributeReads _ _ _) Bool.true_eq_false_eq_False
  · obtain ⟨name, stage, obstacle, failed⟩ := refused
    rw [additive, failed]
    exact iff_of_true (refuses_unsupported name stage obstacle) rfl

/-- What is done with an update, by its kind. -/
def update (x : Sweep κ) (t : Step κ) : UpdateKind κ → Except DiffError (Sweep κ)
  | .overwrite => x.overwrite t
  | .inPlace => x.accumulate t
  | .scan read accumulates => x.scan t read accumulates

theorem process_update {progress : Progress} (turn : x.progress.begin x.source f stage = .ok progress)
    (own : (x.source.func f).definition? stage = some d) (later : stage.prev? = some prior) :
    ∃ y : Sweep κ, ∃ adjoint, y.source = x.source ∧
      x.process f stage = (x.source.classify f stage d >>= y.update ⟨f, stage, prior, d, adjoint⟩) := by
  have kept : ({ x with progress }.settle ⟨.func f, stage⟩).2.source = x.source := rfl
  unfold process
  simp only [turn, bind, Except.bind]
  generalize { x with progress }.settle ⟨.func f, stage⟩ = result at kept ⊢
  obtain ⟨slot, y⟩ := result
  refine ⟨y, slot.bounded, kept, ?_⟩
  dsimp only at kept ⊢
  rw [kept, own]
  dsimp only
  rw [later]
  dsimp only
  cases x.source.classify f stage d with
  | error e => rfl
  | ok kind => cases kind <;> rfl

/-- The sweep refuses a cumulative update whose turn it is exactly when old values do not enter with slope 1. -/
theorem refuses_process_iff {kind : UpdateKind κ}
    (turn : (x.progress.phase f).next? (x.source.func f).lastStage = some stage)
    (own : (x.source.func f).definition? stage = some d) (later : stage.prev? = some prior)
    (kinded : x.source.classify f stage d = .ok kind) (cumulative : kind ≠ .overwrite) :
    Refuses (x.process f stage) ↔ kind.isAdditive f d = false := by
  have begun : ∃ progress, x.progress.begin x.source f stage = .ok progress := ⟨_, if_pos turn⟩
  obtain ⟨progress, begun⟩ := begun
  obtain ⟨y, adjoint, -, run⟩ := process_update begun own later
  rw [run, refuses_bind_of_ok kinded]
  cases kind with
  | overwrite => exact absurd rfl cumulative
  | inPlace => exact refuses_accumulate_iff
  | scan read accumulates =>
    obtain ⟨-, -, ⟨-, none⟩ | ⟨rdom, reduced, -⟩⟩ := kindFor_cases (mapError_eq_ok.mp kinded)
    · cases none
    exact refuses_scan_iff (Option.isSome_iff_exists.mpr ⟨rdom, reduced⟩)

end Sweep

/-! ### Tangents -/

namespace Tangents

variable {x y : Sweep κ} {g : Graph κ} {f id : FuncId} {s : State κ} {d : Definition κ} {kind : UpdateKind κ}
  {stage : Stage} {e : DiffError}

theorem valueStage?_update (later : stage ≠ .initial) (kinded : g.classify f stage d = .ok kind) :
    kind.isAdditive f d = true ∧ (∃ at', valueStage? g f stage d = .ok at') ∨
      kind.isAdditive f d = false ∧
        valueStage? g f stage d = .error (.unsupported (g.func f).name stage .notAdditive) := by
  unfold valueStage?
  rw [if_neg later, kinded]
  cases additive : kind.isAdditive f d with
  | false =>
    refine Or.inr ⟨rfl, ?_⟩
    simp [bind, Except.bind, additive, throw, throwThe, MonadExceptOf.throw]
  | true =>
    refine Or.inl ⟨rfl, ?_⟩
    cases kind <;> exact ⟨_, by simp [bind, Except.bind, additive, pure, Except.pure]; rfl⟩

/-- The tangent of a definition is made as soon as it is known which values stand in it. -/
theorem addDefinition_eq_error :
    addDefinition g f id s stage d = .error e ↔ valueStage? g f stage d = .error e := by
  refine ⟨fun failed => ?_, fun failed => bind_eq_error.mpr (Or.inl failed)⟩
  rcases bind_eq_error.mp failed with none | ⟨at', -, made⟩
  · exact none
  · cases made

theorem addDefinition_eq_ok {s' : State κ} (run : addDefinition g f id s stage d = .ok s') :
    (∃ at', valueStage? g f stage d = .ok at') ∧ s'.active = s.active := by
  obtain ⟨at', staged, made⟩ := bind_eq_ok.mp run
  obtain rfl := pure_eq_ok.mp made
  exact ⟨⟨at', staged⟩, rfl⟩

theorem addDefinition_isOk (staged : ∃ at', valueStage? g f stage d = .ok at') (s : State κ) :
    ∃ s', addDefinition g f id s stage d = .ok s' := by
  obtain ⟨at', staged⟩ := staged
  exact ⟨_, bind_eq_ok.mpr ⟨at', staged, rfl⟩⟩

/-- What the sweep has processed does not stop the tangents. -/
theorem valueStage?_of_process (source : x.source = g) (own : (g.func f).definition? stage = some d)
    (run : x.process f stage = .ok y) : ∃ at', valueStage? g f stage d = .ok at' := by
  subst source
  by_cases later : stage = .initial
  · exact ⟨none, if_pos later⟩
  obtain ⟨prior, before⟩ := Stage.exists_prev? later
  obtain ⟨progress, begun, -⟩ := bind_eq_ok.mp run
  have turn : (x.progress.phase f).next? (x.source.func f).lastStage = some stage := by
    unfold Progress.begin at begun
    split at begun
    · assumption
    · cases begun
  obtain ⟨z, adjoint, -, same⟩ := Sweep.process_update begun own before
  obtain ⟨kind, kinded, -⟩ := bind_eq_ok.mp (same.symm.trans run)
  rcases valueStage?_update later kinded with ⟨-, staged⟩ | ⟨refused, -⟩
  · exact staged
  · have cumulative : kind ≠ .overwrite := by
      rintro rfl
      cases refused
    have refuses := (Sweep.refuses_process_iff turn own before kinded cumulative).mpr refused
    rw [run] at refuses
    exact absurd refuses (not_refuses_ok y)

theorem addFunc_isOk
    (staged : ∀ stage d, (stage, d) ∈ (g.func f).definitions → ∃ at', valueStage? g f stage d = .ok at') (s : State κ) :
    ∃ s', addFunc g s f = .ok s' := by
  unfold addFunc
  dsimp only
  split
  · exact ⟨s, rfl⟩
  · exact foldlM_isOk (fun e mem s => addDefinition_isOk (staged e.1 e.2 mem) s) _

/-- Where a func starts to move it is known for all its definitions which values stand in their derivatives. -/
theorem addFunc_eq_ok {s' : State κ} (run : addFunc g s f = .ok s') :
    s' = s ∨ (∃ id, s'.active = s.active.insert (.func f) id) ∧
      ∀ stage d, (stage, d) ∈ (g.func f).definitions → ∃ at', valueStage? g f stage d = .ok at' := by
  unfold addFunc at run
  dsimp only at run
  split at run
  · exact Or.inl (pure_eq_ok.mp run).symm
  · refine Or.inr ?_
    obtain ⟨active, staged⟩ := foldlM_invariant run
      (fun done x => x.active = s.active.insert (.func f) _ ∧ ∀ e ∈ done, ∃ at', valueStage? g f e.1 e.2 = .ok at')
      ⟨rfl, by simp⟩ fun done e rest x y _ before step => by
        obtain ⟨staged, kept⟩ := addDefinition_eq_ok step
        exact ⟨kept.trans before.1, List.forall_mem_append.mpr ⟨before.2, List.forall_mem_singleton.mpr staged⟩⟩
    exact ⟨⟨_, active⟩, fun stage d mem => staged (stage, d) mem⟩

theorem addFunc_eq_error (run : addFunc g s f = .error e) :
    ∃ stage d, (stage, d) ∈ (g.func f).definitions ∧ valueStage? g f stage d = .error e := by
  unfold addFunc at run
  dsimp only at run
  split at run
  · cases run
  · obtain ⟨⟨stage, d⟩, mem, x, -, failed⟩ :=
      exists_of_foldlM_error run (fun _ => True) trivial fun _ _ _ _ _ _ => trivial
    exact ⟨stage, d, mem, addDefinition_eq_error.mp failed⟩

/-- What moves in the end but not from the start has started to move. -/
theorem staged_of_active {funcs : List FuncId} {s' : State κ} (run : funcs.foldlM (addFunc g) s = .ok s')
    (moves : s'.active.contains (.func f)) (still : s.active.contains (.func f) = false)
    (own : (g.func f).definition? stage = some d) : ∃ at', valueStage? g f stage d = .ok at' := by
  have each := foldlM_preserves run (fun x => x.active.contains (.func f) → s.active.contains (.func f) ∨
    ∀ stage d, (stage, d) ∈ (g.func f).definitions → ∃ at', valueStage? g f stage d = .ok at') Or.inl ?_
  · rcases each moves with seeded | staged
    · rw [still] at seeded
      cases seeded
    · exact staged stage d (Func.mem_definitions.mpr own)
  intro h mem x y before step moves
  rcases addFunc_eq_ok step with rfl | ⟨⟨id, active⟩, staged⟩
  · exact before moves
  · by_cases same : h = f
    · exact Or.inr (same ▸ staged)
    · have apart : ¬(Target.func h = .func f) := fun equal => same (Target.func.inj equal)
      rw [active, Table.contains_insert, decide_eq_false apart, Bool.false_or] at moves
      exact before moves

theorem valueStage?_eq_error (failed : valueStage? g f stage d = .error e) :
    stage ≠ .initial ∧ ∃ obstacle, e = .unsupported (g.func f).name stage obstacle := by
  have later : stage ≠ .initial := by
    rintro rfl
    cases failed
  refine ⟨later, ?_⟩
  cases kinded : g.classify f stage d with
  | ok kind =>
    rcases valueStage?_update later kinded with ⟨-, at', staged⟩ | ⟨-, refused⟩
    · cases staged.symm.trans failed
    · exact ⟨_, Except.error.inj (failed.symm.trans refused)⟩
  | error e' =>
    unfold valueStage? at failed
    rw [if_neg later, kinded] at failed
    obtain ⟨obstacle, -, rfl⟩ := mapError_eq_error.mp kinded
    exact ⟨obstacle, (Except.error.inj failed).symm⟩

/-- An update that stops forward mode is refused by the sweep when its turn comes. -/
theorem refuses_of_valueStage? (own : (g.func f).definition? stage = some d)
    (failed : valueStage? g f stage d = .error e) (source : x.source = g)
    (turn : (x.progress.phase f).next? (g.func f).lastStage = some stage) : Refuses (x.process f stage) := by
  subst source
  obtain ⟨later, -⟩ := valueStage?_eq_error failed
  obtain ⟨prior, before⟩ := Stage.exists_prev? later
  cases kinded : x.source.classify f stage d with
  | ok kind =>
    rcases valueStage?_update later kinded with ⟨-, at', staged⟩ | ⟨refused, -⟩
    · cases staged.symm.trans failed
    · refine (Sweep.refuses_process_iff turn own before kinded ?_).mpr refused
      rintro rfl
      cases refused
  | error e' =>
    obtain ⟨y, adjoint, -, run⟩ := Sweep.process_update (if_pos turn) own before
    obtain ⟨obstacle, -, rfl⟩ := mapError_eq_error.mp kinded
    rw [run, kinded]
    exact refuses_unsupported _ _ _

end Tangents

namespace Graph

variable {g : Graph κ} {output : FuncId}

/-- A sweep that succeeds has processed every definition of every func that the output reaches. -/
theorem staged_of_adjoints {seed : Seed κ} {a : Adjoints κ} (run : g.adjoints output seed = .ok a) :
    ∃ s, g.schedule output = .ok s ∧ ∀ f ∈ s.funcs, ∀ stage d, (stage, d) ∈ (g.func f).definitions →
      ∃ at', Tangents.valueStage? g f stage d = .ok at' := by
  obtain ⟨s, regions, resolved, x, order, processed, -⟩ := adjoints_eq_ok run
  refine ⟨s, order, fun f mem stage d listed => ?_⟩
  have each := foldlM_invariant processed
    (fun done x => x.source = g ∧ ∀ e ∈ done, ∀ d, (g.func e.1).definition? e.2 = some d →
      ∃ at', Tangents.valueStage? g e.1 e.2 d = .ok at') ⟨rfl, by simp⟩ ?_
  · refine each.2 (f, stage) (List.mem_reverse.mpr ?_) d (Func.mem_definitions.mp listed)
    rw [(ordered_schedule order).1.stages]
    exact List.mem_flatMap.mpr ⟨f, mem, List.mem_map.mpr ⟨(stage, d), listed, rfl⟩⟩
  rintro done ⟨f, stage⟩ rest x y - ⟨source, before⟩ step
  obtain ⟨progress, steps⟩ := Sweep.process_steps step
  refine ⟨steps.leads.source.trans source, List.forall_mem_append.mpr ⟨before, List.forall_mem_singleton.mpr ?_⟩⟩
  exact fun d own => Tangents.valueStage?_of_process source own step

omit [Extended κ] in
theorem direction_isOk {name : Name} {seed : FuncId} {target : Target} (named : g.lookup? name = some target)
    (rank : (g.func seed).dims = g.dimsOf target) : g.direction name seed = .ok (target, seed) := by
  unfold direction
  rw [named]
  simp [checkRank, rank, Except.mapError, pure, Except.pure, bind, Except.bind]

omit [Extended κ] in
theorem directions_isOk {directions : List (Name × FuncId)} (fit : ∀ e ∈ directions, ∃ target,
    g.lookup? e.1 = some target ∧ (g.func e.2).dims = g.dimsOf target) :
    ∃ seeds, directions.mapM (fun e => g.direction e.1 e.2) = .ok seeds :=
  mapM_isOk fun e mem => by
    obtain ⟨target, named, rank⟩ := fit e mem
    exact ⟨_, direction_isOk named rank⟩

/-- Along directions that fit, tangents are made unless some func cannot be followed. -/
theorem tangents_cases {directions : List (Name × FuncId)} {seeds : List (Target × FuncId)} {s : Schedule}
    (seeded : directions.mapM (fun e => g.direction e.1 e.2) = .ok seeds) (order : g.schedule output = .ok s) :
    (∃ x t, s.funcs.foldlM (Tangents.addFunc g) ⟨{ graph := g }, .ofList seeds⟩ = .ok x ∧
      g.tangents output directions = .ok t ∧ t.active = x.active) ∨
    ∃ e, s.funcs.foldlM (Tangents.addFunc g) ⟨{ graph := g }, .ofList seeds⟩ = .error e ∧
      g.tangents output directions = .error e := by
  unfold tangents
  rw [seeded, order]
  simp only [bind, Except.bind, Except.mapError]
  cases s.funcs.foldlM (Tangents.addFunc g) ⟨{ graph := g }, .ofList seeds⟩ with
  | error e => exact Or.inr ⟨e, rfl, rfl⟩
  | ok x =>
    refine Or.inl ⟨x, ?_⟩
    dsimp only
    split <;> exact ⟨_, rfl, rfl, rfl⟩

/-- A cumulative update that is next is refused by one mode if and only if the other mode refuses it. -/
theorem addDefinition_refuses_iff {f id : FuncId} {i : Nat} {d : Definition κ} {kind : UpdateKind κ} {x : Sweep κ}
    {s : Tangents.State κ} (own : (g.func f).definition? (.update i) = some d)
    (kinded : g.classify f (.update i) d = .ok kind) (cumulative : kind ≠ .overwrite) (source : x.source = g)
    (turn : (x.progress.phase f).next? (g.func f).lastStage = some (.update i)) :
    Tangents.addDefinition g f id s (.update i) d = .error (.unsupported (g.func f).name (.update i) .notAdditive) ↔
      Refuses (x.process f (.update i)) := by
  subst source
  obtain ⟨prior, before⟩ := Stage.exists_prev? (nofun : Stage.update i ≠ .initial)
  rw [Tangents.addDefinition_eq_error, Sweep.refuses_process_iff turn own before kinded cumulative]
  rcases Tangents.valueStage?_update (g := x.source) Stage.noConfusion kinded with
    ⟨additive, at', staged⟩ | ⟨refused, failed⟩
  · rw [staged, additive]
    exact iff_of_false (fun clash => by cases clash) Bool.true_eq_false_eq_False
  · exact iff_of_true failed refused

/-- Tangents along directions that fit fail at an update only, one that reverse mode refuses. -/
theorem refuses_of_tangents_error {directions : List (Name × FuncId)} {seeds : List (Target × FuncId)} {s : Schedule}
    {e : DiffError} (seeded : directions.mapM (fun e => g.direction e.1 e.2) = .ok seeds)
    (order : g.schedule output = .ok s) (failed : g.tangents output directions = .error e) :
    ∃ f ∈ s.funcs, ∃ i d, (g.func f).definition? (.update i) = some d ∧
      (∃ obstacle, e = .unsupported (g.func f).name (.update i) obstacle) ∧
      ∀ x : Sweep κ, x.source = g → (x.progress.phase f).next? (g.func f).lastStage = some (.update i) →
        Refuses (x.process f (.update i)) := by
  rcases tangents_cases seeded order with ⟨-, t, -, made, -⟩ | ⟨e', stopped, failed'⟩
  · cases made.symm.trans failed
  obtain rfl := Except.error.inj (failed.symm.trans failed')
  obtain ⟨f, mem, y, -, stopped⟩ := exists_of_foldlM_error stopped (fun _ => True) trivial fun _ _ _ _ _ _ => trivial
  obtain ⟨stage, d, listed, unknown⟩ := Tangents.addFunc_eq_error stopped
  obtain ⟨later, obstacle, refused⟩ := Tangents.valueStage?_eq_error unknown
  have own := Func.mem_definitions.mp listed
  cases stage with
  | initial => exact absurd rfl later
  | update i =>
    exact ⟨f, mem, i, d, own, ⟨obstacle, refused⟩, fun x => Tangents.refuses_of_valueStage? own unknown⟩

/-- What moves in the end, other than a func with a direction, has no cumulative update that reverse mode refuses. -/
theorem not_refuses_of_tangents {directions : List (Name × FuncId)} {seeds : List (Target × FuncId)} {s : Schedule}
    {t : Tangents κ} {f : FuncId} {i : Nat} {d : Definition κ} {kind : UpdateKind κ} {x : Sweep κ}
    (seeded : directions.mapM (fun e => g.direction e.1 e.2) = .ok seeds) (order : g.schedule output = .ok s)
    (made : g.tangents output directions = .ok t) (moves : t.active.contains (.func f))
    (unseeded : ∀ e ∈ directions, g.lookup? e.1 ≠ some (.func f)) (own : (g.func f).definition? (.update i) = some d)
    (kinded : g.classify f (.update i) d = .ok kind) (cumulative : kind ≠ .overwrite) (source : x.source = g)
    (turn : (x.progress.phase f).next? (g.func f).lastStage = some (.update i)) :
    ¬Refuses (x.process f (.update i)) := by
  rcases tangents_cases seeded order with ⟨y, t', followed, made', active⟩ | ⟨e, -, failed⟩
  swap
  · cases made.symm.trans failed
  obtain rfl := Except.ok.inj (made.symm.trans made')
  rw [active] at moves
  have still : (Table.ofList seeds).contains (.func f) = false := by
    unfold Table.contains
    rw [get?_directions seeded, directionOf, List.find?_eq_none.mpr fun e mem same => ?_]
    · rfl
    · exact unseeded e (List.mem_reverse.mp mem) (of_decide_eq_true same)
  obtain ⟨at', staged⟩ := Tangents.staged_of_active followed moves still own
  intro refused
  have failed : Tangents.addDefinition g f f y (.update i) d = .error _ :=
    (addDefinition_refuses_iff own kinded cumulative source turn).mpr refused
  rw [Tangents.addDefinition_eq_error, staged] at failed
  cases failed

/-- Forward mode accepts what reverse mode accepts, along all directions that fit; and a cumulative update that is to
be processed next is refused by one mode exactly when it is refused by the other. A whole run along such directions
stops at an update that reverse mode refuses, and it leaves no such update in a func that has started to move. -/
theorem tangents_of_adjoints (g : Graph κ) (output : FuncId) :
    (∀ seed a, g.adjoints output seed = .ok a → ∀ directions : List (Name × FuncId),
        (∀ e ∈ directions, ∃ target, g.lookup? e.1 = some target ∧ (g.func e.2).dims = g.dimsOf target) →
          ∃ t, g.tangents output directions = .ok t) ∧
      (∀ f i d kind, (g.func f).definition? (.update i) = some d → g.classify f (.update i) d = .ok kind →
        kind ≠ .overwrite → ∀ x : Sweep κ, x.source = g →
          (x.progress.phase f).next? (g.func f).lastStage = some (.update i) → ∀ id s,
            Tangents.addDefinition g f id s (.update i) d =
                .error (.unsupported (g.func f).name (.update i) .notAdditive) ↔
              Refuses (x.process f (.update i))) ∧
      ∀ s, g.schedule output = .ok s → ∀ directions : List (Name × FuncId),
        (∀ e ∈ directions, ∃ target, g.lookup? e.1 = some target ∧ (g.func e.2).dims = g.dimsOf target) →
          (∀ e, g.tangents output directions = .error e → ∃ f ∈ s.funcs, ∃ i d,
            (g.func f).definition? (.update i) = some d ∧
            (∃ obstacle, e = .unsupported (g.func f).name (.update i) obstacle) ∧
            ∀ x : Sweep κ, x.source = g → (x.progress.phase f).next? (g.func f).lastStage = some (.update i) →
              Refuses (x.process f (.update i))) ∧
          ∀ t, g.tangents output directions = .ok t → ∀ f, t.active.contains (.func f) →
            (∀ e ∈ directions, g.lookup? e.1 ≠ some (.func f)) → ∀ i d kind,
            (g.func f).definition? (.update i) = some d → g.classify f (.update i) d = .ok kind → kind ≠ .overwrite →
            ∀ x : Sweep κ, x.source = g → (x.progress.phase f).next? (g.func f).lastStage = some (.update i) →
              ¬Refuses (x.process f (.update i)) := by
  refine ⟨fun seed a run directions fit => ?_, fun f i d kind own kinded cumulative x source turn id s =>
    addDefinition_refuses_iff own kinded cumulative source turn, fun s order directions fit => ?_⟩
  · obtain ⟨schedule, order, staged⟩ := staged_of_adjoints run
    obtain ⟨seeds, seeded⟩ := directions_isOk fit
    rcases tangents_cases seeded order with ⟨-, t, -, made, -⟩ | ⟨e, failed, -⟩
    · exact ⟨t, made⟩
    · obtain ⟨s, added⟩ := foldlM_isOk (f := Tangents.addFunc g) (l := schedule.funcs)
        (fun f mem s => Tangents.addFunc_isOk (staged f mem) s) ⟨{ graph := g }, .ofList seeds⟩
      cases added.symm.trans failed
  · obtain ⟨seeds, seeded⟩ := directions_isOk fit
    exact ⟨fun e failed => refuses_of_tangents_error seeded order failed,
      fun t made f moves unseeded i d kind own kinded cumulative x source turn =>
        not_refuses_of_tangents seeded order made moves unseeded own kinded cumulative source turn⟩

end Graph

/-! ### An example -/

/-- `total` adds up the elements of `data` and `product` multiplies them; they are weighed by `weights`. -/
def folding : Graph (Exact ℚ) where
  funcs := #[
    { name := "total", args := [], init := some ⟨[], .zero, none⟩,
      updates := [⟨[], .binary .add (.call ⟨0⟩ []) (.load ⟨0⟩ [.rvar "r"]), some ⟨[("r", ⟨0, 2⟩)]⟩⟩] },
    { name := "product", args := [], init := some ⟨[], .one, none⟩,
      updates := [⟨[], .binary .mul (.call ⟨1⟩ []) (.load ⟨0⟩ [.rvar "r"]), some ⟨[("r", ⟨0, 2⟩)]⟩⟩] },
    { name := "weights", args := ["x"], init := some ⟨[.var "x"], .var "x", none⟩ }]
  buffers := #[⟨"data", .ofShape [3]⟩]

namespace folding

/-- The sum is differentiated both ways; the product is refused both ways. -/
theorem accepted : (∃ a, folding.adjoints ⟨0⟩ .unit = .ok a) ∧ (∃ t, folding.tangents ⟨0⟩ [("data", ⟨2⟩)] = .ok t) ∧
    ∃ d, (folding.func ⟨1⟩).definition? (.update 0) = some d ∧
      Refuses ((Sweep.start folding {}).process ⟨1⟩ (.update 0)) ∧
      Tangents.addDefinition folding ⟨1⟩ ⟨3⟩ ⟨{ graph := folding }, {}⟩ (.update 0) d =
        .error (.unsupported "product" (.update 0) .notAdditive) := by
  have reverse : (folding.adjoints ⟨0⟩ .unit).toOption.isSome = true := by decide +kernel
  obtain ⟨a, made⟩ := Option.isSome_iff_exists.mp reverse
  obtain ⟨forward, refused, -⟩ := Graph.tangents_of_adjoints folding ⟨0⟩
  refine ⟨⟨a, toOption_eq_some.mp made⟩, forward _ a (toOption_eq_some.mp made) _ ?_, _, rfl, ?_⟩
  · exact List.forall_mem_singleton.mpr ⟨.buffer ⟨0⟩, by decide +kernel, rfl⟩
  have kinded : folding.classify ⟨1⟩ (.update 0)
      ⟨[], .binary .mul (.call ⟨1⟩ []) (.load ⟨0⟩ [.rvar "r"]), some ⟨[("r", ⟨0, 2⟩)]⟩⟩ = .ok .inPlace := rfl
  have same := refused ⟨1⟩ 0 _ _ rfl kinded nofun (Sweep.start folding {}) rfl rfl ⟨3⟩ ⟨{ graph := folding }, {}⟩
  have failed : Tangents.addDefinition folding ⟨1⟩ ⟨3⟩ ⟨{ graph := folding }, {}⟩ (.update 0)
      ⟨[], .binary .mul (.call ⟨1⟩ []) (.load ⟨0⟩ [.rvar "r"]), some ⟨[("r", ⟨0, 2⟩)]⟩⟩ =
        .error (.unsupported "product" (.update 0) .notAdditive) := by
    rcases Tangents.valueStage?_update Stage.noConfusion kinded with ⟨additive, -⟩ | ⟨-, failed⟩
    · exact absurd additive (by decide +kernel)
    · exact Tangents.addDefinition_eq_error.mpr failed
  exact ⟨same.mp failed, failed⟩

end folding

end ArrayDiff
