import ArrayDiff.Proofs.Closure
import ArrayDiff.Proofs.Lockstep
import ArrayDiff.Proofs.Preservation
import ArrayDiff.Proofs.Transposition

/-!
# Forward mode is exact

Over numbers, a graph with tangents gives values and changes. Together they are dual numbers, and these are what the
graph gives when it is evaluated over dual numbers (`Graph.Tracking.call_dual`): updates of all kinds included, as long
as they are regular (`Definition.Regular`) and no direction is a func with updates that is differentiated itself. So
both ways to realize an output agree (`Graph.values_dual`).
-/

open ArrayDiff.Expr

namespace ArrayDiff

open TrivSqZeroExt (inl inr)

/-! ### The state that counts -/

theorem Func.truncate_of_last {κ : Type} {func : Func κ} {stage : Stage} (last : func.lastStage.index ≤ stage.index) :
    func.truncate stage = func := by
  rw [truncate_eq]
  suffices (func.truncate stage).updates = func.updates by rw [this]
  unfold lastStage at last
  cases stage with
  | initial =>
    cases updates : func.updates with
    | nil => rfl
    | cons d rest =>
      rw [updates, List.length_cons] at last
      have : (rest.length : Int) ≤ -1 := last
      omega
  | update i =>
    refine List.take_of_length_le ?_
    cases count : func.updates.length with
    | zero => exact Nat.zero_le _
    | succ n =>
      rw [count] at last
      simpa [Stage.last, Stage.index] using last

theorem UpdateKind.truncate_sight {κ : Type} {kind : UpdateKind κ} {func : Func κ} {i : Nat} {sight : Stage}
    (seen : kind.sight? (.update i) = some sight) : (func.truncate sight).updates =
      kind.moment (func.updates.take i) (func.updates.take (i + 1)) := by
  cases kind with
  | scan _ _ =>
    obtain rfl := Option.some.inj seen
    rfl
  | overwrite | inPlace =>
    cases i <;> obtain rfl := Option.some.inj seen <;> rfl

section Runs

variable {κ α : Type} [Scalar κ] [Scalar α] [Embed κ α] {P : Answers α} {f : FuncId} {func : Func κ} {R : Domain}
  {A X Y : Contents α} {i : Nat} {d : Definition κ} {kind : UpdateKind κ} {sight : Stage}

/-- The stage that is seen by the derivative of an update is the one with the values that count. -/
theorem Func.contents?_sight (seen : kind.sight? (.update i) = some sight) (begun : func.start? P R = some A)
    (before : (func.updates.take i).foldlM (fun A d => d.run? P f (d.iterations R) A) A = some X)
    (after : (func.updates.take (i + 1)).foldlM (fun A d => d.run? P f (d.iterations R) A) A = some Y) :
    (func.truncate sight).contents? P f R = some (kind.moment X Y) := by
  rw [truncate_eq]
  refine Option.bind_eq_some_iff.mpr ⟨A, begun, ?_⟩
  dsimp only
  rw [UpdateKind.truncate_sight seen]
  cases kind with
  | scan _ _ => exact after
  | overwrite | inPlace => exact before

end Runs

variable {K : Type} [Field K] [LinearOrder K] [FloorRing K] [Transcendental K]

/-! ### What does not move -/

section Still

variable {ρ : Valuation K} {changes : Target → List Int → K} {f : FuncId} {d : Definition (Exact K)} {R : Domain}
  {A B : Contents (DualNumber K)}

theorem Definition.still_run? (still : ∀ r ∈ d.value.reads, ∀ q, changes r.target q = 0)
    (before : ∀ q v, A q = some v → v.snd = 0)
    (run : d.run? (ρ.dual changes).answers f (d.iterations R) A = some B) : ∀ q v, B q = some v → v.snd = 0 := by
  rw [run?_dual] at run
  refine foldlM_some_invariant (fun X => ∀ q v, X q = some v → v.snd = 0) run before fun env _ X Y now step => ?_
  obtain ⟨p, w, -, value, stored⟩ := step?_eq_some.mp step
  generalize same : (if d.rdom.isSome then X else A) = seen at value
  have own : ∀ q v, seen q = some v → v.snd = 0 := by
    rw [← same]
    split
    · exact now
    · exact before
  have zero : w.snd = 0 := by
    refine derivative?_eq_zero (fun r mem q v known => ?_)
      (derivative?_of_dual (Valuation.extendedBy_dual_set f seen (ρ.call f)) value)
    by_cases self : r.target = .func f
    · rw [self, Answers.change_set_self] at known
      obtain ⟨w, held, rfl⟩ := Option.map_eq_some_iff.mp known
      exact own q w held
    · rw [Answers.change_set_of_ne _ _ self] at known
      exact (Valuation.change_dual known).symm.trans (still r mem q)
  obtain ⟨-, rfl⟩ := Contents.store?_eq_some.mp stored
  intro q v held
  by_cases here : q = p
  · rw [here, Function.update_self] at held
    obtain rfl := Option.some.inj held
    exact zero
  · rw [Function.update_of_ne here] at held
    exact now q v held

theorem Func.still_contents? {func : Func (Exact K)}
    (still : ∀ stage d, (stage, d) ∈ func.definitions → ∀ r ∈ d.value.reads, ∀ q, changes r.target q = 0)
    (run : func.contents? (ρ.dual changes).answers f R = some A) : ∀ q v, A q = some v → v.snd = 0 := by
  obtain ⟨B, begun, run⟩ := Option.bind_eq_some_iff.mp run
  refine foldlM_some_invariant (fun A => ∀ q v, A q = some v → v.snd = 0) run ?_ fun d mem X Y before run => ?_
  · obtain ⟨d, init, -, rfl⟩ := start?_eq_some.mp begun
    intro q v held
    obtain ⟨-, value⟩ := Option.ite_none_right_eq_some.mp held
    rw [coordinates_dual] at value
    have lifted : d.value.value? (ρ.dual changes).answers (Env.lift ⟨coordinates (Exact K) func.args q, []⟩) = some v :=
      value
    have ext : (ρ.dual changes).answers.primal.ExtendedBy ρ := by
      rw [Valuation.primal_dual]
      exact ρ.extendedBy_answers
    exact derivative?_eq_zero (fun r mem q v known => (Valuation.change_dual known).symm.trans
      (still .initial d (mem_definitions_init init) r mem q)) (derivative?_of_dual ext lifted)
  · obtain ⟨i, listed⟩ := mem_definitions_update mem
    exact Definition.still_run? (still _ d listed) before run

end Still

/-! ### Graphs with tangents -/

theorem Definition.Regular.of_reads {d : Definition (Exact K)} {ρ : Valuation K} {f : FuncId} {T T' : Target → Prop}
    (regular : d.Regular ρ f T) (known : ∀ r ∈ d.reads, T' r.target) : d.Regular ρ f T' where
  names := regular.names
  arity := regular.arity
  neat e mem := (regular.neat e mem).of_reads fun r read => known r (List.mem_flatMap.mpr ⟨e, mem, read⟩)
  logical := regular.logical
  summand := regular.summand

namespace Graph

/-- The scheduled funcs are made of numbers, reads and their own variables, operands of logic are truth values, and
updates are regular. -/
structure Regular (g : Graph (Exact K)) (s : Schedule) (ρ : Valuation K) : Prop where
  neat {f : FuncId} {d : Definition (Exact K)} : f ∈ s.funcs → (g.func f).init = some d →
    d.value.Neat (g.func f).args [] fun _ => True
  logical {f : FuncId} {d : Definition (Exact K)} : f ∈ s.funcs → (g.func f).init = some d →
    ∀ env, d.value.Logical ρ env
  update {f : FuncId} {d : Definition (Exact K)} : f ∈ s.funcs → d ∈ (g.func f).updates → d.Regular ρ f fun _ => True

/-- Values `ρ` of everything that there is in a graph with tangents. Directions are old funcs, and none of them is a func
with updates that gets a tangent itself. -/
structure Tracking (g : Graph (Exact K)) (s : Schedule) (seeds : Table Target FuncId) (output : FuncId)
    (t : Tangents (Exact K)) (ρ : Valuation K) : Prop where
  follows : g.Follows s seeds output t
  copies : g.MarksCopies t.graph
  ordered : s.Ordered g
  regular : g.Regular s ρ
  writes {f : FuncId} : f ∈ s.funcs → g.WritesFit f
  known {u : Target} {i : FuncId} : seeds.get? u = some i → i.index < g.size
  single {u : Target} {i : FuncId} : seeds.get? u = some i → i ∈ s.funcs → (g.func i).updates = []
  settles {k : FuncId} : k ∈ s.funcs ∨ g.size ≤ k.index → ρ.Settles k (t.graph.func k)

namespace Tracking

variable {g : Graph (Exact K)} {s : Schedule} {seeds : Table Target FuncId} {output f id copy : FuncId}
  {t : Tangents (Exact K)} {ρ : Valuation K} {R : Domain} {A : Contents (DualNumber K)} {stage : Stage}

theorem index_lt (h : g.Tracking s seeds output t ρ) (mem : f ∈ s.funcs) : f.index < g.size :=
  index_lt_of_init (h.ordered.defined f mem)

theorem func (h : g.Tracking s seeds output t ρ) (mem : f ∈ s.funcs) : t.graph.func f = g.func f :=
  h.follows.grows.func (h.index_lt mem)

/-- What stands for a func after a stage has the values that the func has then. -/
theorem call_eq (h : g.Tracking s seeds output t ρ) (mem : f ∈ s.funcs) (stands : g.StandsFor t.graph f stage copy)
    {B : Contents K} (run : ((g.func f).truncate stage).contents? ρ.answers f R = some B) {q : List Int} {v : K}
    (held : B q = some v) : ρ.call copy q = v := by
  rcases stands with ⟨rfl, last⟩ | ⟨new, marked⟩
  · rw [Func.truncate_of_last last, ← h.func mem] at run
    exact h.settles (Or.inl mem) q v ⟨R, B, run, held⟩
  · obtain ⟨scheduled, copies⟩ := h.copies copy f stage new marked
    rw [← h.func mem] at run
    refine h.settles (Or.inr new) q v ⟨R, B, copies.contents? ?_ (fun stage reads => ?_) run, held⟩
    · rw [h.func mem]
      exact h.ordered.layered.initial mem
    · exact scheduled.not_reaches h.follows.grows new (.read .root reads)

theorem abreast (h : g.Tracking s seeds output t ρ) (mem : f ∈ s.funcs) (active : t.active.get? (.func f) = some id)
    (follows : Tangents.Follows g t.graph t.active f id) : Tangents.Abreast t.active f id s.Lists where
  own := active
  other := by
    rintro rfl
    exact absurd (h.index_lt mem) (Nat.not_lt.mpr follows.new)
  only {u} found := by
    cases seeded : seeds.get? u with
    | some i =>
      obtain rfl := Option.some.inj (found.symm.trans (h.follows.seeded seeded))
      exact absurd (h.known seeded) (Nat.not_lt.mpr follows.new)
    | none =>
      obtain ⟨k, -, rfl, other⟩ := h.follows.follows found seeded
      exact (Origin.tangent.inj (follows.origin.symm.trans other.origin)).symm
  unread listed := absurd (h.index_lt listed) (Nat.not_lt.mpr follows.new)

theorem call_set (h : g.Tracking s seeds output t ρ) (mem : f ∈ s.funcs) (updates : (g.func f).updates ≠ [])
    {u : Target} {i : FuncId} (active : t.active.get? u = some i) (C : List Int → K) :
    (ρ.set f C).call i = ρ.call i := by
  refine ρ.set_of_ne C ?_
  rintro rfl
  cases seeded : seeds.get? u with
  | some k =>
    obtain rfl := Option.some.inj (active.symm.trans (h.follows.seeded seeded))
    exact updates (h.single seeded mem)
  | none =>
    obtain ⟨_, -, -, follows⟩ := h.follows.follows active seeded
    exact absurd (h.index_lt mem) (Nat.not_lt.mpr follows.new)

theorem copy_ne (h : g.Tracking s seeds output t ρ) (mem : f ∈ s.funcs)
    (follows : Tangents.Follows g t.graph t.active f id) (stands : g.StandsFor t.graph f stage copy) : copy ≠ id := by
  rintro rfl
  rcases stands with ⟨rfl, -⟩ | ⟨-, marked⟩
  · exact absurd (h.index_lt mem) (Nat.not_lt.mpr follows.new)
  · cases marked.symm.trans follows.origin

section

variable [IsStrictOrderedRing K]

theorem update (h : g.Tracking s seeds output t ρ) (mem : f ∈ s.funcs) (active : t.active.get? (.func f) = some id)
    (follows : Tangents.Follows g t.graph t.active f id) (dims : R.dims = (g.func f).dims) {i : Nat}
    {d d' : Definition (Exact K)} (at' : (g.func f).updates[i]? = some d)
    (update : Tangents.Follows.Update g t.graph t.active f (.update i) d d') {B X Y : Contents (DualNumber K)}
    (begun : (g.func f).start? (ρ.dual (Tangents.motion t.active ρ)).answers R = some B)
    (before : ((g.func f).updates.take i).foldlM
      (fun A d => d.run? (ρ.dual (Tangents.motion t.active ρ)).answers f (d.iterations R) A) B = some X)
    (run : d.run? (ρ.dual (Tangents.motion t.active ρ)).answers f (d.iterations R) X = some Y) :
    d'.run? ρ.answers id (d'.iterations R) X.change = some Y.change := by
  obtain ⟨kind, sight, kinded, seen, value⟩ := update.value
  have listed : d ∈ (g.func f).updates := List.mem_of_getElem? at'
  have primal {l : List (Definition (Exact K))} {X Y : Contents (DualNumber K)}
      (run : l.foldlM
        (fun A d => d.run? (ρ.dual (Tangents.motion t.active ρ)).answers f (d.iterations R) A) X = some Y) :
      l.foldlM (fun A d => d.run? ρ.answers f (d.iterations R) A) X.primal = some Y.primal := by
    have same : (ρ.dual (Tangents.motion t.active ρ)).answers.primal = ρ.answers := Valuation.primal_dual
    rw [← same]
    exact Definition.foldlM_run?_primal run
  have begun := Func.start?_primal begun
  rw [Valuation.primal_dual] at begun
  have now : ((g.func f).updates.take (i + 1)).foldlM (fun A d => d.run? ρ.answers f (d.iterations R) A) B.primal =
      some Y.primal := by
    refine primal ?_
    rw [List.take_add_one, at', List.foldlM_append]
    exact Option.bind_eq_some_iff.mpr ⟨X, before, Option.bind_eq_some_iff.mpr ⟨Y, run, rfl⟩⟩
  have moment := Func.contents?_sight seen begun (primal before) now
  obtain ⟨C, stands, held⟩ : ∃ C, Tangents.Abreast.Stands ρ f id C (Tangents.along t.active d.value) d'.value ∧
      ∀ q v, kind.moment X.primal Y.primal q = some v → C q = v := by
    rcases value with ⟨unread, same⟩ | ⟨copy, stands, same⟩
    · exact ⟨fun q => (kind.moment X.primal Y.primal q).getD 0, Or.inl ⟨unread, same⟩,
        fun q v held => by simp [held]⟩
    · exact ⟨ρ.call copy, Or.inr ⟨copy, h.copy_ne mem follows stands, rfl, same⟩,
        fun q v => h.call_eq mem stands moment⟩
  have regular : d.Regular ρ f s.Lists := by
    refine (h.regular.update mem listed).of_reads fun r read => ?_
    obtain ⟨stage, own⟩ := Func.mem_definitions_update listed
    exact h.ordered.lists mem ⟨d, own, r, read, rfl⟩
  exact (h.abreast mem active follows).run? (fun u i found _ => h.call_set mem (List.ne_nil_of_mem listed) found C)
    regular ((h.writes mem d listed).trans dims.symm) kinded update.lhs update.rdom stands held run

theorem contents? (h : g.Tracking s seeds output t ρ) (mem : f ∈ s.funcs) (active : t.active.get? (.func f) = some id)
    (unseeded : seeds.get? (.func f) = none) (dims : (g.func f).updates ≠ [] → R.dims = (g.func f).dims)
    (run : (g.func f).contents? (ρ.dual (Tangents.motion t.active ρ)).answers f R = some A) :
    (t.graph.func id).contents? ρ.answers id R = some A.change := by
  obtain ⟨_, -, same, follows⟩ := h.follows.follows active unseeded
  obtain rfl := Target.func.inj same
  have abreast := h.abreast mem active follows
  obtain ⟨B, begun, run⟩ := Option.bind_eq_some_iff.mp run
  obtain ⟨d, init⟩ := Option.isSome_iff_exists.mp (h.ordered.defined f mem)
  refine Option.bind_eq_some_iff.mpr ⟨B.change, ?_, ?_⟩
  · refine abreast.start? init (fun r read self => ?_) ?_ (h.regular.logical mem init) follows.args
      (follows.init init) begun
    · exact h.ordered.layered.initial mem (self ▸ Func.reads_initial init read)
    · exact (h.regular.neat mem init).of_reads fun r read => h.ordered.lists mem (Func.reads_initial init read)
  -- both funcs have as many updates, so that their runs are one run through the pairs
  have firsts : ((g.func f).updates.zip (t.graph.func id).updates).map Prod.fst = (g.func f).updates :=
    List.map_fst_zip follows.length.ge
  have seconds : ((g.func f).updates.zip (t.graph.func id).updates).map Prod.snd = (t.graph.func id).updates :=
    List.map_snd_zip follows.length.le
  generalize (g.func f).updates.zip (t.graph.func id).updates = pairs at firsts seconds
  have run' := run
  rw [← firsts, List.foldlM_map] at run
  rw [← seconds, List.foldlM_map]
  refine foldlM_project Contents.change (fun done pair rest X Y split before now after => ?_) run
  have at' : (g.func f).updates[done.length]? = some pair.1 := by
    rw [← firsts, split]
    simp
  obtain ⟨d', own, update⟩ := follows.update at'
  have same : (t.graph.func id).updates[done.length]? = some pair.2 := by
    rw [← seconds, split]
    simp
  obtain rfl := Option.some.inj (own.symm.trans same)
  refine h.update mem active follows (dims ?_) at' update begun ?_ now
  · exact List.ne_nil_of_mem (List.mem_of_getElem? at')
  · rw [← firsts, split, List.map_append, ← List.length_map (f := Prod.fst), List.take_left, List.foldlM_map]
    exact before

/-- What a func holds over dual numbers are its values and those of its tangent. -/
theorem call_dual (h : g.Tracking s seeds output t ρ) (mem : f ∈ s.funcs) (unseeded : seeds.get? (.func f) = none)
    (dims : (g.func f).updates ≠ [] → R.dims = (g.func f).dims)
    (run : (g.func f).contents? (ρ.dual (Tangents.motion t.active ρ)).answers f R = some A) {p : List Int}
    {v : DualNumber K} (held : A p = some v) : (ρ.dual (Tangents.motion t.active ρ)).call f p = v := by
  have primal := Func.contents?_primal run
  rw [Valuation.primal_dual, ← h.func mem] at primal
  have first : ρ.call f p = v.fst :=
    h.settles (Or.inl mem) p v.fst ⟨R, A.primal, primal, by rw [Contents.primal, held]; rfl⟩
  have second : Tangents.motion t.active ρ (.func f) p = v.snd := by
    unfold Tangents.motion
    cases active : t.active.get? (.func f) with
    | some id =>
      have change := h.contents? mem active unseeded dims run
      obtain ⟨_, -, -, follows⟩ := h.follows.follows active unseeded
      exact h.settles (Or.inr follows.new) p v.snd ⟨R, A.change, change, by rw [Contents.change, held]; rfl⟩
    | none =>
      refine (Func.still_contents? (fun stage d listed r read q => ?_) run p v held).symm
      unfold Tangents.motion
      rw [h.follows.still mem active stage d listed r read]
      rfl
  exact TrivSqZeroExt.ext ((Valuation.fst_dual f p).trans first) ((Valuation.snd_dual f p).trans second)

end

theorem motion_leaf (h : g.Tracking s seeds output t ρ) {u : Target} (leaf : ∀ f, u ≠ .func f) :
    Tangents.motion t.active ρ u = Tangents.motion seeds ρ u := by
  have same : t.active.get? u = seeds.get? u := by
    cases seeded : seeds.get? u with
    | some i => exact h.follows.seeded seeded
    | none =>
      cases active : t.active.get? u with
      | none => rfl
      | some i =>
        obtain ⟨f, -, self, -⟩ := h.follows.follows active seeded
        exact absurd self (leaf f)
  unfold Tangents.motion
  rw [same]

theorem call_output (h : g.Tracking s seeds output t ρ) (p : List Int) :
    ρ.call t.output p = Tangents.motion t.active ρ (.func output) p := by
  unfold Tangents.motion
  rcases h.follows.output with active | ⟨active, new, name, func⟩
  · rw [active]
    rfl
  · rw [active]
    refine h.settles (Or.inr new) p 0 (Func.holds_of_value? (by rw [func]; rfl) (by rw [func]; rfl) ?_)
    refine (value?_answers (fun x node => ?_) fun x node => ?_).trans
      (congrArg some (Represents.zero (Q := fun _ => True)).value)
    all_goals simp [Expr.zero, nodes] at node

variable [IsStrictOrderedRing K] in
/-- The values and their changes answer for the funcs over dual numbers. -/
theorem serves (h : g.Tracking s seeds output t ρ) (leaves : ∀ f, seeds.get? (.func f) = none)
    {b : Bindings (DualNumber K)} {regions : Regions} (shaped : regions.Shaped g)
    (load : ∀ i p v, b.load? g i p = some v → (ρ.dual (Tangents.motion seeds ρ)).load i p = v)
    (param : ∀ i v, b.param g i = .ok v → (ρ.dual (Tangents.motion seeds ρ)).param i = v) :
    (ρ.dual (Tangents.motion t.active ρ)).answers.Serves ⟨g, b, regions⟩ (· ∈ s.funcs) where
  load {i p v} found := by
    change some (inl (ρ.load i p) + inr (Tangents.motion t.active ρ (.buffer i) p)) = some v
    rw [h.motion_leaf fun _ => Target.noConfusion]
    exact congrArg some (load i p v found)
  param {i v} found := by
    change some (inl (ρ.param i) + inr (Tangents.motion t.active ρ (.param i) [])) = some v
    rw [h.motion_leaf fun _ => Target.noConfusion]
    exact congrArg some (param i v found)
  region {f C p v} mem run held :=
    congrArg some (h.call_dual mem (leaves f) (fun _ => shaped.dims_of f) run held)
  pointwise {f d p v} mem updates init value := by
    obtain ⟨R, A, run, held⟩ := Func.holds_of_value? (f := f) updates init value
    exact congrArg some (h.call_dual mem (leaves f) (fun some => absurd updates some) run held)

end Tracking

variable [IsStrictOrderedRing K] in
theorem settles_values {g g' : Graph (Exact K)} {s : Schedule} {output : FuncId} {b : Bindings K} (grows : g.GrowsTo g')
    (lawful : g'.LawfulBeyond g) (order : g.schedule output = .ok s) {k : FuncId}
    (known : k ∈ s.funcs ∨ g.size ≤ k.index) : (g'.values b).Settles k (g'.func k) := by
  by_cases inside : k.index < g'.size
  · have scheduled : g'.Scheduled k := by
      rcases known with mem | new
      · exact ⟨output, s, (grows.schedule (contains_of_schedule order)).trans order, mem⟩
      · obtain ⟨s', order'⟩ := lawful.schedules new inside
        exact scheduled_of_schedule order'
    obtain ⟨rank, -, layers, -⟩ := g'.sorted_scheduled
    exact meaning_settles layers scheduled fun d mem => ((lawful.func k).update mem).distinctFree
  · rintro p v ⟨R, A, run, -⟩
    rw [func_of_unknown inside] at run
    cases run

/-- How everything changes that is moved along directions. -/
def changes (g : Graph (Exact K)) (directions : List (Name × FuncId)) (ρ : Valuation K) (u : Target) (p : List Int) : K :=
  (g.directionOf directions u).elim 0 fun f => ρ.call f p

variable [IsStrictOrderedRing K] in
/-- Where the output and its tangent are both realized, the one over dual numbers and the other over numbers, the tangent
is the coefficient of `ε`. Bound data moves along the directions. -/
theorem values_dual {g : Graph (Exact K)} {output : FuncId} {directions : List (Name × FuncId)} {s : Schedule}
    {t : Tangents (Exact K)} {D : Domain} {b : Bindings K} {b' : Bindings (DualNumber K)} {T : Tensor K}
    {T' : Tensor (DualNumber K)} (wellFormed : g.WellFormed) (scheduled : ∀ e ∈ directions, g.Scheduled e.2)
    (order : g.schedule output = .ok s) (made : g.tangents output directions = .ok t)
    (regular : g.Regular s (t.graph.values b)) (leaves : ∀ f, g.directionOf directions (.func f) = none)
    (single : ∀ u f, g.directionOf directions u = some f → f ∈ s.funcs → (g.func f).updates = [])
    (dims : D.dims = (g.func output).dims)
    (load : ∀ i p v, b'.load? g i p = some v →
      ((t.graph.values b).dual (g.changes directions (t.graph.values b))).load i p = v)
    (param : ∀ i v, b'.param g i = .ok v →
      ((t.graph.values b).dual (g.changes directions (t.graph.values b))).param i = v)
    (tangent : t.graph.realize t.output D b = .ok T) (dual : g.realize output D b' = .ok T') :
    T.values.toList = T'.values.toList.map TrivSqZeroExt.snd := by
  obtain ⟨seeds, named, -⟩ := bind_eq_ok.mp made
  have table := get?_directions named
  have motion : g.changes directions (t.graph.values b) = Tangents.motion (.ofList seeds) (t.graph.values b) := by
    funext u p
    unfold changes Tangents.motion
    rw [table]
  rw [motion] at load param
  have ordered := (ordered_schedule order).1
  have lawful := tangents_lawful wellFormed scheduled made
  have writes {f : FuncId} : g.WritesFit f := fun d mem => ((wellFormed.func f).update mem).length
  have reads {f : FuncId} : g.ReadsFit f := fun stage d listed r read => ((wellFormed.func f).reads listed r read).1
  have follows := follows_of_tangents order named made
  have known {u : Target} {f : FuncId} (found : (Table.ofList seeds).get? u = some f) : f.index < g.size := by
    rw [table] at found
    obtain ⟨e, first, rfl⟩ := Option.map_eq_some_iff.mp found
    exact (scheduled e (List.mem_reverse.mp (List.mem_of_find?_eq_some first))).index_lt
  have tracking : g.Tracking s (.ofList seeds) output t (t.graph.values b) :=
    ⟨follows, (copies_of_tangents made).2, ordered, regular, fun _ => writes, known,
      fun {u f} found => single u f (table u ▸ found), settles_values follows.grows lawful order⟩
  obtain ⟨_, order', -⟩ := bind_eq_ok.mp tangent
  have values := values_realize (mapError_eq_ok.mp order')
    (fun f _ d mem => ((lawful.func f).update mem).distinctFree) tangent
  have duals := (realize_serves order (fun regions inferred => tracking.serves (fun f => (table _).trans (leaves f))
    (requested_of_inferRegions ordered dims (fun _ _ => reads) (fun _ _ => writes) inferred).1 load param) dual).2
  rw [values, eq_map_of_forall₂ (duals.imp fun p v held => Option.some.inj held), List.map_map]
  exact List.map_congr_left fun p _ => (tracking.call_output p).trans (Valuation.snd_dual output p).symm

end Graph

/-! ### Running sums -/

namespace scanning

def data : Bindings ℚ := (Bindings.bind {} ⟨0⟩ ⟨[3], #[3, 5, 7]⟩).setParam ⟨0⟩ 2

/-- The data, moved along `direction`. -/
def moving : Bindings (DualNumber ℚ) :=
  (Bindings.bind {} ⟨0⟩ ⟨[3], #[⟨3, 1⟩, ⟨5, 2⟩, ⟨7, 3⟩]⟩).setParam ⟨0⟩ ⟨2, 0⟩

theorem load_moving : ∀ p ∈ (⟨[⟨0, 2⟩]⟩ : Domain).points, moving.load? scanning ⟨0⟩ p =
    (data.load? scanning ⟨0⟩ p).map fun x => inl x + inr ((p.headD 0 : Int) + 1 : ℚ) := by decide +kernel

theorem directionOf (u : Target) :
    scanning.directionOf [("data", ⟨1⟩)] u = if u = .buffer ⟨0⟩ then some ⟨1⟩ else none := by
  have found : scanning.lookup? "data" = some (.buffer ⟨0⟩) := by decide +kernel
  by_cases here : u = .buffer ⟨0⟩
  · simp [Graph.directionOf, found, here]
  · simp [Graph.directionOf, found, here, Ne.symm here]

theorem regular {s : Schedule} (alone : s.funcs = [⟨0⟩]) (ρ : Valuation ℚ) : scanning.Regular s ρ := by
  have init (ρ : Valuation ℚ) (env : Env ℚ) : (Expr.load ⟨0⟩ [.var "x"] : Expr (Exact ℚ)).Plain ρ env
      (Atom.Among ["x"] [] (fun _ => True) False) := by
    simp [Atom.Among]
  have update (ρ : Valuation ℚ) (env : Env ℚ) {d : Definition (Exact ℚ)} (mem : d ∈ (scanning.func ⟨0⟩).updates) :
      ∀ e ∈ d.exprs, e.Plain ρ env (Atom.Among d.pureVars (namesOf d.rdom) (fun _ => True) False) := by
    obtain rfl := List.mem_singleton.mp mem
    have one : (Exact.number (1 : ℚ)).isNumber = true := rfl
    simp [Definition.exprs, Atom.Among, namesOf, ReductionDomain.names, Expr.one, one]
  refine ⟨fun mem found => ?_, fun mem found env => ?_, fun mem listed => ?_⟩
  all_goals rw [alone] at mem; obtain rfl := List.mem_singleton.mp mem
  · obtain rfl := Option.some.inj found
    exact (init ρ {}).neat
  · obtain rfl := Option.some.inj found
    exact (init ρ env).logical
  · refine ⟨?_, ?_, fun e mem => (update ρ {} listed e mem).neat,
      fun A env e mem => (update _ env listed e mem).logical, fun _ _ => ?_⟩
    all_goals obtain rfl := List.mem_singleton.mp listed
    · decide
    · decide
    · exact .add .self (.apart (by simp [nodes, nodesList, Expr.one]))

/-- The tangent of the running sums is their coefficient of `ε`. -/
theorem values_dual : ∃ t : Tangents (Exact ℚ), scanning.tangents ⟨0⟩ [("data", ⟨1⟩)] = .ok t ∧
    t.graph.realize t.output ⟨[⟨0, 2⟩]⟩ data = .ok ⟨[3], #[1, 4, 11]⟩ ∧
    scanning.realize ⟨0⟩ ⟨[⟨0, 2⟩]⟩ moving = .ok ⟨[3], #[⟨3, 1⟩, ⟨11, 4⟩, ⟨29, 11⟩]⟩ ∧
    ([1, 4, 11] : List ℚ) = [(⟨3, 1⟩ : DualNumber ℚ), ⟨11, 4⟩, ⟨29, 11⟩].map TrivSqZeroExt.snd := by
  have realized : (scanning.tangents ⟨0⟩ [("data", ⟨1⟩)]).toOption.map (fun t =>
      (t.graph.realize t.output ⟨[⟨0, 2⟩]⟩ data, t.graph.realize ⟨1⟩ ⟨[⟨0, 2⟩]⟩ data)) =
      some (.ok ⟨[3], #[1, 4, 11]⟩, .ok ⟨[3], #[1, 2, 3]⟩) := by decide +kernel
  obtain ⟨t, found, realized⟩ := Option.map_eq_some_iff.mp realized
  obtain ⟨tangent, direction⟩ := Prod.mk.inj realized
  have made := toOption_eq_some.mp found
  have dual : scanning.realize ⟨0⟩ ⟨[⟨0, 2⟩]⟩ moving = .ok ⟨[3], #[⟨3, 1⟩, ⟨11, 4⟩, ⟨29, 11⟩]⟩ := by decide +kernel
  have order : scanning.schedule ⟨0⟩ = .ok ⟨[⟨0⟩], [(⟨0⟩, .initial), (⟨0⟩, .update 0)], [⟨0⟩], [⟨0⟩]⟩ := by
    decide +kernel
  have scheduled : ∀ e ∈ [("data", (⟨1⟩ : FuncId))], scanning.Scheduled e.2 :=
    List.forall_mem_singleton.mpr
      (Graph.scheduled_of_schedule (s := ⟨[⟨1⟩], [(⟨1⟩, .initial)], [], []⟩) (by decide +kernel))
  have grows : scanning.GrowsTo t.graph := (Graph.copies_of_tangents made).1
  obtain ⟨_, order', -⟩ := bind_eq_ok.mp direction
  have change : ∀ p ∈ (⟨[⟨0, 2⟩]⟩ : Domain).points, (t.graph.values data).call ⟨1⟩ p = (p.headD 0 : Int) + 1 := by
    have lawful := Graph.tangents_lawful wellFormed scheduled made
    have held := Graph.values_realize (mapError_eq_ok.mp order')
      (fun f _ d mem => ((lawful.func f).update mem).distinctFree) direction
    have points : (⟨[⟨0, 2⟩]⟩ : Domain).points = [[0], [1], [2]] := rfl
    rw [points] at held ⊢
    simp only [List.map_cons, List.map_nil, List.cons.injEq, and_true] at held
    obtain ⟨zero, one, two⟩ := held
    simp only [List.forall_mem_cons, List.headD_cons, ← zero, ← one, ← two]
    norm_num
  refine ⟨t, made, tangent, dual, Graph.values_dual wellFormed scheduled order made (regular rfl _)
    (fun f => (directionOf _).trans (if_neg nofun)) (fun u f named _ => ?_) rfl (fun i p v found => ?_)
    (fun i v found => ?_) tangent dual⟩
  · rw [directionOf] at named
    obtain ⟨-, same⟩ := Option.ite_none_right_eq_some.mp named
    obtain rfl := Option.some.inj same
    rfl
  · have own : i = ⟨0⟩ := by
      by_contra other
      have absent : moving.tensors.get? i = none := (Table.get?_insert ..).trans (if_neg (Ne.symm other))
      rw [Bindings.load?, Bindings.tensor, absent] at found
      cases found
    subst own
    have inside : p ∈ (⟨[⟨0, 2⟩]⟩ : Domain).points :=
      Bindings.mem_points_of_load? (Option.isSome_iff_exists.mpr ⟨v, found⟩)
    obtain ⟨x, known, rfl⟩ := Option.map_eq_some_iff.mp ((load_moving p inside).symm.trans found)
    have held : (t.graph.values data).load ⟨0⟩ p = x := Graph.values_load ((grows.load? ⟨0⟩ p).trans known)
    simp [Valuation.dual, Graph.changes, directionOf, held, change p inside]
  · have own : i = ⟨0⟩ := by
      by_contra other
      have absent : moving.params.get? i = none := (Table.get?_insert ..).trans (if_neg (Ne.symm other))
      rw [Bindings.param, absent] at found
      cases found
    subst own
    obtain rfl := Except.ok.inj found
    have held : (t.graph.values data).param ⟨0⟩ = 2 := Graph.values_param (by rw [Bindings.param, grows.param]; rfl)
    simp [Valuation.dual, Graph.changes, directionOf, held]
    rfl

end scanning

end ArrayDiff
