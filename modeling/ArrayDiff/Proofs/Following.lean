import ArrayDiff.Proofs.Agreement
import ArrayDiff.Proofs.Copying

/-!
# What tangents are made of

Forward mode gives every func that reads something that moves a tangent with as many updates (`Tangents.Follows`). Each
update of the tangent writes where the one of the func does. Its value is the derivative along the tangents of what is
read, in which values of the func itself are those after a stage that depends on the kind of the update
(`Graph.Follows`). Which funcs do not move is known as well.
-/

namespace ArrayDiff

variable {κ : Type}

/-! ### Funcs after a stage -/

/-- What stands in `g'` for a func of `g` as it is after `stage`: the func itself if that is its last stage, and otherwise
a func that is marked as such a copy. -/
def Graph.StandsFor (g g' : Graph κ) (f : FuncId) (stage : Stage) (copy : FuncId) : Prop :=
  copy = f ∧ (g.func f).lastStage.index ≤ stage.index ∨
    g.size ≤ copy.index ∧ (g'.func copy).origin = .primal f stage

/-- The copies that are shared are marked as what they are. -/
def Extension.Stored (x : Extension κ) (g : Graph κ) : Prop :=
  ∀ f stage copy, x.snapshots.get? (f, stage) = some copy →
    g.size ≤ copy.index ∧ (x.graph.func copy).origin = .primal f stage

section Extensions

variable {g g' g'' : Graph κ} {x : Extension κ} {f id copy : FuncId} {stage : Stage}

theorem Graph.StandsFor.grow (h : g.StandsFor g' f stage copy) (grows : g'.GrowsTo g'') :
    g.StandsFor g'' f stage copy := by
  refine h.imp_right fun ⟨new, marked⟩ => ⟨new, ?_⟩
  rw [grows.func (index_lt_of_origin (marked.trans_ne Origin.noConfusion)), marked]

theorem Graph.StandsFor.modify (h : g.StandsFor g' f stage copy) {change : Func κ → Func κ}
    (kept : ∀ func, (change func).origin = func.origin) : g.StandsFor (g'.modifyFunc id change) f stage copy :=
  h.imp_right fun ⟨new, marked⟩ => ⟨new, (origin_modifyFunc kept g' id copy).trans marked⟩

namespace Extension.Stored

theorem start (g : Graph κ) : Stored { graph := g } g := fun _ _ _ found => nomatch found

theorem push (h : x.Stored g) (func : Func κ) : (x.push func).2.Stored g := by
  obtain ⟨-, -, grows, -, snapshots⟩ := x.push_spec func
  intro f stage copy found
  rw [snapshots] at found
  obtain ⟨new, marked⟩ := h f stage copy found
  exact ⟨new, by rw [grows.func (Graph.index_lt_of_origin (marked.trans_ne Origin.noConfusion)), marked]⟩

theorem modify (h : x.Stored g) {change : Func κ → Func κ} (kept : ∀ func, (change func).origin = func.origin) :
    (x.modify id change).Stored g := by
  intro f stage copy found
  obtain ⟨new, marked⟩ := h f stage copy found
  exact ⟨new, (Graph.origin_modifyFunc kept x.graph id copy).trans marked⟩

/-- Taking a snapshot keeps the shared copies in order, and gives what stands for the func. -/
theorem snapshot (h : x.Stored g) (grows : g.GrowsTo x.graph) (old : f.index < g.size) (stage : Stage) :
    (x.snapshot f stage).2.Stored g ∧ g.StandsFor (x.snapshot f stage).2.graph f stage (x.snapshot f stage).1 := by
  unfold Extension.snapshot
  dsimp only
  split
  · rename_i last
    rw [grows.func old] at last
    exact ⟨h, Or.inl ⟨rfl, last⟩⟩
  split
  · rename_i copy found
    exact ⟨h, Or.inr (h f stage copy found)⟩
  generalize made : ({ ((x.graph.func f).truncate stage).mapExprs (·.redirect f x.nextId) with
    name := snapshotName (x.graph.func f).name stage, origin := .primal f stage } : Func κ) = func
  obtain ⟨id, -, -, ⟨name, own⟩, -⟩ := x.push_spec func
  have marked : g.size ≤ (x.push func).1.index ∧
      ((x.push func).2.graph.func (x.push func).1).origin = .primal f stage := by
    rw [id, own, ← made]
    exact ⟨grows.size, rfl⟩
  refine ⟨fun f' stage' copy found => ?_, Or.inr marked⟩
  change ((x.push func).2.snapshots.insert (f, stage) (x.push func).1).get? (f', stage') = some copy at found
  rw [Table.get?_insert] at found
  split at found
  · rename_i same
    obtain ⟨rfl, rfl⟩ := Prod.mk.inj same
    obtain rfl := Option.some.inj found
    exact marked
  · exact h.push func f' stage' copy found

end Extension.Stored

end Extensions

/-! ### The tangent of one func -/

variable [Extended κ]

/-- The stage whose values of the func itself stand in the derivative of an update. -/
def UpdateKind.sight? (kind : UpdateKind κ) (stage : Stage) : Option Stage :=
  match kind with
  | scan .. => some stage
  | _ => stage.prev?

namespace Tangents

/-- The derivative of a value along the funcs for what moves. -/
def along (active : Table Target FuncId) (e : Expr κ) : Expr κ :=
  (e.tangent fun r => (active.get? r.target).map fun t => .call t r.args).simplify

theorem along_congr {active active' : Table Target FuncId} {e : Expr κ}
    (same : ∀ r ∈ e.reads, active.get? r.target = active'.get? r.target) : along active e = along active' e :=
  congrArg Expr.simplify (Expr.tangent_congr fun r mem => by rw [same r mem])

/-- The update `t` of a tangent belongs to the update `d` of `f`. -/
structure Follows.Update (g g' : Graph κ) (active : Table Target FuncId) (f : FuncId) (stage : Stage)
    (d t : Definition κ) : Prop where
  lhs : t.lhs = d.lhs
  rdom : t.rdom = d.rdom
  value : ∃ kind sight, d.kindFor f = .ok kind ∧ kind.sight? stage = some sight ∧
    ((along active d.value).readsTarget (.func f) = false ∧ t.value = along active d.value ∨
      ∃ copy, g.StandsFor g' f sight copy ∧ t.value = (along active d.value).redirect f copy)

/-- The func `id` of `g'` is the tangent of `f`. -/
structure Follows (g g' : Graph κ) (active : Table Target FuncId) (f id : FuncId) : Prop where
  new : g.size ≤ id.index
  origin : (g'.func id).origin = .tangent (.func f)
  args : (g'.func id).args = (g.func f).args
  init {d : Definition κ} : (g.func f).init = some d →
    (g'.func id).init = some ⟨(g.func f).argExprs, along active d.value, none⟩
  length : (g'.func id).updates.length = (g.func f).updates.length
  update {i : Nat} {d : Definition κ} : (g.func f).updates[i]? = some d →
    ∃ t, (g'.func id).updates[i]? = some t ∧ Follows.Update g g' active f (.update i) d t

variable {g g' g'' : Graph κ} {active active' : Table Target FuncId} {f id : FuncId} {stage : Stage} {d t : Definition κ}
  {x y : State κ}

theorem Follows.Update.imp (h : Follows.Update g g' active f stage d t)
    (stands : ∀ sight copy, g.StandsFor g' f sight copy → g.StandsFor g'' f sight copy)
    (same : along active d.value = along active' d.value) : Follows.Update g g'' active' f stage d t := by
  obtain ⟨kind, sight, found, seen, value⟩ := h.value
  refine ⟨h.lhs, h.rdom, kind, sight, found, seen, ?_⟩
  rw [← same]
  exact value.imp_right fun ⟨copy, standing, redirected⟩ => ⟨copy, stands sight copy standing, redirected⟩

/-- A tangent stays one while others are added for funcs that `f` does not read. -/
theorem Follows.grow (h : Follows g g' active f id) (grows : g'.GrowsTo g'')
    (same : ∀ stage d, (stage, d) ∈ (g.func f).definitions → along active d.value = along active' d.value) :
    Follows g g'' active' f id := by
  have func : g''.func id = g'.func id :=
    grows.func (Graph.index_lt_of_origin (h.origin.trans_ne Origin.noConfusion))
  refine ⟨h.new, func ▸ h.origin, func ▸ h.args, fun init => ?_, func ▸ h.length, fun {i d} at' => ?_⟩
  · rw [func, h.init init, same .initial _ (Func.mem_definitions_init init)]
  · obtain ⟨t, own, update⟩ := h.update at'
    refine ⟨t, func ▸ own, update.imp (fun _ _ stands => stands.grow grows) (same (.update i) d ?_)⟩
    exact Func.mem_definitions.mpr at'

theorem valueStage?_eq_ok {sight : Option Stage} (later : stage ≠ .initial)
    (run : valueStage? g f stage d = .ok sight) :
    ∃ kind, d.kindFor f = .ok kind ∧ sight = kind.sight? stage := by
  unfold valueStage? at run
  rw [if_neg later] at run
  obtain ⟨kind, kinded, run⟩ := bind_eq_ok.mp run
  refine ⟨kind, mapError_eq_ok.mp kinded, ?_⟩
  cases additive : kind.isAdditive f d with
  | false => simp [bind, Except.bind, additive, throw, throwThe, MonadExceptOf.throw] at run
  | true =>
    simp only [additive, Bool.not_true, Bool.false_eq_true, if_false] at run
    cases kind <;> exact (pure_eq_ok.mp run).symm

/-- The initial definition gets the derivative of its value. In the one of an update, calls of `f` are calls of what
stands for `f` at the stage that counts. -/
theorem addDefinition_cases (run : addDefinition g f id x stage d = .ok y) :
    (stage = .initial ∧
      y = { x with extension := x.extension.modify id (·.withInit (along x.active d.value)) }) ∨
    (stage ≠ .initial ∧ ∃ kind sight value e, d.kindFor f = .ok kind ∧ kind.sight? stage = some sight ∧
      y = { x with extension := e.modify id (·.addUpdate ⟨d.lhs, value, d.rdom⟩) } ∧
      (e = x.extension ∧ value = along x.active d.value ∧ value.readsTarget (.func f) = false ∨
        e = (x.extension.snapshot f sight).2 ∧
          value = (along x.active d.value).redirect f (x.extension.snapshot f sight).1)) := by
  unfold addDefinition at run
  obtain ⟨valueStage, staged, run⟩ := bind_eq_ok.mp run
  obtain rfl := pure_eq_ok.mp run
  by_cases first : stage = .initial
  · subst first
    obtain rfl : none = valueStage := Except.ok.inj staged
    exact Or.inl ⟨rfl, rfl⟩
  obtain ⟨kind, kinded, rfl⟩ := valueStage?_eq_ok first staged
  obtain ⟨sight, seen⟩ : ∃ sight, kind.sight? stage = some sight := by
    rcases stage with - | _ | i
    · exact absurd rfl first
    all_goals cases kind <;> exact ⟨_, rfl⟩
  refine Or.inr ⟨first, kind, sight, ?_⟩
  simp only [seen, if_neg first]
  by_cases reads : (x.tangentOf d.value).readsTarget (.func f)
  · simp only [if_pos reads]
    exact ⟨_, _, kinded, trivial, rfl, Or.inr ⟨rfl, rfl⟩⟩
  · simp only [if_neg reads]
    exact ⟨_, _, kinded, trivial, rfl, Or.inl ⟨rfl, rfl, Bool.not_eq_true _ ▸ reads⟩⟩

/-- The func `id` is being made from `x` on as the tangent of `f`, and has the tangents of the definitions `done`. -/
structure Following (g : Graph κ) (x : State κ) (f id : FuncId) (done : List (Stage × Definition κ)) (y : State κ) :
    Prop where
  active : y.active = x.active.insert (.func f) id
  grows : x.extension.graph.GrowsTo y.extension.graph
  stored : y.extension.Stored g
  origin : (y.extension.graph.func id).origin = .tangent (.func f)
  args : (y.extension.graph.func id).args = (g.func f).args
  init {d : Definition κ} : (.initial, d) ∈ done →
    (y.extension.graph.func id).init = some ⟨(g.func f).argExprs, along y.active d.value, none⟩
  updates : List.Forall₂ (fun e t => Follows.Update g y.extension.graph y.active f e.1 e.2 t)
    (done.filter (·.1 ≠ .initial)) (y.extension.graph.func id).updates

namespace Following

variable {done rest : List (Stage × Definition κ)} {z : State κ}

theorem grow (h : Following g x f id done y) {e : Extension κ} (grows : y.extension.graph.GrowsTo e.graph)
    (stored : e.Stored g) : Following g x f id done { y with extension := e } := by
  have func : e.graph.func id = y.extension.graph.func id :=
    grows.func (Graph.index_lt_of_origin (h.origin.trans_ne Origin.noConfusion))
  refine ⟨h.active, h.grows.trans grows, stored, func ▸ h.origin, func ▸ h.args, fun mem => func ▸ h.init mem, ?_⟩
  rw [func]
  exact h.updates.imp fun e t update => update.imp (fun _ _ stands => stands.grow grows) rfl

theorem put (h : Following g x f id done y) (new : x.extension.graph.size ≤ id.index) {change : Func κ → Func κ}
    (kept : ∀ func, (change func).origin = func.origin) (args : ∀ func, (change func).args = func.args)
    (init : ∀ d', (.initial, d') ∈ done ++ [(stage, d)] →
      (change (y.extension.graph.func id)).init = some ⟨(g.func f).argExprs, along y.active d'.value, none⟩)
    (updates : List.Forall₂ (fun e t => Follows.Update g y.extension.graph y.active f e.1 e.2 t)
      ((done ++ [(stage, d)]).filter (·.1 ≠ .initial)) (change (y.extension.graph.func id)).updates) :
    Following g x f id (done ++ [(stage, d)]) { y with extension := y.extension.modify id change } := by
  have inside := Graph.index_lt_of_origin (h.origin.trans_ne Origin.noConfusion)
  have func : (y.extension.modify id change).graph.func id = change (y.extension.graph.func id) :=
    (Graph.func_modifyFunc ..).trans (if_pos ⟨rfl, inside⟩)
  refine ⟨h.active, h.grows.modifyFunc new change, h.stored.modify kept, ?_, ?_, fun mem => ?_, ?_⟩
  · exact func ▸ (kept _).trans h.origin
  · exact func ▸ (args _).trans h.args
  · exact func ▸ init _ mem
  · rw [func]
    exact updates.imp fun e t update => update.imp (fun _ _ stands => stands.modify kept) rfl

theorem addDefinition (h : Following g x f id done y) (grows : g.GrowsTo x.extension.graph)
    (new : x.extension.graph.size ≤ id.index) (old : f.index < g.size)
    (alone : stage = .initial → done = []) (run : addDefinition g f id y stage d = .ok z) :
    Following g x f id (done ++ [(stage, d)]) z := by
  rcases addDefinition_cases run with ⟨rfl, rfl⟩ | ⟨later, kind, sight, value, e, kinded, seen, rfl, made⟩
  · obtain rfl := alone rfl
    refine h.put new (fun _ => rfl) (fun _ => rfl) (fun d' mem => ?_) h.updates
    obtain ⟨-, rfl⟩ := Prod.mk.inj (List.mem_singleton.mp mem)
    simp only [Func.withInit, Func.argExprs, h.args]
  · have finish (now : Following g x f id done { y with extension := e })
        (update : Follows.Update g e.graph y.active f stage d ⟨d.lhs, value, d.rdom⟩) :
        Following g x f id (done ++ [(stage, d)])
          { y with extension := e.modify id (·.addUpdate ⟨d.lhs, value, d.rdom⟩) } := by
      refine now.put new (fun _ => rfl) (fun _ => rfl) (fun d' mem => ?_) ?_
      · rcases List.mem_append.mp mem with before | last
        · exact now.init before
        · exact absurd (Prod.mk.inj (List.mem_singleton.mp last)).1.symm later
      · rw [List.filter_append, List.filter_cons_of_pos (by simpa using later), List.filter_nil]
        exact List.rel_append now.updates (.cons update .nil)
    rcases made with ⟨rfl, rfl, unread⟩ | ⟨rfl, rfl⟩
    · exact finish h ⟨rfl, rfl, kind, sight, kinded, seen, Or.inl ⟨unread, rfl⟩⟩
    · obtain ⟨stored, stands⟩ := h.stored.snapshot (grows.trans h.grows) old sight
      exact finish (h.grow (Graph.ExtendsTo.refl.snapshot f sight).grows stored)
        ⟨rfl, rfl, kind, sight, kinded, seen, Or.inr ⟨_, stands, rfl⟩⟩

theorem start {func : Func κ} (stored : x.extension.Stored g) (origin : func.origin = .tangent (.func f))
    (args : func.args = (g.func f).args) (updates : func.updates = []) :
    Following g x f x.extension.nextId [] ⟨(x.extension.push func).2, x.active.insert (.func f) x.extension.nextId⟩ := by
  obtain ⟨-, -, grows, ⟨name, own⟩, -⟩ := x.extension.push_spec func
  refine ⟨rfl, grows, stored.push func, ?_, ?_, fun none => absurd none List.not_mem_nil, ?_⟩
  · exact (congrArg Func.origin own).trans origin
  · exact (congrArg Func.args own).trans args
  · rw [show ((x.extension.push func).2.graph.func x.extension.nextId).updates = [] from
      (congrArg Func.updates own).trans updates]
    exact .nil

theorem close (h : Following g x f id (g.func f).definitions y) (new : g.size ≤ id.index) :
    Follows g y.extension.graph y.active f id := by
  have later : (g.func f).definitions.filter (·.1 ≠ .initial) =
      (g.func f).updates.zipIdx.map fun e => (Stage.update e.2, e.1) := by
    rw [Func.definitions_eq, List.filter_append, List.filter_eq_nil_iff.mpr, List.nil_append, List.filter_eq_self]
    · intro e mem
      obtain ⟨⟨d, i⟩, -, rfl⟩ := List.mem_map.mp mem
      rfl
    · intro e mem
      obtain ⟨d, -, rfl⟩ := List.mem_map.mp mem
      simp
  have updates := h.updates
  rw [later, List.forall₂_map_left_iff] at updates
  refine ⟨new, h.origin, h.args, fun init => h.init (Func.mem_definitions_init init), ?_, fun {i d} at' => ?_⟩
  · rw [← updates.length_eq, List.length_zipIdx]
  · obtain ⟨less, rfl⟩ := List.getElem?_eq_some_iff.mp at'
    have inside : i < (y.extension.graph.func id).updates.length := by
      rwa [← updates.length_eq, List.length_zipIdx]
    refine ⟨_, List.getElem?_eq_getElem inside, ?_⟩
    have update := updates.get (i := i) (by rwa [List.length_zipIdx]) inside
    simpa using update

end Following

/-! ### The whole walk -/

/-- What the funcs of `done` have got: those that read something that moves have tangents, the others have none. -/
structure Walked (g : Graph κ) (seeds : Table Target FuncId) (done : List FuncId) (x : State κ) : Prop where
  grows : g.GrowsTo x.extension.graph
  stored : x.extension.Stored g
  seeded {t : Target} {id : FuncId} : seeds.get? t = some id → x.active.get? t = some id
  follows {t : Target} {id : FuncId} : x.active.get? t = some id → seeds.get? t = none →
    ∃ f ∈ done, t = .func f ∧ Follows g x.extension.graph x.active f id
  still {f : FuncId} : f ∈ done → x.active.get? (.func f) = none → ∀ stage d, (stage, d) ∈ (g.func f).definitions →
    ∀ r ∈ d.value.reads, x.active.get? r.target = none

namespace Walked

variable {s : Schedule} {seeds : Table Target FuncId} {done rest : List FuncId}

theorem start (g : Graph κ) (seeds : Table Target FuncId) : Walked g seeds [] ⟨{ graph := g }, seeds⟩ := by
  refine ⟨.refl g, .start g, id, fun found none => ?_, fun mem => absurd mem List.not_mem_nil⟩
  cases found.symm.trans none

/-- A func that moves already, or that reads nothing that moves, is left alone. -/
theorem skip (h : Walked g seeds done x) (skipped : x.active.get? (.func f) = none →
      ∀ stage d, (stage, d) ∈ (g.func f).definitions → ∀ r ∈ d.value.reads, x.active.get? r.target = none) :
    Walked g seeds (done ++ [f]) x := by
  refine ⟨h.grows, h.stored, h.seeded, fun found none => ?_, fun {k} inside unmoved => ?_⟩
  · obtain ⟨k, early, follows⟩ := h.follows found none
    exact ⟨k, List.mem_append_left _ early, follows⟩
  · rcases List.mem_append.mp inside with early | last
    · exact h.still early unmoved
    · obtain rfl := List.mem_singleton.mp last
      exact skipped unmoved

/-- A func that has got the tangents of all its definitions joins the others. -/
theorem close (h : Walked g seeds done x) (ordered : s.Ordered g) (split : s.funcs = done ++ f :: rest)
    (unmoved : x.active.get? (.func f) = none) (made : Following g x f id (g.func f).definitions y)
    (new : g.size ≤ id.index) : Walked g seeds (done ++ [f]) y := by
  have moved : y.active.get? (.func f) = some id := by
    rw [made.active, Table.get?_insert, if_pos rfl]
  have others {t : Target} (other : t ≠ .func f) : y.active.get? t = x.active.get? t := by
    rw [made.active, Table.get?_insert, if_neg other.symm]
  -- what came before does not read `f`, so that its tangents stay what they are
  have apart {k : FuncId} (early : k ∈ done) {stage : Stage} {d : Definition κ}
      (listed : (stage, d) ∈ (g.func k).definitions) {r : Read κ} (read : r ∈ d.value.reads) : r.target ≠ .func f :=
    fun same => ordered.not_reads_ahead split early stage ⟨d, listed, r, Definition.mem_reads_value read, same⟩
  refine ⟨h.grows.trans made.grows, made.stored, fun {t id} seeded => ?_, fun {t id} found unseeded => ?_,
    fun {k} inside unmoved' stage d listed r read => ?_⟩
  · have before := h.seeded seeded
    rwa [others]
    rintro rfl
    cases unmoved.symm.trans before
  · by_cases self : t = .func f
    · subst self
      obtain rfl := Option.some.inj (moved.symm.trans found)
      exact ⟨f, List.mem_append_right _ List.mem_cons_self, rfl, made.close new⟩
    · rw [others self] at found
      obtain ⟨k, early, rfl, follows⟩ := h.follows found unseeded
      refine ⟨k, List.mem_append_left _ early, rfl, follows.grow made.grows fun stage d listed => ?_⟩
      exact along_congr fun r read => (others (apart early listed read)).symm
  · rcases List.mem_append.mp inside with early | last
    · have other : Target.func k ≠ .func f := by
        rintro ⟨⟩
        cases moved.symm.trans unmoved'
      rw [others other] at unmoved'
      rw [others (apart early listed read)]
      exact h.still early unmoved' stage d listed r read
    · obtain rfl := List.mem_singleton.mp last
      cases moved.symm.trans unmoved'

theorem addFunc (h : Walked g seeds done x) (ordered : s.Ordered g) (split : s.funcs = done ++ f :: rest)
    (run : addFunc g x f = .ok y) : Walked g seeds (done ++ [f]) y := by
  have defined := ordered.defined f (split ▸ List.mem_append_right _ List.mem_cons_self)
  unfold Tangents.addFunc at run
  dsimp only at run
  split at run
  · rename_i skipped
    obtain rfl := pure_eq_ok.mp run
    refine h.skip fun unmoved stage d listed r read => ?_
    unfold Table.contains at skipped
    rw [unmoved, Option.isSome_none, Bool.false_or, Bool.not_eq_true', List.any_eq_false] at skipped
    have reads := skipped (stage, d) listed
    rw [Bool.not_eq_true, List.any_eq_false] at reads
    exact Option.not_isSome_iff_eq_none.mp (reads r read)
  rename_i fresh
  have unmoved : x.active.get? (.func f) = none := by
    unfold Table.contains at fresh
    rw [Bool.or_eq_true, not_or] at fresh
    exact Option.not_isSome_iff_eq_none.mp fresh.1
  rw [show (x.extension.push (tangentFunc g f)).1 = x.extension.nextId from (x.extension.push_spec _).1] at run
  refine h.close ordered split unmoved ?_ h.grows.size
  refine foldlM_invariant run (fun done y => Following g x f x.extension.nextId done y)
    (Following.start h.stored rfl rfl rfl) ?_
  rintro done ⟨stage, d⟩ rest y z split before step
  refine before.addDefinition h.grows le_rfl (Graph.index_lt_of_init defined) (fun first => ?_) step
  exact Func.eq_nil_of_definitions_eq defined (first ▸ split)

theorem run (ordered : s.Ordered g) (run : s.funcs.foldlM (Tangents.addFunc g) ⟨{ graph := g }, seeds⟩ = .ok x) :
    Walked g seeds s.funcs x :=
  foldlM_invariant run (Walked g seeds) (start g seeds) fun _ _ _ _ _ split before step =>
    before.addFunc ordered split step

end Walked

end Tangents

/-! ### Graphs with tangents -/

/-- The tangents that are added to `g`: those of the funcs of a schedule that are not seeded, and of the output. -/
structure Graph.Follows (g : Graph κ) (s : Schedule) (seeds : Table Target FuncId) (output : FuncId) (t : Tangents κ) :
    Prop where
  grows : g.GrowsTo t.graph
  seeded {u : Target} {id : FuncId} : seeds.get? u = some id → t.active.get? u = some id
  follows {u : Target} {id : FuncId} : t.active.get? u = some id → seeds.get? u = none →
    ∃ f ∈ s.funcs, u = .func f ∧ Tangents.Follows g t.graph t.active f id
  still {f : FuncId} : f ∈ s.funcs → t.active.get? (.func f) = none → ∀ stage d, (stage, d) ∈ (g.func f).definitions →
    ∀ r ∈ d.value.reads, t.active.get? r.target = none
  output : t.active.get? (.func output) = some t.output ∨ t.active.get? (.func output) = none ∧
    g.size ≤ t.output.index ∧ ∃ name, t.graph.func t.output =
      { (Tangents.tangentFunc g output).withInit .zero with name }

/-- Forward mode adds such tangents. -/
theorem Graph.follows_of_tangents {g : Graph κ} {s : Schedule} {output : FuncId} {directions : List (Name × FuncId)}
    {seeds : List (Target × FuncId)} {t : Tangents κ} (order : g.schedule output = .ok s)
    (named : (directions.mapM fun d => g.direction d.1 d.2) = .ok seeds)
    (run : g.tangents output directions = .ok t) : g.Follows s (.ofList seeds) output t := by
  unfold Graph.tangents at run
  obtain ⟨seeds', named', run⟩ := bind_eq_ok.mp run
  obtain rfl := Except.ok.inj (named.symm.trans named')
  obtain ⟨s', order', run⟩ := bind_eq_ok.mp run
  obtain rfl := Except.ok.inj (order.symm.trans (mapError_eq_ok.mp order'))
  obtain ⟨x, folded, run⟩ := bind_eq_ok.mp run
  have walked := Tangents.Walked.run (ordered_schedule order).1 folded
  cases active : x.active.get? (.func output) with
  | some id =>
    rw [active] at run
    obtain rfl := pure_eq_ok.mp run
    exact ⟨walked.grows, walked.seeded, walked.follows, walked.still, Or.inl active⟩
  | none =>
    rw [active] at run
    obtain rfl := pure_eq_ok.mp run
    obtain ⟨-, -, grows, own, -⟩ := x.extension.push_spec ((Tangents.tangentFunc g output).withInit .zero)
    refine ⟨walked.grows.trans grows, walked.seeded, fun found unseeded => ?_, walked.still,
      Or.inr ⟨active, walked.grows.size, own⟩⟩
    obtain ⟨f, mem, rfl, follows⟩ := walked.follows found unseeded
    exact ⟨f, mem, rfl, follows.grow grows fun _ _ _ => rfl⟩

end ArrayDiff
