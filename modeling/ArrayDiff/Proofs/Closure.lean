import ArrayDiff.Proofs.Sweeping
import ArrayDiff.Proofs.Transposition
import ArrayDiff.Tangent

/-!
# Derivatives of well-formed graphs

In a well-formed graph every read has the arity of its target, updates stand at positions that the building operations
accept, and pure variables come from the position. Both modes make such graphs from such graphs, and everything they add
can be computed (`Graph.derivatives_lawful`).
-/

namespace ArrayDiff

variable {κ : Type}

/-! ### Forward mode -/

namespace Extension

variable {x : Extension κ} {g : Graph κ} {T : FuncId → Prop} {id k : FuncId}

theorem func_modify (x : Extension κ) (id k : FuncId) (change : Func κ → Func κ) : (x.modify id change).graph.func k =
    if id = k ∧ id.index < x.graph.size then change (x.graph.func k) else x.graph.func k :=
  Graph.func_modifyFunc x.graph id k change

theorem size_modify (x : Extension κ) (id : FuncId) (change : Func κ → Func κ) :
    (x.modify id change).graph.size = x.graph.size := Array.size_modify

theorem Lawful.modify (h : x.Lawful g T) (apart : ¬T id) (new : x.Added g id) (change : Func κ → Func κ) :
    (x.modify id change).Lawful g T ∧ ∀ t n, x.graph.Admits T t n → (x.modify id change).graph.Admits T t n := by
  have same (k : FuncId) (other : id ≠ k) : (x.modify id change).graph.func k = x.graph.func k := by
    rw [func_modify, if_neg fun both => other both.1]
  have kept (k : FuncId) (mem : T k) := same k fun self => apart (self ▸ mem)
  refine ⟨h.congr ⟨?_, fun {k} old => ?_, h.grows.buffers, h.grows.params⟩ kept rfl rfl,
    fun t n admitted => admitted.mono (fun k mem => ⟨mem, kept k mem⟩) rfl⟩
  · rw [size_modify]
    exact h.grows.size
  · rw [same k fun self => absurd (self ▸ old) (Nat.not_lt.mpr new.1)]
    exact h.grows.func old

end Extension

namespace Tangents

variable [Extended κ] {s s' : State κ} {g : Graph κ} {T T' : FuncId → Prop} {f id : FuncId} {stage : Stage}
  {d : Definition κ} {done : List (Stage × Definition κ)}

/-- All added funcs are among `T`, whose funcs are lawful, and tangents can be called like their targets. -/
structure State.Lawful (s : State κ) (g : Graph κ) (T : FuncId → Prop) : Prop where
  extension : s.extension.Lawful g T
  added {k : FuncId} : s.extension.Added g k → T k
  active {target : Target} {t : FuncId} : s.active.get? target = some t →
    s.extension.graph.Admits T (.func t) (g.dimsOf target)

theorem State.fits_tangentOf {V : Name → Prop} {R R' : Target → Nat → Prop} {e : Expr κ}
    (wider : ∀ t n, R t n → R' t n) (fits : e.Fits V R)
    (moved : ∀ target t n, R target n → s.active.get? target = some t → R' (.func t) n) :
    (s.tangentOf e).Fits V R' := by
  refine (Expr.fits_tangent wider fits fun r d arity args found => ?_).simplify
  obtain ⟨t, active, rfl⟩ := Option.map_eq_some_iff.mp found
  exact Expr.fits_call.mpr ⟨moved _ t _ arity active, args⟩

/-- The tangent of `f` is being made under `id`, and has got the tangents of the definitions `done`. It is not among `T`,
so that copies which are made meanwhile come before it. -/
structure State.Open (s : State κ) (g : Graph κ) (T : FuncId → Prop) (f id : FuncId)
    (done : List (Stage × Definition κ)) : Prop where
  extension : s.extension.Lawful g T
  added {k : FuncId} : s.extension.Added g k → T k ∨ k = id
  active {target : Target} {t : FuncId} : s.active.get? target = some t →
    target = .func f ∧ t = id ∨ s.extension.graph.Admits T (.func t) (g.dimsOf target)
  apart : ¬T id
  new : s.extension.Added g id
  args : (s.extension.graph.func id).args = (g.func f).args
  drafted : (s.extension.graph.func id).Drafted (s.extension.graph.Admits T) id
  defined {d : Definition κ} : (.initial, d) ∈ done → (s.extension.graph.func id).init.isSome

namespace State.Open

section

omit [Extended κ]

theorem widen (h : s.Open g T f id done) {x : Extension κ} (lawful : x.Lawful g T')
    (widens : s.extension.Widens g T x T') : State.Open { s with extension := x } g T' f id done := by
  have same := widens.grows.func h.new.2
  refine ⟨lawful, fun added => ?_, fun active => (h.active active).imp_right widens.admits, fun mem => ?_,
    h.new.grow widens.grows, same ▸ h.args, same ▸ h.drafted.mono fun t n => widens.admits,
    fun mem => same ▸ h.defined mem⟩
  · exact (widens.added added).elim (fun before => (h.added before).imp_left widens.sub) Or.inl
  · exact (widens.fresh mem).elim h.apart fun late => Nat.lt_irrefl _ (h.new.2.trans_le late)

theorem put (h : s.Open g T f id done) {change : Func κ → Func κ}
    (args : (change (s.extension.graph.func id)).args = (s.extension.graph.func id).args)
    (drafted : (change (s.extension.graph.func id)).Drafted (s.extension.graph.Admits T) id)
    (defined : ∀ d', (.initial, d') ∈ done ++ [(stage, d)] → (change (s.extension.graph.func id)).init.isSome) :
    State.Open { s with extension := s.extension.modify id change } g T f id (done ++ [(stage, d)]) := by
  obtain ⟨lawful, admits⟩ := h.extension.modify h.apart h.new change
  have func : (s.extension.modify id change).graph.func id = change (s.extension.graph.func id) := by
    rw [Extension.func_modify, if_pos ⟨rfl, h.new.2⟩]
  have added {k : FuncId} : (s.extension.modify id change).Added g k ↔ s.extension.Added g k := by
    unfold Extension.Added
    rw [Extension.size_modify]
  refine ⟨lawful, fun new => h.added (added.mp new), fun active => (h.active active).imp_right (admits _ _), h.apart,
    added.mpr h.new, ?_, ?_, fun mem => ?_⟩
  · exact func ▸ args.trans h.args
  · exact func ▸ drafted.mono admits
  · exact func ▸ defined _ mem

theorem putInit (h : s.Open g T f id done) {value : Expr κ}
    (fits : value.Fits (· ∈ (g.func f).args) (s.extension.graph.Admits T)) :
    State.Open { s with extension := s.extension.modify id (·.withInit value) } g T f id (done ++ [(stage, d)]) := by
  refine h.put rfl ⟨fun found => ?_,
    fun mem => (h.drafted.update mem).imp_left fun accepted => accepted.congr rfl⟩ fun _ _ => rfl
  obtain rfl := Option.some.inj found
  refine ⟨rfl, ?_⟩
  rw [← h.args] at fits
  exact fits

theorem putUpdate (h : s.Open g T f id done) {value : Expr κ} (later : stage ≠ .initial)
    (own : d.Lawful (s.extension.graph.Admits T) (g.func f))
    (fits : value.Fits d.Binds (Func.OrSelf (s.extension.graph.Admits T) id (g.func f).dims)) :
    State.Open { s with extension := s.extension.modify id (·.addUpdate ⟨d.lhs, value, d.rdom⟩) } g T f id
      (done ++ [(stage, d)]) := by
  refine h.put rfl ⟨h.drafted.init, fun mem => ?_⟩ fun d' mem => ?_
  · rcases List.mem_append.mp mem with old | new
    · exact (h.drafted.update old).imp_left fun accepted => accepted.congr rfl
    · obtain rfl := List.mem_singleton.mp new
      refine ⟨own.accepts.congr h.args, List.forall_mem_append.mpr ⟨fun e position => ?_, ?_⟩⟩
      · exact (own.lhs e position).mono (fun _ bound => bound) fun t n => Or.inl
      · rw [← show (s.extension.graph.func id).dims = (g.func f).dims from congrArg List.length h.args] at fits
        exact List.forall_mem_singleton.mpr fits
  · rcases List.mem_append.mp mem with old | new
    · exact h.defined old
    · exact absurd (Prod.mk.inj (List.mem_singleton.mp new)).1.symm later

end

end State.Open

/-- Every definition of a lawful func has a tangent that keeps the func that is being made a draft. -/
theorem State.Open.addDefinition (closed : g.Closed g.Scheduled) (distinct : (g.func f).args.Nodup)
    (scheduled : g.Scheduled f) (h : s.Open g T f id done) (listed : (stage, d) ∈ (g.func f).definitions)
    (run : addDefinition g f id s stage d = .ok s') : ∃ T', s'.Open g T' f id (done ++ [(stage, d)]) := by
  have source := closed.lawful scheduled
  unfold Tangents.addDefinition at run
  obtain ⟨valueStage, staged, run⟩ := bind_eq_ok.mp run
  by_cases first : stage = .initial
  · subst first
    obtain rfl : none = valueStage := Except.ok.inj staged
    obtain rfl := pure_eq_ok.mp run
    obtain ⟨-, found⟩ | ⟨later, -⟩ := Func.of_mem_definitions listed
    swap
    · exact absurd rfl later
    -- an initial value does not read `f`, so that its tangent does not read itself
    have fits : (s.tangentOf d.value).Fits (· ∈ (g.func f).args) (s.extension.graph.Admits T) := by
      refine State.fits_tangentOf (fun t n known => h.extension.known t n known.1)
        (source.fits_value (closed.initial scheduled) found) fun target t n known active => ?_
      rw [known.1.2]
      exact (h.active active).resolve_left fun self => known.2 self.1
    exact ⟨T, h.putInit fits⟩
  · have own := Definition.Lawful.of_func source distinct listed
    have fits : (s.tangentOf d.value).Fits d.Binds (Func.OrSelf (s.extension.graph.Admits T) id (g.func f).dims) := by
      refine State.fits_tangentOf (fun t n known => Or.inl (h.extension.known t n known)) own.value
        fun target t n known active => ?_
      rw [known.2]
      rcases h.active active with ⟨rfl, rfl⟩ | admitted
      · exact Or.inr ⟨rfl, rfl⟩
      · exact Or.inl admitted
    have finish {x : Extension κ} {value : Expr κ} {T' : FuncId → Prop} (lawful : x.Lawful g T')
        (widens : s.extension.Widens g T x T')
        (fits : value.Fits d.Binds (Func.OrSelf (x.graph.Admits T') id (g.func f).dims)) :
        ∃ T', State.Open { s with extension := x.modify id (·.addUpdate ⟨d.lhs, value, d.rdom⟩) } g T' f id
          (done ++ [(stage, d)]) :=
      ⟨T', (h.widen lawful widens).putUpdate first (own.mono lawful.known) fits⟩
    simp only [if_neg first] at run
    obtain rfl := pure_eq_ok.mp run
    cases valueStage with
    | none => exact finish h.extension (.refl _) fits
    | some valueAt =>
      by_cases reads : (s.tangentOf d.value).readsTarget (.func f)
      · obtain ⟨T', lawful, widens, copied⟩ := h.extension.snapshot scheduled valueAt
        simp only [if_pos reads]
        -- the copy is called like `f`, and so like the func that is being made
        refine finish lawful widens (Expr.Fits.redirect (fits.mono (fun _ free => free) fun t n => ?_) fun n known => ?_)
        · exact Or.imp_left widens.admits
        · rcases known with known | ⟨-, rfl⟩
          · exact Or.inl ((known.2.trans (lawful.admits scheduled).2.symm) ▸ copied)
          · exact Or.inl copied
      · simp only [if_neg reads]
        exact finish h.extension (.refl _) fits

omit [Extended κ] in
theorem State.Open.close (h : s.Open g T f id (g.func f).definitions) (scheduled : g.Scheduled f)
    (closed : g.Closed g.Scheduled) : s.Lawful g fun k => T k ∨ k = id := by
  obtain ⟨d, init⟩ := Option.isSome_iff_exists.mp (closed.defined scheduled)
  have defined := h.defined (Func.mem_definitions_init init)
  have joined := h.extension.closed.add h.apart defined h.drafted
  refine ⟨⟨h.extension.grows, joined, fun old => Or.inl (h.extension.base old),
    fun found => (h.extension.copies found).imp_left Or.inl⟩, h.added, fun {target t} active => ?_⟩
  rcases h.active active with ⟨rfl, rfl⟩ | admitted
  · exact ⟨Or.inr rfl, (congrArg List.length h.args).symm⟩
  · exact admitted.mono (fun k mem => ⟨Or.inl mem, rfl⟩) rfl

theorem State.Lawful.addFunc (closed : g.Closed g.Scheduled) (distinct : (g.func f).args.Nodup)
    (scheduled : g.Scheduled f) (h : s.Lawful g T) (run : addFunc g s f = .ok s') : ∃ T', s'.Lawful g T' := by
  unfold Tangents.addFunc at run
  dsimp only at run
  split at run
  · rw [← pure_eq_ok.mp run]
    exact ⟨T, h⟩
  obtain ⟨id, -, grows, ⟨name, func⟩, snapshots⟩ := s.extension.push_spec (tangentFunc g f)
  rw [id] at run
  have kept (k : FuncId) (mem : T k) := grows.func (h.extension.closed.index_lt mem)
  have start : State.Open ⟨(s.extension.push (tangentFunc g f)).2, s.active.insert (.func f) s.extension.nextId⟩ g T f
      s.extension.nextId [] := by
    have added {k : FuncId} := s.extension.added_push (k := k) (tangentFunc g f) h.extension.grows.size
    refine ⟨h.extension.congr (h.extension.grows.trans grows) kept grows.buffers snapshots,
      fun new => (added.mp new).imp_left h.added, fun {target t} active => ?_,
      fun mem => Nat.lt_irrefl _ (h.extension.closed.index_lt mem), added.mpr (Or.inr rfl), ?_, ?_,
      fun none => absurd none List.not_mem_nil⟩
    · rw [Table.get?_insert] at active
      split at active
      · rename_i same
        exact Or.inl ⟨same.symm, (Option.some.inj active).symm⟩
      · exact Or.inr ((h.active active).mono (fun k mem => ⟨mem, kept k mem⟩) grows.buffers)
    · rw [func]
      rfl
    · rw [func]
      refine ⟨fun found => ?_, fun mem => absurd mem List.not_mem_nil⟩
      cases found
  obtain ⟨T', made⟩ := foldlM_invariant run (fun done s => ∃ T', State.Open s g T' f _ done) ⟨T, start⟩ (by
    rintro done ⟨stage, d⟩ rest y z split ⟨T', before⟩ step
    refine before.addDefinition closed distinct scheduled ?_ step
    rw [split]
    exact List.mem_append_right _ List.mem_cons_self)
  exact ⟨_, made.close scheduled closed⟩

end Tangents

/-! ### Well-formed graphs -/

namespace Graph

/-- The target takes `n` arguments; a func has to be there. -/
def Takes (g : Graph κ) (t : Target) (n : Nat) : Prop := n = g.dimsOf t ∧ ∀ f, t = .func f → f.index < g.size

/-- The funcs are lawful, and names of arguments and of reduction variables are distinct. -/
structure WellFormed (g : Graph κ) : Prop where
  func (f : FuncId) : (g.func f).Lawful g.Takes
  args (f : FuncId) : (g.func f).args.Nodup
  rdoms {f : FuncId} {stage : Stage} {d : Definition κ} {rdom : ReductionDomain} :
    (stage, d) ∈ (g.func f).definitions → d.rdom = some rdom → rdom.names.Nodup

/-- The funcs are lawful, and those behind the funcs of `g` have schedules. -/
structure LawfulBeyond (g' g : Graph κ) : Prop where
  func (f : FuncId) : (g'.func f).Lawful g'.Takes
  schedules {f : FuncId} : g.size ≤ f.index → f.index < g'.size → ∃ s, g'.schedule f = .ok s

variable {g : Graph κ} {T : FuncId → Prop} {x : Extension κ}

theorem WellFormed.closed (h : g.WellFormed) : g.Closed g.Scheduled := by
  refine ⟨g.sorted_scheduled, fun {f} scheduled => ?_⟩
  have own := h.func f
  refine ⟨own.init, own.update, fun {stage d} listed r read => ?_, own.bound⟩
  refine ⟨?_, (own.reads listed r read).1⟩
  cases target : r.target with
  | func k =>
    obtain ⟨rank, -, layers, -⟩ := g.sorted_scheduled
    by_cases self : k = f
    · exact self ▸ scheduled
    · exact (layers.below scheduled ⟨d, listed, r, read, target⟩ self).1
  | _ => trivial

theorem Closed.start (h : g.Closed g.Scheduled) : Extension.Lawful { graph := g } g g.Scheduled :=
  ⟨.refl g, h, id, fun found => (nomatch found)⟩

theorem not_added (g : Graph κ) (f : FuncId) : ¬Extension.Added { graph := g } g f :=
  fun added => Nat.lt_irrefl _ (added.2.trans_le added.1)

/-- Old funcs stay as they are, and the added ones are among the lawful ones. -/
theorem WellFormed.extend (h : g.WellFormed) (lawful : x.Lawful g T) (added : ∀ f, x.Added g f → T f) :
    x.graph.LawfulBeyond g := by
  refine ⟨fun f => ?_, fun new inside => lawful.closed.sorted.schedule_isOk (added _ ⟨new, inside⟩)⟩
  -- an old func, an added one, or an id of nothing
  by_cases old : f.index < g.size
  · rw [lawful.grows.func old]
    refine (h.func f).mono ?_
    rintro t n ⟨rfl, inside⟩
    refine ⟨?_, fun k same => (inside k same).trans_le lawful.grows.size⟩
    cases t with
    | func k => exact congrArg Func.dims (lawful.grows.func (inside k rfl)).symm
    | buffer b => exact congrArg (·.domain.dims) (lawful.grows.buffer b).symm
    | param p => rfl
  by_cases inside : f.index < x.graph.size
  · refine (lawful.closed.lawful (added f ⟨Nat.le_of_not_lt old, inside⟩)).mono ?_
    rintro t n ⟨based, arity⟩
    refine ⟨arity, ?_⟩
    rintro k rfl
    exact lawful.closed.index_lt based
  · rw [func_of_unknown inside]
    exact Func.lawful_default

end Graph

/-! ### Both modes -/

namespace Graph

variable {g : Graph κ} {output f : FuncId}

theorem fits_resolveSeed [Extended κ] {seed : Seed κ} {r : ResolvedSeed κ}
    (scheduled : ∀ f bounds, seed = .func f bounds → g.Scheduled f) (run : g.resolveSeed output seed = .ok r) :
    r.value.Fits (· ∈ (g.func output).args) (g.Admits g.Scheduled) := by
  have args := Expr.fits_vars (κ := κ) (V := (· ∈ (g.func output).args)) (R := g.Admits g.Scheduled) fun x mem => mem
  have length : (g.func output).argExprs.length = (g.func output).dims := List.length_map _
  unfold resolveSeed at run
  cases seed with
  | func f bounds =>
    obtain ⟨_, rank, run⟩ := bind_eq_ok.mp run
    obtain ⟨-, -, run⟩ := bind_eq_ok.mp run
    obtain ⟨D, -, made⟩ := bind_eq_ok.mp run
    obtain rfl := pure_eq_ok.mp made
    exact Expr.fits_call.mpr ⟨⟨scheduled f bounds rfl, length.trans (checkRank_eq_ok rank).symm⟩, args⟩
  | buffer i =>
    obtain ⟨_, rank, made⟩ := bind_eq_ok.mp run
    obtain rfl := pure_eq_ok.mp made
    exact Expr.fits_load.mpr ⟨⟨trivial, length.trans (checkRank_eq_ok rank).symm⟩, args⟩
  | unit =>
    obtain ⟨D, -, made⟩ := bind_eq_ok.mp run
    obtain rfl := pure_eq_ok.mp made
    exact Expr.fits_const _

theorem scheduled_of_schedule {s : Schedule} (order : g.schedule f = .ok s) : g.Scheduled f :=
  ⟨f, s, order, (ordered_schedule order).2⟩

theorem adjoints_lawful [Extended κ] [ReflexiveIntegers κ] (wellFormed : g.WellFormed) {seed : Seed κ} {a : Adjoints κ}
    (scheduled : ∀ f bounds, seed = .func f bounds → g.Scheduled f) (run : g.adjoints output seed = .ok a) :
    a.graph.LawfulBeyond g := by
  have closed := wellFormed.closed
  obtain ⟨x, swept, made⟩ := bind_eq_ok.mp run
  obtain ⟨resolved, seeded, swept⟩ := bind_eq_ok.mp swept
  obtain ⟨s, order, swept⟩ := bind_eq_ok.mp swept
  obtain ⟨regions, -, swept⟩ := bind_eq_ok.mp swept
  obtain ⟨y, processed, final⟩ := bind_eq_ok.mp swept
  have order := mapError_eq_ok.mp order
  have start : (Sweep.start g regions).Lawful g g.Scheduled :=
    ⟨rfl, closed.start, fun added => absurd added (g.not_added _), fun none => absurd none List.not_mem_nil⟩
  have value := fits_resolveSeed scheduled (mapError_eq_ok.mp seeded)
  have seed : ((Sweep.start g regions).addSeed output resolved).Lawful g g.Scheduled := start.addTerm
    ((Expr.fits_containsExpr resolved.domain (Expr.fits_vars fun x mem => mem)).select value (Expr.fits_const _))
  have stages : ∀ e ∈ s.reversed, g.Scheduled e.1 := by
    rintro ⟨f, stage⟩ mem
    rw [Schedule.reversed, List.mem_reverse, (ordered_schedule order).1.stages] at mem
    obtain ⟨f, inside, listed⟩ := List.mem_flatMap.mp mem
    obtain ⟨e, -, same⟩ := List.mem_map.mp listed
    exact ⟨output, s, order, (Prod.mk.inj same).1 ▸ inside⟩
  obtain ⟨T, walked⟩ := seed.processAll closed wellFormed.args stages processed
  obtain ⟨T', settled⟩ := walked.settleAll wellFormed.args
  rw [← pure_eq_ok.mp made, ← pure_eq_ok.mp final]
  exact wellFormed.extend settled.extension fun f => settled.added

theorem tangents_lawful [Extended κ] (wellFormed : g.WellFormed) {directions : List (Name × FuncId)} {t : Tangents κ}
    (scheduled : ∀ e ∈ directions, g.Scheduled e.2) (run : g.tangents output directions = .ok t) :
    t.graph.LawfulBeyond g := by
  have closed := wellFormed.closed
  obtain ⟨seeds, directed, run⟩ := bind_eq_ok.mp run
  obtain ⟨s, order, run⟩ := bind_eq_ok.mp run
  have order := mapError_eq_ok.mp order
  obtain ⟨x, walked, run⟩ := bind_eq_ok.mp run
  have start : Tangents.State.Lawful ⟨{ graph := g }, .ofList seeds⟩ g g.Scheduled := by
    refine ⟨closed.start, fun added => absurd added (g.not_added _), fun {target t} active => ?_⟩
    rw [Table.get?_ofList] at active
    obtain ⟨e, first, rfl⟩ := Option.map_eq_some_iff.mp active
    obtain rfl : e.1 = target := by simpa using List.find?_some first
    obtain ⟨d, listed, directed⟩ := exists_of_mem_mapM directed (List.mem_reverse.mp (List.mem_of_find?_eq_some first))
    obtain ⟨-, own, rank⟩ := direction_eq_ok directed
    rw [own]
    exact ⟨scheduled d listed, rank.symm⟩
  obtain ⟨T, lawful⟩ := foldlM_preserves walked (fun x => ∃ T, Tangents.State.Lawful x g T) ⟨_, start⟩
    fun f mem y z ⟨T, before⟩ step => before.addFunc closed (wellFormed.args f) ⟨output, s, order, mem⟩ step
  split at run
  · rw [← pure_eq_ok.mp run]
    exact wellFormed.extend lawful.extension fun f => lawful.added
  · obtain rfl := pure_eq_ok.mp run
    have drafted : ((Tangents.tangentFunc g output).withInit .zero).Drafted (x.extension.graph.Admits T)
        x.extension.nextId := by
      refine ⟨fun found => ?_, fun mem => absurd mem List.not_mem_nil⟩
      obtain rfl := Option.some.inj found
      exact ⟨rfl, Expr.fits_const _⟩
    obtain ⟨pushed, widens, -⟩ := lawful.extension.push rfl drafted
    exact wellFormed.extend pushed fun f added =>
      (widens.added added).elim (fun old => Or.inl (lawful.added old)) fun new => new

/-- Differentiation of a well-formed graph, along funcs that have schedules, leads to a graph in which every func is as
the building operations would accept it and every new func has a schedule. -/
theorem derivatives_lawful [Extended κ] [ReflexiveIntegers κ] (wellFormed : g.WellFormed) :
    (∀ (output : FuncId) (seed : Seed κ) (a : Adjoints κ),
      (∀ f bounds, seed = .func f bounds → ∃ s, g.schedule f = .ok s) → g.adjoints output seed = .ok a →
        a.graph.LawfulBeyond g) ∧
    ∀ (output : FuncId) (directions : List (Name × FuncId)) (t : Tangents κ),
      (∀ e ∈ directions, ∃ s, g.schedule e.2 = .ok s) → g.tangents output directions = .ok t → t.graph.LawfulBeyond g :=
  ⟨fun _ _ _ seeded => adjoints_lawful wellFormed fun f bounds same =>
      (seeded f bounds same).elim fun _ => scheduled_of_schedule,
    fun _ _ _ directed => tangents_lawful wellFormed fun e mem => (directed e mem).elim fun _ => scheduled_of_schedule⟩

end Graph

instance {K : Type} [Field K] [LinearOrder K] [FloorRing K] [Transcendental K] : ReflexiveIntegers (Exact K) where
  equal_ofInt _ := decide_eq_true rfl

/-- `running` holds the elements of `data`, each but the first with `weight` times the sum before it added. -/
def scanning : Graph (Exact ℚ) where
  funcs := #[
    { name := "running", args := ["x"],
      init := some ⟨[.var "x"], .load ⟨0⟩ [.var "x"], none⟩,
      updates := [⟨[.rvar "r"], .binary .add (.call ⟨0⟩ [.rvar "r"])
        (.binary .mul (.param ⟨0⟩) (.call ⟨0⟩ [.binary .sub (.rvar "r") .one])), some ⟨[("r", ⟨1, 2⟩)]⟩⟩] },
    { name := "direction", args := ["x"], init := some ⟨[.var "x"], .binary .add (.var "x") .one, none⟩ }]
  buffers := #[⟨"data", .ofShape [3]⟩]
  params := #["weight"]

namespace scanning

theorem wellFormed : scanning.WellFormed := by
  have data : scanning.Takes (.buffer ⟨0⟩) 1 := ⟨rfl, nofun⟩
  have weight : scanning.Takes (.param ⟨0⟩) 0 := ⟨rfl, nofun⟩
  have running : (scanning.func ⟨0⟩).Drafted scanning.Takes ⟨0⟩ := by
    have own : Func.OrSelf scanning.Takes ⟨0⟩ (scanning.func ⟨0⟩).dims (.func ⟨0⟩) 1 := Or.inr ⟨rfl, rfl⟩
    refine ⟨fun found => ?_, fun mem => ?_⟩
    · obtain rfl := Option.some.inj found
      exact ⟨rfl, Expr.fits_load.mpr ⟨data, List.forall_mem_singleton.mpr (Expr.fits_var.mpr List.mem_cons_self)⟩⟩
    · obtain rfl := List.mem_singleton.mp mem
      refine ⟨Func.accepts_of_closed (R := scanning.Takes) rfl (by simp), ?_⟩
      have reads : Func.OrSelf scanning.Takes ⟨0⟩ (scanning.func ⟨0⟩).dims (.param ⟨0⟩) 0 := Or.inl weight
      simp [Definition.exprs, own, reads, Expr.one]
  have direction : (scanning.func ⟨1⟩).Drafted scanning.Takes ⟨1⟩ := by
    refine ⟨fun found => ?_, fun mem => absurd mem List.not_mem_nil⟩
    obtain rfl := Option.some.inj found
    exact ⟨rfl, Expr.fits_binary.mpr ⟨Expr.fits_var.mpr List.mem_cons_self, Expr.fits_const _⟩⟩
  have taken {id : FuncId} (inside : id.index < scanning.size) (t : Target) (n : Nat)
      (either : Func.OrSelf scanning.Takes id (scanning.func id).dims t n) : scanning.Takes t n := by
    rcases either with known | ⟨rfl, rfl⟩
    · exact known
    · exact ⟨rfl, fun f same => Target.func.inj same ▸ inside⟩
  refine ⟨?_, ?_, ?_⟩
  · rintro ⟨_ | _ | n⟩
    · exact running.lawful.mono (taken (by decide))
    · exact direction.lawful.mono (taken (by decide))
    · exact Func.lawful_default
  · rintro ⟨_ | _ | n⟩
    · exact List.nodup_singleton _
    · exact List.nodup_singleton _
    · exact List.nodup_nil
  · rintro ⟨_ | _ | n⟩ stage d rdom listed reduced
    · rcases Func.of_mem_definitions listed with ⟨-, found⟩ | ⟨-, mem⟩
      · obtain rfl := Option.some.inj found
        cases reduced
      · obtain rfl := List.mem_singleton.mp mem
        obtain rfl := Option.some.inj reduced
        exact List.nodup_singleton _
    · obtain ⟨-, found⟩ | ⟨-, mem⟩ := Func.of_mem_definitions listed
      · obtain rfl := Option.some.inj found
        cases reduced
      · cases mem
    · cases listed

theorem derivatives : scanning.WellFormed ∧
    (∃ a, scanning.adjoints ⟨0⟩ (.func ⟨1⟩ [(.ofInt 0, .ofInt 2)]) = .ok a ∧ a.graph.LawfulBeyond scanning) ∧
    ∃ t, scanning.tangents ⟨0⟩ [("data", ⟨1⟩)] = .ok t ∧ t.graph.LawfulBeyond scanning := by
  have reverse : (scanning.adjoints ⟨0⟩ (.func ⟨1⟩ [(.ofInt 0, .ofInt 2)])).toOption.isSome = true := by decide +kernel
  have forward : (scanning.tangents ⟨0⟩ [("data", ⟨1⟩)]).toOption.isSome = true := by decide +kernel
  obtain ⟨a, made⟩ := Option.isSome_iff_exists.mp reverse
  obtain ⟨t, moved⟩ := Option.isSome_iff_exists.mp forward
  have order : ∃ s, scanning.schedule ⟨1⟩ = .ok s := ⟨_, rfl⟩
  obtain ⟨adjoints, tangents⟩ := Graph.derivatives_lawful wellFormed
  refine ⟨wellFormed, ⟨a, toOption_eq_some.mp made, adjoints _ _ _ ?_ (toOption_eq_some.mp made)⟩,
    t, toOption_eq_some.mp moved, tangents _ _ _ ?_ (toOption_eq_some.mp moved)⟩
  · rintro f bounds same
    obtain ⟨rfl, -⟩ := Seed.func.inj same
    exact order
  · rintro e mem
    obtain rfl := List.mem_singleton.mp mem
    exact order

end scanning

end ArrayDiff
