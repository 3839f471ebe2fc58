import ArrayDiff.Proofs.Allocation
import ArrayDiff.Proofs.Classification
import ArrayDiff.Proofs.Fragments
import ArrayDiff.Proofs.Mirroring
import ArrayDiff.Proofs.Settlement

/-!
# Sweeps that add lawful funcs

All funcs that a sweep has added are lawful and can be computed, and the waiting terms fit their keys (`Sweep.Lawful`).
Every step of the sweep keeps this, for a set of funcs that grows.
-/

namespace ArrayDiff

variable {κ : Type}

/-- The func accepts the position, and all expressions fit. -/
structure Definition.Lawful (R : Target → Nat → Prop) (f : Func κ) (d : Definition κ) : Prop where
  accepts : f.Accepts d.lhs
  fits : ∀ e ∈ d.exprs, e.Fits d.Binds R

namespace Definition.Lawful

variable {R R' : Target → Nat → Prop} {f : Func κ} {d : Definition κ} {stage : Stage}

theorem of_func (h : f.Lawful R) (distinct : f.args.Nodup) (listed : (stage, d) ∈ f.definitions) : d.Lawful R f := by
  refine ⟨?_, h.fits listed⟩
  rcases Func.of_mem_definitions listed with ⟨-, found⟩ | ⟨-, mem⟩
  · rw [h.init found]
    exact Func.accepts_args distinct
  · exact h.update mem

theorem mono (h : d.Lawful R f) (wider : ∀ t n, R t n → R' t n) : d.Lawful R' f :=
  ⟨h.accepts, fun e own => (h.fits e own).mono (fun _ bound => bound) wider⟩

theorem lhs (h : d.Lawful R f) : ∀ a ∈ d.lhs, a.Fits d.Binds R := fun a mem => h.fits a (List.mem_append_left _ mem)

theorem value (h : d.Lawful R f) : d.value.Fits d.Binds R := h.fits d.value (List.mem_append_right _ List.mem_cons_self)

theorem call (h : d.Lawful R f) {g : FuncId} (arity : R (.func g) f.dims) : (Expr.call g d.lhs).Fits d.Binds R :=
  Expr.fits_call.mpr ⟨h.accepts.length.symm ▸ arity, h.lhs⟩

end Definition.Lawful

namespace Extension.Lawful

variable {x : Extension κ} {g : Graph κ} {T : FuncId → Prop} {f copy : FuncId} {V : Name → Prop} {e : Expr κ}

theorem known (h : x.Lawful g T) (t : Target) (n : Nat) (admitted : g.Admits g.Scheduled t n) : x.graph.Admits T t n :=
  admitted.mono (fun _ scheduled => ⟨h.base scheduled, h.grows.func scheduled.index_lt⟩) h.grows.buffers

theorem fits (h : x.Lawful g T) (fits : e.Fits V (g.Admits g.Scheduled)) : e.Fits V (x.graph.Admits T) :=
  fits.mono (fun _ free => free) h.known

theorem fits_redirect (h : x.Lawful g T) (scheduled : g.Scheduled f)
    (copied : x.graph.Admits T (.func copy) (g.func f).dims) (fits : e.Fits V (g.Admits g.Scheduled)) :
    (e.redirect f copy).Fits V (x.graph.Admits T) := by
  refine (h.fits fits).redirect fun n reads => ?_
  rw [reads.2, ← (h.admits scheduled).2]
  exact copied

end Extension.Lawful

variable [Extended κ]

namespace Sweep

variable {x y : Sweep κ} {g : Graph κ} {T T' : FuncId → Prop} {key : Key} {f copy : FuncId} {d : Definition κ}
  {stage : Stage} {t : Step κ}

theorem extension_contribute (x : Sweep κ) (key : Key) (f : FuncId) (d : Definition κ) (args : List (Expr κ))
    (value : Expr κ) : (x.contribute key f d args value).extension = x.extension := by
  unfold contribute
  split <;> rfl

/-- All added funcs are among `T`, whose funcs are lawful, and the terms of every key fit its target. -/
structure Lawful (x : Sweep κ) (g : Graph κ) (T : FuncId → Prop) : Prop where
  source : x.source = g
  extension : x.extension.Lawful g T
  added {f : FuncId} : x.extension.Added g f → T f
  terms {key : Key} {t : Term κ} : t ∈ (x.terms.get? key).getD [] →
    t.Fits (g.argsOf key.target) (x.extension.graph.Admits T)

namespace Lawful

omit [Extended κ] in
theorem extend (h : x.Lawful g T) (source : y.source = x.source)
    (terms : ∀ key t, t ∈ (y.terms.get? key).getD [] → t ∈ (x.terms.get? key).getD [])
    (lawful : y.extension.Lawful g T') (widens : x.extension.Widens g T y.extension T') : y.Lawful g T' := by
  refine ⟨source.trans h.source, lawful, fun added => ?_, fun mem => ?_⟩
  · exact (widens.added added).elim (fun before => widens.sub (h.added before)) fun own => own
  · exact (h.terms (terms _ _ mem)).mono fun t n => widens.admits

omit [Extended κ] in
theorem addTerm (h : x.Lawful g T) {t : Term κ} (fits : t.Fits (g.argsOf key.target) (x.extension.graph.Admits T)) :
    (x.addTerm key t).Lawful g T := by
  refine ⟨h.source, h.extension, h.added, fun {k u} mem => ?_⟩
  change u ∈ ((x.terms.insert key _).get? k).getD [] at mem
  rw [Table.get?_insert] at mem
  split at mem
  · rename_i same
    subst same
    rcases List.mem_append.mp mem with old | new
    · exact h.terms old
    · rwa [List.mem_singleton.mp new]
  · exact h.terms mem

theorem contribute (h : x.Lawful g T) (own : d.Lawful (x.extension.graph.Admits T) (g.func f)) {args : List (Expr κ)}
    {value : Expr κ} (length : args.length = g.dimsOf key.target)
    (position : ∀ a ∈ args, a.Fits d.Binds (x.extension.graph.Admits T))
    (fits : value.Fits d.Binds (x.extension.graph.Admits T)) : (x.contribute key f d args value).Lawful g T := by
  unfold Sweep.contribute
  rw [h.source]
  split
  · rename_i term made
    exact h.addTerm (fits_contribution own.accepts (length.trans (g.length_argsOf _).symm) position fits made)
  · exact h

theorem contributePartial (h : x.Lawful g T) (scheduled : g.Scheduled f)
    (own : d.Lawful (g.Admits g.Scheduled) (g.func f)) {p : Partial κ} (fits : p.Fits d.Binds (g.Admits g.Scheduled))
    {adjoint : Expr κ} (sent : adjoint.Fits d.Binds (x.extension.graph.Admits T))
    (copied : x.extension.graph.Admits T (.func copy) (g.func f).dims) (target : key.target = p.read.target) :
    (x.contribute key f d p.read.args (Smart.mul (p.slope.redirect f copy) adjoint)).Lawful g T := by
  refine h.contribute (own.mono h.extension.known) (target ▸ fits.read.2)
    (fun a mem => h.extension.fits (fits.args a mem)) ?_
  exact (h.extension.fits_redirect scheduled copied fits.slope).mul sent

theorem contributeReads (h : x.Lawful g T) (scheduled : g.Scheduled f)
    (own : d.Lawful (g.Admits g.Scheduled) (g.func f)) {adjoint : Expr κ}
    (sent : adjoint.Fits d.Binds (x.extension.graph.Admits T))
    (copied : x.extension.graph.Admits T (.func copy) (g.func f).dims)
    (run : x.contributeReads f d d.value.partials adjoint copy = .ok y) : y.Lawful g T := by
  have partials := Expr.fits_partials own.value
  refine (foldlM_preserves run (fun y => y.Lawful g T ∧ y.extension = x.extension) ⟨h, rfl⟩ ?_).1
  rintro p listed y z ⟨before, same⟩ step
  split at step
  · obtain rfl := pure_eq_ok.mp step
    exact ⟨before, same⟩
  · obtain ⟨key, keyed, made⟩ := bind_eq_ok.mp step
    obtain rfl := pure_eq_ok.mp made
    have target : key.target = p.read.target := by
      rw [keyRead_eq keyed, Graph.keyOf_target]
    exact ⟨before.contributePartial scheduled own (partials p listed) (same ▸ sent) (same ▸ copied) target,
      (extension_contribute ..).trans same⟩

omit [Extended κ] in
theorem snapshot (h : x.Lawful g T) (scheduled : g.Scheduled f) (stage : Stage) :
    ∃ T', (x.snapshot f stage).2.Lawful g T' ∧ x.extension.Widens g T (x.snapshot f stage).2.extension T' ∧
      (x.snapshot f stage).2.extension.graph.Admits T' (.func (x.snapshot f stage).1) (g.func f).dims := by
  obtain ⟨T', lawful, widens, copied⟩ := h.extension.snapshot scheduled stage
  exact ⟨T', h.extend rfl (fun _ _ mem => mem) lawful widens, widens, copied⟩

theorem settle (h : x.Lawful g T) (key : Key) (distinct : (g.argsOf key.target).Nodup) :
    ∃ T', (x.settle key).2.Lawful g T' ∧
      (x.settle key).2.extension.graph.Admits T' (.func (x.settle key).1.bounded) (g.dimsOf key.target) := by
  have args : (x.site key).args = g.argsOf key.target := by rw [← h.source]; rfl
  have fits : ∀ t ∈ (x.terms.get? key).getD [], t.Fits (x.site key).args (x.extension.graph.Admits T) :=
    fun t mem => args ▸ h.terms mem
  obtain ⟨T', lawful, widens, admitted⟩ := Site.lawful_materialize h.extension (args ▸ distinct) fits
  refine ⟨T', h.extend rfl (fun k u mem => ?_) lawful widens, ?_⟩
  · change u ∈ ((x.terms.erase key).get? k).getD [] at mem
    rw [Table.get?_erase] at mem
    split at mem
    · cases mem
    · exact mem
  · rw [args, g.length_argsOf] at admitted
    exact admitted

end Lawful

/-! ### Updates -/

/-- An update of a func that can be called, and its adjoint, called like the func. -/
structure Step.Lawful (t : Step κ) (x : Sweep κ) (g : Graph κ) (T : FuncId → Prop) : Prop where
  scheduled : g.Scheduled t.func
  definition : t.definition.Lawful (g.Admits g.Scheduled) (g.func t.func)
  adjoint : x.extension.graph.Admits T (.func t.adjoint) (g.func t.func).dims

namespace Step.Lawful

section

omit [Extended κ]

theorem widen (h : t.Lawful x g T) (widens : x.extension.Widens g T y.extension T') : t.Lawful y g T' :=
  ⟨h.scheduled, h.definition, widens.admits h.adjoint⟩

theorem atLhs (h : t.Lawful x g T) (lawful : x.Lawful g T) {v : FuncId}
    (arity : x.extension.graph.Admits T (.func v) (g.func t.func).dims) :
    (Expr.call v t.definition.lhs).Fits t.definition.Binds (x.extension.graph.Admits T) :=
  (h.definition.mono lawful.extension.known).call arity

theorem fits_pass {v : FuncId} (arity : x.extension.graph.Admits T (.func v) (g.func t.func).dims) :
    (Term.gather (κ := κ) (.call v (g.func t.func).argExprs)).Fits (g.argsOf t.priorKey.target)
      (x.extension.graph.Admits T) :=
  Expr.fits_callVars arity

theorem fits_mask (h : t.Lawful x g T) (lawful : x.Lawful g T) (rdom : Option ReductionDomain) :
    (Term.mask t.definition.lhs rdom).Fits (g.argsOf t.priorKey.target) (x.extension.graph.Admits T) :=
  ⟨fun _ same => h.definition.accepts.congr same,
    fun e mem => (lawful.extension.fits (h.definition.lhs e mem)).mono (fun _ _ => trivial) fun _ _ r => r⟩

end

theorem partials (h : t.Lawful x g T) : ∀ p ∈ t.partials, p.Fits t.definition.Binds (g.Admits g.Scheduled) :=
  Expr.fits_partials h.definition.value

end Step.Lawful

namespace Lawful

theorem contributeSelf (h : x.Lawful g T) (own : t.Lawful x g T) {adjoint : Expr κ}
    (sent : adjoint.Fits t.definition.Binds (x.extension.graph.Admits T))
    (copied : x.extension.graph.Admits T (.func copy) (g.func t.func).dims) :
    let z := t.selfPartials.foldl (fun z p =>
      z.contribute t.priorKey t.func t.definition p.read.args (Smart.mul (p.slope.redirect t.func copy) adjoint)) x
    z.Lawful g T ∧ z.extension = x.extension := by
  refine List.foldlRecOn (motive := fun z : Sweep κ => z.Lawful g T ∧ z.extension = x.extension) _ _ ⟨h, rfl⟩ ?_
  intro z ⟨lawful, same⟩ p mem
  obtain ⟨listed, self⟩ := List.mem_filter.mp mem
  exact ⟨lawful.contributePartial own.scheduled own.definition (own.partials p listed) (same ▸ sent) (same ▸ copied)
    (of_decide_eq_true self).symm, (extension_contribute ..).trans same⟩

theorem overwrite (h : x.Lawful g T) (own : t.Lawful x g T) (run : x.overwrite t = .ok y) : ∃ T', y.Lawful g T' := by
  unfold Sweep.overwrite at run
  dsimp only at run
  split at run
  · cases run
  -- slopes take the values of the func from a copy before the stage
  obtain ⟨T', lawful, widens, copied⟩ := h.snapshot own.scheduled t.prior
  generalize x.snapshot t.func t.prior = snap at lawful widens copied run
  obtain ⟨before, x'⟩ := snap
  dsimp only at lawful widens copied run
  have own := own.widen widens
  have sent := own.atLhs lawful own.adjoint
  rw [lawful.source] at run
  generalize made : (if t.definition.rdom.isSome || !Expr.sameList t.definition.lhs (g.func t.func).argExprs then _
    else x') = kept at run
  have start : kept.Lawful g T' ∧ kept.extension = x'.extension := by
    rw [← made]
    split
    · exact ⟨(lawful.addTerm (Step.Lawful.fits_pass own.adjoint)).addTerm (own.fits_mask lawful _), rfl⟩
    · exact ⟨lawful, rfl⟩
  obtain ⟨kept', same⟩ := start
  have own : t.Lawful kept g T' := ⟨own.scheduled, own.definition, same ▸ own.adjoint⟩
  obtain ⟨passed, same'⟩ := kept'.contributeSelf own (same ▸ sent) (same ▸ copied)
  rw [← same] at sent copied
  rw [← same'] at sent copied
  exact ⟨T', passed.contributeReads own.scheduled own.definition sent copied run⟩

theorem accumulate (h : x.Lawful g T) (own : t.Lawful x g T) (run : x.accumulate t = .ok y) : y.Lawful g T := by
  unfold Sweep.accumulate at run
  dsimp only at run
  split at run
  · cases run
  split at run
  · cases run
  rw [h.source] at run
  have passed := h.addTerm (Step.Lawful.fits_pass own.adjoint)
  exact passed.contributeReads own.scheduled own.definition (own.atLhs h own.adjoint) (h.extension.admits own.scheduled) run

end Lawful

/-! ### Scans -/

theorem fits_scanSlope (lawful : x.Lawful g T) (own : t.Lawful x g T)
    (copied : x.extension.graph.Admits T (.func copy) (g.func t.func).dims) {read : List (Expr κ)} {slope : Expr κ}
    (run : x.scanSlope t read copy = .ok slope) : slope.Fits t.definition.Binds (x.extension.graph.Admits T) := by
  refine foldlM_preserves run (fun slope => slope.Fits t.definition.Binds (x.extension.graph.Admits T))
    (Expr.fits_const _) ?_
  rintro p mem e e' before step
  split at step
  · rw [← pure_eq_ok.mp step]
    exact lawful.extension.fits_redirect own.scheduled copied (own.partials p (List.mem_filter.mp mem).1).slope
  split at step
  · rwa [← pure_eq_ok.mp step]
  · cases step

section Scans

variable [ReflexiveIntegers κ] {read : List (Expr κ)} {slope : Expr κ} {accumulates : Bool} {rdom : ReductionDomain}

theorem drafted_scanFunc (lawful : x.Lawful g T) (own : t.Lawful x g T) 
    (kind : t.definition.kindFor t.func = .ok (.scan read accumulates)) (reduced : t.definition.rdom = some rdom)
    (fits : slope.Fits t.definition.Binds (x.extension.graph.Admits T)) (v : FuncId) :
    (x.scanFunc t v read slope rdom).Drafted (x.extension.graph.Admits T) v := by
  obtain ⟨written, once, seen, r, listed, self, args⟩ := scan_of_kindFor kind reduced
  have definition := own.definition.mono lawful.extension.known
  have adjoint := own.adjoint
  -- the position that is read is that of a call in the value, and has its arity
  have arity := own.definition.value.reads listed
  rw [self, args] at arity
  have length : read.length = t.definition.lhs.length := arity.2.trans own.definition.accepts.length.symm
  have inside : ∀ a ∈ read, a.Fits t.definition.Binds (x.extension.graph.Admits T) :=
    args ▸ definition.value.args listed
  have accepted := accepts_reflect definition.accepts once seen length inside
  have bound (y : Name) : t.definition.Binds y → (scanUpdate t.definition v read slope rdom).Binds y :=
    binds_reflect definition.accepts once seen length rfl
  have own {e : Expr κ} (fits : e.Fits t.definition.Binds (x.extension.graph.Admits T)) :
      (reflect rdom e).Fits (scanUpdate t.definition v read slope rdom).Binds
        (Func.OrSelf (x.extension.graph.Admits T) v (g.func t.func).dims) :=
    fits_reflect (fits.mono bound fun t n => Or.inl)
  have call {es : List (Expr κ)} (length : es.length = (g.func t.func).dims)
      (fits : ∀ e ∈ es, e.Fits t.definition.Binds (x.extension.graph.Admits T)) :
      (Expr.call v (es.map (reflect rdom))).Fits (scanUpdate t.definition v read slope rdom).Binds
        (Func.OrSelf (x.extension.graph.Admits T) v (g.func t.func).dims) :=
    Expr.fits_call.mpr ⟨Or.inr ⟨rfl, (List.length_map _).trans length⟩,
      List.forall_mem_map.mpr fun e mem => own (fits e mem)⟩
  unfold scanFunc
  rw [lawful.source]
  refine ⟨fun found => ?_, fun {d} mem => ?_⟩
  · obtain rfl := Option.some.inj found
    exact ⟨rfl, Expr.fits_callVars adjoint⟩
  · obtain rfl := List.mem_singleton.mp mem
    refine ⟨accepted.congr rfl, List.forall_mem_append.mpr ⟨?_, List.forall_mem_singleton.mpr ?_⟩⟩
    · exact List.forall_mem_map.mpr fun e mem => own (inside e mem)
    · exact (call arity.2 inside).add ((own fits).mul (call definition.accepts.length definition.lhs))

theorem Lawful.scan (h : x.Lawful g T) (own : t.Lawful x g T)
    (kind : t.definition.kindFor t.func = .ok (.scan read accumulates)) (run : x.scan t read accumulates = .ok y) :
    ∃ T', y.Lawful g T' := by
  unfold Sweep.scan at run
  dsimp only at run
  split at run
  swap
  · cases run
  rename_i rdom reduced
  -- slopes take the values of the func from a copy after the stage, where iterations have left theirs
  obtain ⟨T₁, lawful, widens, copied⟩ := h.snapshot own.scheduled t.stage
  generalize x.snapshot t.func t.stage = snap at lawful widens copied run
  obtain ⟨after, x'⟩ := snap
  dsimp only at lawful widens copied run
  obtain rfl := lawful.source
  have own := own.widen widens
  obtain ⟨slope, sloped, run⟩ := bind_eq_ok.mp run
  have fits := fits_scanSlope lawful own copied sloped
  obtain ⟨pushed, widens', admitted⟩ := lawful.extension.push rfl
    (drafted_scanFunc lawful own kind reduced fits x'.extension.nextId)
  generalize x'.extension.push _ = result at pushed widens' admitted run
  obtain ⟨v, extension⟩ := result
  have lawful : Sweep.Lawful { x' with extension } x'.source _ := lawful.extend rfl (fun _ _ mem => mem) pushed widens'
  have own := own.widen (y := { x' with extension }) widens'
  have passed := lawful.addTerm (Step.Lawful.fits_pass admitted)
  have copied := widens'.admits copied
  have sent := own.atLhs lawful admitted
  refine ⟨fun k => T₁ k ∨ k = x'.extension.nextId, ?_⟩
  dsimp only at run
  split at run
  · exact passed.contributeReads own.scheduled own.definition sent copied run
  · exact (passed.addTerm (own.fits_mask lawful _)).contributeReads own.scheduled own.definition sent copied run

end Scans

/-! ### The walk -/

section Walk

variable [ReflexiveIntegers κ] (closed : g.Closed g.Scheduled) (names : ∀ f, (g.func f).args.Nodup)
include closed names

theorem Lawful.process (h : x.Lawful g T) (scheduled : g.Scheduled f) (run : x.process f stage = .ok y) :
    ∃ T', y.Lawful g T' := by
  unfold Sweep.process at run
  obtain ⟨progress, -, run⟩ := bind_eq_ok.mp run
  have begun : Sweep.Lawful { x with progress } g T := ⟨h.source, h.extension, h.added, h.terms⟩
  obtain ⟨T', settled, admitted⟩ := begun.settle ⟨.func f, stage⟩ (names f)
  generalize { x with progress }.settle ⟨.func f, stage⟩ = result at settled admitted run
  obtain ⟨slot, x'⟩ := result
  dsimp only at settled admitted run
  rw [settled.source] at run
  split at run
  swap
  · rw [← pure_eq_ok.mp run]
    exact ⟨T', settled⟩
  rename_i d found
  have own : d.Lawful (g.Admits g.Scheduled) (g.func f) :=
    .of_func (closed.lawful scheduled) (names f) (Func.mem_definitions.mpr found)
  split at run
  swap
  · have sent := (own.mono settled.extension.known).call admitted
    exact ⟨T', settled.contributeReads scheduled own sent (settled.extension.admits scheduled) run⟩
  rename_i prior _
  obtain ⟨kind, classified, run⟩ := bind_eq_ok.mp run
  have update : Step.Lawful ⟨f, stage, prior, d, slot.bounded⟩ x' g T' := ⟨scheduled, own, admitted⟩
  cases kind with
  | overwrite => exact settled.overwrite update run
  | inPlace => exact ⟨T', settled.accumulate update run⟩
  | scan read accumulates => exact settled.scan update (mapError_eq_ok.mp classified) run

theorem Lawful.processAll {stages : List (FuncId × Stage)} (h : x.Lawful g T)
    (scheduled : ∀ e ∈ stages, g.Scheduled e.1) (run : stages.foldlM (fun x (f, stage) => x.process f stage) x = .ok y) :
    ∃ T', y.Lawful g T' := by
  refine foldlM_preserves run (fun y => ∃ T', y.Lawful g T') ⟨T, h⟩ ?_
  rintro ⟨f, stage⟩ mem y z ⟨T', before⟩ step
  exact before.process closed names (scheduled (f, stage) mem) step

omit [ReflexiveIntegers κ] closed in
theorem Lawful.settleAll {leaves : List Target} (h : x.Lawful g T) :
    ∃ T', (leaves.foldl (fun x t => (x.settle ⟨t, .initial⟩).2) x).Lawful g T' := by
  have distinct (t : Target) : (g.argsOf t).Nodup := by
    cases t with
    | func f => exact names f
    | buffer b => exact g.nodup_argsOf_buffer b
    | param _ => exact List.nodup_nil
  refine List.foldlRecOn leaves (motive := fun y : Sweep κ => ∃ T', y.Lawful g T') _ ⟨T, h⟩ ?_
  rintro y ⟨T', before⟩ t -
  obtain ⟨T'', lawful, -⟩ := before.settle ⟨t, .initial⟩ (distinct t)
  exact ⟨T'', lawful⟩

end Walk

end Sweep

end ArrayDiff
