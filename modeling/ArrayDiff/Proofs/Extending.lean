import ArrayDiff.Adjoint.Basic
import ArrayDiff.Proofs.Building
import ArrayDiff.Proofs.Growth
import ArrayDiff.Tangent

/-!
# Graphs that are extended

Differentiation makes its graph out of pushes under fresh names and of definitions that are put into what was pushed
(`Graph.extends_of_adjoints`, `Graph.extends_of_tangents`). Sending on the adjoint of a stage takes a few kinds of
steps, none of which settles a key (`Sweep.Steps`).
-/

namespace ArrayDiff

variable {κ : Type}

namespace Graph

/-- From `g` to `g'` funcs are pushed under fresh names, and funcs behind those of `g` are changed under their names. -/
inductive ExtendsTo (g : Graph κ) : Graph κ → Prop where
  | refl : ExtendsTo g g
  | push {g' : Graph κ} : ExtendsTo g g' → ∀ f, ExtendsTo g (g'.pushFresh f).2
  | modify {g' : Graph κ} {f : FuncId} {change : Func κ → Func κ} :
    ExtendsTo g g' → g.size ≤ f.index → (∀ func, (change func).name = func.name) → ExtendsTo g (g'.modifyFunc f change)

variable {g g' : Graph κ} {f : FuncId}

theorem GrowsTo.modifyFunc (grows : g.GrowsTo g') (new : g.size ≤ f.index) (change : Func κ → Func κ) :
    g.GrowsTo (g'.modifyFunc f change) := by
  refine ⟨?_, fun {h} old => ?_, grows.buffers, grows.params⟩
  · exact grows.size.trans_eq (Array.size_modify ..).symm
  · rw [func_modifyFunc, if_neg, grows.func old]
    rintro ⟨rfl, -⟩
    exact absurd old (Nat.not_lt.mpr new)

theorem ExtendsTo.grows (extended : g.ExtendsTo g') : g.GrowsTo g' := by
  induction extended with
  | refl => exact GrowsTo.refl g
  | push _ f ih => exact ih.trans (func_pushFresh _ f).2.2.1
  | modify _ new _ ih => exact ih.modifyFunc new _

theorem ExtendsTo.snapshot {x : Extension κ} (extended : g.ExtendsTo x.graph) (f : FuncId) (stage : Stage) :
    g.ExtendsTo (x.snapshot f stage).2.graph := by
  unfold Extension.snapshot
  dsimp only
  split
  · exact extended
  split
  · exact extended
  · exact extended.push _

end Graph

variable [Extended κ]

namespace Sweep

variable {x y : Sweep κ} {f source : FuncId} {d : Definition κ} {stage : Stage} {t : Step κ}

/-! ### Sending on -/

/-- From `x` to `y` terms are added, and funcs are pushed, copies of `source` among them. -/
inductive Steps (x : Sweep κ) (source : FuncId) : Sweep κ → Prop where
  | refl : Steps x source x
  | addTerm {y : Sweep κ} : Steps x source y → ∀ key term, Steps x source (y.addTerm key term)
  | snapshot {y : Sweep κ} : Steps x source y → ∀ stage, Steps x source (y.snapshot source stage).2
  | push {y : Sweep κ} : Steps x source y → ∀ f : Func κ, f.origin.isDerivative = true →
    Steps x source { y with extension := (y.extension.push f).2 }

theorem Steps.contribute (steps : x.Steps source y) (key : Key) (f : FuncId) (d : Definition κ) (args : List (Expr κ))
    (value : Expr κ) : x.Steps source (y.contribute key f d args value) := by
  unfold Sweep.contribute
  split
  · exact steps.addTerm key _
  · exact steps

theorem Steps.contributeAll {A : Type} (steps : x.Steps source y) (l : List A) (key : Key)
    (args : A → List (Expr κ)) (value : A → Expr κ) (f : FuncId) (d : Definition κ) :
    x.Steps source (l.foldl (fun s a => s.contribute key f d (args a) (value a)) y) := by
  induction l generalizing y with
  | nil => exact steps
  | cons a l ih => exact ih (steps.contribute key f d (args a) (value a))

theorem Steps.contributeReads {z : Sweep κ} {ps : List (Partial κ)} {adjoint : Expr κ} {copy : FuncId}
    (steps : x.Steps source y) (run : y.contributeReads f d ps adjoint copy = .ok z) : x.Steps source z := by
  refine foldlM_preserves run (fun z => x.Steps source z) steps ?_
  rintro p - y z before step
  split at step
  · rwa [← pure_eq_ok.mp step]
  · obtain ⟨key, -, sent⟩ := bind_eq_ok.mp step
    rw [← pure_eq_ok.mp sent]
    exact before.contribute key f d _ _

theorem steps_overwrite (run : x.overwrite t = .ok y) : x.Steps t.func y := by
  unfold overwrite at run
  dsimp only at run
  split at run
  · cases run
  have copied : x.Steps t.func (x.snapshot t.func t.prior).2 := Steps.refl.snapshot t.prior
  generalize x.snapshot t.func t.prior = snap at copied run
  obtain ⟨before, x'⟩ := snap
  refine Steps.contributeReads (Steps.contributeAll ?_ t.selfPartials t.priorKey (fun p => p.read.args)
    (fun p => Smart.mul (p.slope.redirect t.func before) (.call t.adjoint t.definition.lhs)) t.func t.definition) run
  split
  · exact (copied.addTerm _ _).addTerm _ _
  · exact copied

theorem steps_accumulate (run : x.accumulate t = .ok y) : x.Steps t.func y := by
  unfold accumulate at run
  dsimp only at run
  split at run
  · cases run
  split at run
  · cases run
  exact (Steps.refl.addTerm _ _).contributeReads run

theorem steps_scan {read : List (Expr κ)} {accumulates : Bool} (run : x.scan t read accumulates = .ok y) :
    x.Steps t.func y := by
  unfold scan at run
  dsimp only at run
  split at run
  swap
  · cases run
  have copied : x.Steps t.func (x.snapshot t.func t.stage).2 := Steps.refl.snapshot t.stage
  generalize x.snapshot t.func t.stage = snap at copied run
  obtain ⟨after, x'⟩ := snap
  obtain ⟨slope, -, run⟩ := bind_eq_ok.mp run
  refine Steps.contributeReads ?_ run
  split
  · exact (copied.push _ rfl).addTerm _ _
  · exact ((copied.push _ rfl).addTerm _ _).addTerm _ _

theorem process_steps (run : x.process f stage = .ok y) :
    ∃ progress, ({ x with progress }.settle ⟨.func f, stage⟩).2.Steps f y := by
  unfold process at run
  obtain ⟨progress, -, run⟩ := bind_eq_ok.mp run
  refine ⟨progress, ?_⟩
  generalize { x with progress }.settle ⟨.func f, stage⟩ = result at run ⊢
  obtain ⟨slot, x'⟩ := result
  dsimp only at run ⊢
  split at run
  swap
  · rw [pure_eq_ok.mp run]
    exact .refl
  split at run
  swap
  · exact Steps.refl.contributeReads run
  obtain ⟨kind, -, run⟩ := bind_eq_ok.mp run
  cases kind with
  | overwrite => exact steps_overwrite run
  | inPlace => exact steps_accumulate run
  | scan => exact steps_scan run

end Sweep

namespace Graph

variable {g : Graph κ} {f id : FuncId}

omit [Extended κ] in
theorem ExtendsTo.steps {x y : Sweep κ} (extended : g.ExtendsTo x.extension.graph) (steps : x.Steps f y) :
    g.ExtendsTo y.extension.graph := by
  induction steps with
  | refl => exact extended
  | addTerm _ key term ih => exact ih
  | snapshot _ stage ih => exact ih.snapshot f stage
  | push _ v _ ih => exact ih.push v

theorem ExtendsTo.settle {x : Sweep κ} (extended : g.ExtendsTo x.extension.graph) (key : Key) :
    g.ExtendsTo (x.settle key).2.extension.graph := by
  change g.ExtendsTo ((x.site key).materialize x.extension ((x.terms.get? key).getD [])).2.graph
  unfold Site.materialize
  dsimp only
  split
  · exact extended.push _
  · exact (extended.push _).push _

/-! ### The derivatives of a graph -/

theorem adjoints_eq_ok {output : FuncId} {seed : Seed κ} {a : Adjoints κ} (run : g.adjoints output seed = .ok a) :
    ∃ s regions resolved x, g.schedule output = .ok s ∧
      s.reversed.foldlM (fun x (f, stage) => x.process f stage)
        ((Sweep.start g regions).addSeed output resolved) = .ok x ∧
      ∃ y, y = s.leaves.foldl (fun x t => (x.settle ⟨t, .initial⟩).2) x ∧ a = ⟨y.extension.graph, output, y.slots⟩ := by
  obtain ⟨y, swept, made⟩ := bind_eq_ok.mp run
  obtain ⟨resolved, -, swept⟩ := bind_eq_ok.mp swept
  obtain ⟨s, order, swept⟩ := bind_eq_ok.mp swept
  obtain ⟨regions, -, swept⟩ := bind_eq_ok.mp swept
  obtain ⟨x, processed, final⟩ := bind_eq_ok.mp swept
  exact ⟨s, regions, resolved, x, mapError_eq_ok.mp order, processed, y, (pure_eq_ok.mp final).symm,
    (pure_eq_ok.mp made).symm⟩

theorem extends_of_adjoints {output : FuncId} {seed : Seed κ} {a : Adjoints κ} (run : g.adjoints output seed = .ok a) :
    g.ExtendsTo a.graph := by
  obtain ⟨s, regions, resolved, x, -, processed, y, settled, rfl⟩ := adjoints_eq_ok run
  have swept : g.ExtendsTo x.extension.graph := by
    refine foldlM_preserves processed (fun x => g.ExtendsTo x.extension.graph) .refl ?_
    rintro ⟨f, stage⟩ - x y before step
    obtain ⟨progress, steps⟩ := Sweep.process_steps step
    exact ExtendsTo.steps (ExtendsTo.settle (x := { x with progress }) before ⟨.func f, stage⟩) steps
  have leaves : ∀ (l : List Target) (x : Sweep κ), g.ExtendsTo x.extension.graph →
      g.ExtendsTo (l.foldl (fun x t => (x.settle ⟨t, .initial⟩).2) x).extension.graph := by
    intro l
    induction l with
    | nil => exact fun x before => before
    | cons t l ih => exact fun x before => ih _ (before.settle ⟨t, .initial⟩)
  rw [settled]
  exact leaves s.leaves x swept

theorem ExtendsTo.addDefinition {x y : Tangents.State κ} {stage : Stage} {d : Definition κ}
    (extended : g.ExtendsTo x.extension.graph) (new : g.size ≤ id.index)
    (run : Tangents.addDefinition g f id x stage d = .ok y) : g.ExtendsTo y.extension.graph := by
  unfold Tangents.addDefinition at run
  obtain ⟨valueStage, -, run⟩ := bind_eq_ok.mp run
  obtain rfl := pure_eq_ok.mp run
  refine ExtendsTo.modify ?_ new fun func => ?_
  · split
    · split
      · exact extended.snapshot f _
      · exact extended
    · exact extended
  · split <;> rfl

theorem ExtendsTo.addFunc {x y : Tangents.State κ} (extended : g.ExtendsTo x.extension.graph)
    (run : Tangents.addFunc g x f = .ok y) : g.ExtendsTo y.extension.graph := by
  unfold Tangents.addFunc at run
  dsimp only at run
  split at run
  · rwa [← pure_eq_ok.mp run]
  refine foldlM_preserves run (fun x => g.ExtendsTo x.extension.graph) (extended.push _) ?_
  rintro ⟨stage, d⟩ - y y' before step
  exact before.addDefinition extended.grows.size step

theorem extends_of_tangents {output : FuncId} {directions : List (Name × FuncId)} {t : Tangents κ}
    (run : g.tangents output directions = .ok t) : g.ExtendsTo t.graph := by
  obtain ⟨seeds, -, run⟩ := bind_eq_ok.mp run
  obtain ⟨s, -, run⟩ := bind_eq_ok.mp run
  obtain ⟨x, added, run⟩ := bind_eq_ok.mp run
  have extended : g.ExtendsTo x.extension.graph :=
    foldlM_preserves added (fun x => g.ExtendsTo x.extension.graph) .refl
      fun f _ y y' before step => before.addFunc step
  split at run
  · rwa [← pure_eq_ok.mp run]
  · rw [← pure_eq_ok.mp run]
    exact extended.push _

end Graph

end ArrayDiff
