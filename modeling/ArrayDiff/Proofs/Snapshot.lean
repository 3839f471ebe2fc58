import ArrayDiff.Proofs.Copying
import ArrayDiff.Proofs.Independence

/-!
# Snapshots hold the intermediate state

While a func is realized, its storage passes through the state after each of its stages (`Graph.storageAfter`). A copy
that lacks the updates after a stage is realized over another region, where no later update asks for more. It gives the
values of that state (`Graph.Copies.realize`), and so do all copies that differentiation makes (`Graph.snapshots_hold`).
-/

namespace ArrayDiff

variable {κ α : Type}

/-! ### Regions that nobody asks for -/

section Regions

variable [Extended κ] {g : Graph κ} {s : Schedule} {root h : FuncId} {D : Domain} {regions : Regions}

theorem Graph.get?_inferRegions_of_notMem (ordered : s.Ordered g) (mem : root ∈ s.funcs) (unlisted : h ∉ s.funcs)
    (run : g.inferRegions s root D = .ok regions) : regions.get? h = none := by
  have kept {f : FuncId} (listed : f ∈ s.funcs) (r : Regions) (region : Domain) :
      (r.insert f region).get? h = r.get? h := by
    rw [Table.get?_insert, if_neg fun same : f = h => unlisted (same ▸ listed)]
  refine foldlM_preserves run (fun r => r.get? h = none) ?_ fun f listed r r' before step => ?_
  · rw [kept mem, Table.get?_empty]
  have listed := List.mem_reverse.mp listed
  obtain ⟨region, -, step⟩ := bind_eq_ok.mp step
  refine foldlM_preserves step (fun r => r.get? h = none) ((kept listed r region).trans before) ?_
  rintro ⟨stage, d⟩ defined r r' before step
  unfold requestReads at step
  dsimp only at step
  split at step
  · rwa [← pure_eq_ok.mp step]
  refine foldlM_preserves step (fun r => r.get? h = none) before fun access inside r r' before step => ?_
  split at step
  · rename_i k target
    split at step
    · rwa [← pure_eq_ok.mp step]
    · obtain ⟨wanted, -, step⟩ := bind_eq_ok.mp step
      obtain ⟨e, own, inside⟩ := List.mem_flatMap.mp inside
      have read := List.mem_flatMap.mpr ⟨e, own, (Expr.read_of_mem_accesses inside).1⟩
      have known : k ∈ s.funcs := ordered.lists listed (t := .func k) ⟨d, defined, access.read, read, target⟩
      rw [← pure_eq_ok.mp step, kept known]
      exact before
  · rwa [← pure_eq_ok.mp step]

theorem Domain.addressed_empty [Scalar α] [Embed κ α] (dims : Nat) : (empty dims).Addressed κ α := by
  intro i mem v least most
  obtain rfl := List.eq_of_mem_replicate mem
  exact absurd (least.trans most) (by decide)

end Regions

/-! ### The state after a stage -/

section State

variable [Scalar κ] [Scalar α] [Embed κ α] {j : Job κ α} {f : FuncId} {m m' : Memory α} {u : Unit}

namespace Job

/-- A func with updates is computed when its first value is wanted, and then answers from its storage. -/
theorem materialize_of_mapM {n : Nat} {points : List (List Int)} {values : List α}
    (updates : (j.graph.func f).updates ≠ []) (some : points ≠ [])
    (run : points.mapM (j.call (n + 1) f) m = .ok (values, m')) (first : m.stored.get? f = none) :
    ∃ m₁, j.materialize (j.reader (j.call n)) f m = .ok ((), m₁) ∧
      ∀ S, m₁.stored.get? f = .some S → List.Forall₂ (fun p v => S.get? p = .some v) points values := by
  cases points with
  | nil => exact absurd rfl some
  | cons p points =>
    rw [List.mapM_cons] at run
    obtain ⟨v, m₂, called, run⟩ := run_bind_ok.mp run
    obtain ⟨vs, m₃, rest, made⟩ := run_bind_ok.mp run
    obtain ⟨rfl, rfl⟩ := run_pure_ok.mp made
    obtain ⟨_, m₁, prepared, valued⟩ := run_bind_ok.mp called
    have empty : (!(j.graph.func f).updates.isEmpty && !m.stored.contains f) = true := by
      simp [Table.contains, first, updates]
    unfold prepare at prepared
    rw [run_get_bind, if_pos empty] at prepared
    refine ⟨m₁, prepared, fun S held => ?_⟩
    obtain ⟨rfl, found⟩ := valueAt_stored held valued
    refine .cons found (run_mapM_ok (fun m => m.stored.get? f = .some S) _ ?_ held rest).2
    intro q _ m v m' held run
    obtain ⟨rfl, found⟩ := call_self held run
    exact ⟨held, found⟩

theorem fill_of_materialize {reader : Reader (Run α) α} {ds : List (Definition κ)}
    (first : ds <+: (j.graph.func f).updates) (run : j.materialize reader f m = .ok (u, m')) :
    ∃ m₁ rest, (j.graph.func f).updates = ds ++ rest ∧ j.fill reader f ds m = .ok ((), m₁) ∧
      rest.forM (j.runUpdate reader f (j.regions.of j.graph f)) m₁ = .ok (u, m') := by
  obtain ⟨rest, split⟩ := first
  rw [materialize_eq_fill, ← split, fill_append] at run
  obtain ⟨_, m₁, filled, run⟩ := run_bind_ok.mp run
  exact ⟨m₁, rest, split.symm, filled, run⟩

end Job

end State

namespace Graph

variable [Extended κ] [Scalar α] [Embed κ α] {g : Graph κ} {b : Bindings α} {f copy : FuncId} {stage : Stage}
  {D : Domain} {t t' : Tensor α}

/-- The storage of `f` right after the stage, before the next update, when `f` is realized over a domain. -/
def storageAfter (g : Graph κ) (f : FuncId) (domain : Domain) (bindings : Bindings α) (stage : Stage) :
    Except EvalError (Option (Storage α)) := do
  let schedule ← (g.schedule f).mapError .graph
  let regions ← (g.inferRegions schedule f domain).mapError .shape
  let job : Job κ α := ⟨g, bindings, regions⟩
  let updates := ((g.func f).truncate stage).updates
  let (_, memory) ← (job.fill (job.reader (job.call schedule.funcs.length)) f updates).run {}
  return memory.stored.get? f

/-- With answers for what `f` depends on, the state after a stage is what `f` holds without the later updates. -/
theorem storageAfter_of_realize {s : Schedule} {regions : Regions} {P : Answers α} (order : g.schedule f = .ok s)
    (inferred : g.inferRegions s f D = .ok regions) (serves : P.Serves ⟨g, b, regions⟩ (· ∈ s.funcs))
    (updates : (g.func f).updates ≠ []) (run : g.realize f D b = .ok t) {p : List Int} (mem : p ∈ D.points)
    (stage : Stage) : ∃ S, g.storageAfter f D b stage = .ok (some S) ∧ p ∈ (regions.of g f).points ∧
      ((g.func f).truncate stage).contents? P f (regions.of g f) = some S.get? := by
  obtain ⟨_, order', realized⟩ := bind_eq_ok.mp run
  obtain rfl := Except.ok.inj (order.symm.trans (mapError_eq_ok.mp order'))
  obtain ⟨_, inferred', realized⟩ := bind_eq_ok.mp realized
  obtain rfl := Except.ok.inj (inferred.symm.trans (mapError_eq_ok.mp inferred'))
  obtain ⟨⟨values, m⟩, mapped, -⟩ := bind_eq_ok.mp realized
  obtain ⟨ordered, listed⟩ := ordered_schedule order
  have calls := Job.call_sound (j := (⟨g, b, regions⟩ : Job κ α)) ordered.layered serves s.funcs.length
  have empty : Memory.Faithful ({} : Memory α) P s.funcs.idxOf (s.funcs.idxOf f) := by
    refine ⟨fun _ found => ?_, fun _ found => ?_⟩
    · cases found
    · cases found
  obtain ⟨m₁, computed, answers⟩ := Job.materialize_of_mapM updates (List.ne_nil_of_mem mem) mapped rfl
  have first := (g.func f).truncate_updates_prefix_self stage
  obtain ⟨m₂, rest, -, filled, -⟩ := Job.fill_of_materialize first computed
  obtain ⟨C, run, state⟩ := Job.fill_ok ordered.layered serves calls listed (fun _ inside => first.subset inside)
    empty filled
  obtain ⟨S, held, -, -, rfl⟩ := state.held
  refine ⟨S, ?_, ?_, ?_⟩
  · refine bind_eq_ok.mpr ⟨s, mapError_eq_ok.mpr order, bind_eq_ok.mpr ⟨regions, mapError_eq_ok.mpr inferred, ?_⟩⟩
    exact bind_eq_ok.mpr ⟨((), m₂), filled, congrArg Except.ok held⟩
  · obtain ⟨C, final, done⟩ := Job.materialize_ok ordered.layered serves calls listed empty computed
    obtain ⟨S', held, -, -, rfl⟩ := done.held
    obtain ⟨i, bound, rfl⟩ := List.mem_iff_getElem.mp mem
    have same := answers S' held
    have found := same.get bound (same.length_eq ▸ bound)
    exact (Func.isSome_of_contents? final _).mp (Option.isSome_of_eq_some found)
  · rw [Func.truncate_eq]
    exact run

/-! ### Copies -/

theorem AddressedOver.addressed {s : Schedule} {regions : Regions} {h : FuncId} (addressed : g.AddressedOver α f D)
    (order : g.schedule f = .ok s) (inferred : g.inferRegions s f D = .ok regions) (updates : (g.func h).updates ≠ []) :
    (regions.of g h).Addressed κ α := by
  by_cases listed : h ∈ s.funcs
  · exact addressed s order regions inferred h listed updates
  · obtain ⟨ordered, mem⟩ := ordered_schedule order
    unfold Regions.of
    rw [get?_inferRegions_of_notMem ordered mem listed inferred]
    exact Domain.addressed_empty _

section

omit [Extended κ]

theorem Copies.reaches (copies : g.Copies copy f stage) (layered : ¬(g.func f).Reads .initial (.func f)) {t : Target}
    (reached : g.Reaches copy t) : t = .func copy ∨ g.Reaches f t := by
  refine reached.closed (T := fun t => t = .func copy ∨ g.Reaches f t) (Or.inl rfl) fun h st t known reads => ?_
  rcases known with self | known
  · obtain rfl := Target.func.inj self
    exact (copies.reads layered reads).imp And.left (.read .root)
  · exact Or.inr (known.read reads)

theorem Copies.ordered {s : Schedule} (copies : g.Copies copy f stage) (order : g.schedule f = .ok s)
    (apart : copy ∉ s.funcs) : (s.addFunc copy ((g.func copy).definitions.map (·.1))).Ordered g := by
  obtain ⟨ordered, mem⟩ := ordered_schedule order
  refine ordered.addFunc apart ?_ fun st t reads => ?_
  · rw [copies.init, Option.isSome_map]
    exact ordered.defined f mem
  · rcases copies.reads (ordered.layered.initial mem) reads with ⟨rfl, later⟩ | reads
    · exact Or.inr ⟨rfl, later⟩
    · have listed := ordered.lists mem reads
      cases t with
      | func h => exact Or.inl listed
      | buffer i => exact listed
      | param i => exact listed

theorem Copies.distinctFree (copies : g.Copies copy f stage) (distinct : ∀ d ∈ (g.func f).updates, d.DistinctFree) :
    ∀ d ∈ (g.func copy).updates, d.DistinctFree := by
  intro d update
  rw [copies.updates] at update
  obtain ⟨d', own, rfl⟩ := List.mem_map.mp update
  unfold Definition.DistinctFree
  rw [show (d'.map (·.redirect f copy)).lhs = d'.lhs.map (·.redirect f copy) from rfl,
    Expr.filterMap_varName?_redirect]
  exact distinct d' (((g.func f).truncate_updates_prefix_self stage).subset own)

end

/-- A copy gives the values that `f` holds right after the stage. -/
theorem Copies.realize (copies : g.Copies copy f stage) (apart : ¬g.Reaches f (.func copy))
    (distinct : g.DistinctUpdates fun h => g.Reaches f (.func h)) (addressed : g.AddressedOver α f D)
    (addressed' : g.AddressedOver α copy D) (run : g.realize f D b = .ok t) (run' : g.realize copy D b = .ok t')
    {p : List Int} (mem : p ∈ D.points) : ∃ S v, g.storageAfter f D b stage = .ok (some S) ∧ S.get? p = some v ∧
      (⟨D, t'.values⟩ : Storage α).get? p = some v := by
  obtain ⟨s, order, realized⟩ := bind_eq_ok.mp run
  obtain ⟨regions, inferred, -⟩ := bind_eq_ok.mp realized
  obtain ⟨s', order', realized'⟩ := bind_eq_ok.mp run'
  obtain ⟨regions', inferred', -⟩ := bind_eq_ok.mp realized'
  replace order := mapError_eq_ok.mp order
  replace order' := mapError_eq_ok.mp order'
  replace inferred := mapError_eq_ok.mp inferred
  replace inferred' := mapError_eq_ok.mp inferred'
  have reached {h : FuncId} : h ∈ s.funcs ↔ g.Reaches f (.func h) := lists_iff_reaches order (t := .func h)
  have fresh : copy ∉ s.funcs := fun listed => apart (reached.mp listed)
  have layered := (ordered_schedule order).1.layered.initial (ordered_schedule order).2
  -- the copy is also answered for over the region of `f`
  let T (q : Regions) : Prop := q = regions ∨ q = regions' ∨ q = regions.insert copy (regions.of g f)
  obtain ⟨P, given⟩ : ∃ P : Answers α, P.Given g b T (s.funcs ++ [copy]) := by
    refine exists_given (copies.ordered order fresh) (fun h listed => ?_) ?_
    · rcases List.mem_append.mp listed with listed | last
      · exact distinct h (reached.mp listed)
      · obtain rfl := List.mem_singleton.mp last
        exact copies.distinctFree (distinct f .root)
    · rintro q (rfl | rfl | rfl) h - updates
      · exact addressed.addressed order inferred updates
      · exact addressed'.addressed order' inferred' updates
      · rw [Regions.of_insert]
        split
        · exact addressed.addressed order inferred copies.updates_ne_nil
        · exact addressed.addressed order inferred updates
  have serves : P.Serves ⟨g, b, regions⟩ (· ∈ s.funcs) :=
    (given.mono (List.subset_append_left _ _)).serves (Or.inl rfl)
  have serves' (q : Regions) (found : g.inferRegions s' copy D = .ok q) : P.Serves ⟨g, b, q⟩ (· ∈ s'.funcs) := by
    refine (given.mono fun h listed => ?_).serves (Or.inr (Or.inl (Except.ok.inj (found.symm.trans inferred'))))
    rcases copies.reaches layered ((lists_iff_reaches order' (t := .func h)).mp listed) with self | known
    · exact List.mem_append_right _ (List.mem_singleton.mpr (Target.func.inj self))
    · exact List.mem_append_left _ (reached.mpr known)
  obtain ⟨S, state, inside, held⟩ := storageAfter_of_realize order inferred serves copies.updates_ne_nil run mem stage
  have held' := copies.contents? layered (fun st reads => apart (.read .root reads)) held
  obtain ⟨v, value⟩ := Option.isSome_iff_exists.mp ((Func.isSome_of_contents? held' p).mpr inside)
  have answer : P.call copy p = some v := by
    refine given.call (List.mem_append_right _ List.mem_cons_self) (Or.inl ⟨_, Or.inr (Or.inr rfl), S.get?, ?_, value⟩)
    rwa [Regions.of_insert, if_pos rfl]
  have found := Storage.get?_ofList (realize_serves order' serves' run').2 p
  rw [Array.toArray_toList, if_pos mem] at found
  exact ⟨S, v, state, value, found.trans answer⟩

/-! ### Differentiation -/

/-- What differentiation of `output` can make of a graph. -/
inductive DifferentiatesTo (g : Graph κ) (output : FuncId) : Graph κ → Prop where
  | adjoints {seed : Seed κ} {a : Adjoints κ} : g.adjoints output seed = .ok a → g.DifferentiatesTo output a.graph
  | tangents {directions : List (Name × FuncId)} {t : Tangents κ} :
    g.tangents output directions = .ok t → g.DifferentiatesTo output t.graph

theorem DifferentiatesTo.copies {g' : Graph κ} {output : FuncId} (made : g.DifferentiatesTo output g') :
    g.GrowsTo g' ∧ g.MarksCopies g' := by
  cases made with
  | adjoints run => exact copies_of_adjoints run
  | tangents run => exact copies_of_tangents run

/-- A func that differentiation adds as the copy of `f` at a stage gives the values that `f` holds right after that
stage, when updates name each pure variable once and run through coordinates that are addressed by themselves. -/
theorem snapshots_hold {g' : Graph κ} {output : FuncId} (made : g.DifferentiatesTo output g')
    (new : g.size ≤ copy.index) (marked : (g'.func copy).origin = .primal f stage)
    (distinct : g'.DistinctUpdates fun h => g'.Reaches f (.func h)) (addressed : g'.AddressedOver α f D)
    (addressed' : g'.AddressedOver α copy D) (run : g'.realize f D b = .ok t) (run' : g'.realize copy D b = .ok t')
    {p : List Int} (mem : p ∈ D.points) : ∃ S v, g'.storageAfter f D b stage = .ok (some S) ∧ S.get? p = some v ∧
      (⟨D, t'.values⟩ : Storage α).get? p = some v := by
  obtain ⟨grows, marks⟩ := made.copies
  obtain ⟨scheduled, copies⟩ := marks copy f stage new marked
  exact copies.realize (scheduled.not_reaches grows new) distinct addressed addressed' run run' mem

end Graph

/-! ### Examples -/

/-- `power(x) = x`, then `power(x) = power(x) * power(x)`, then `power(3) = power(2) * power(3)`. -/
def squaring : Graph (Exact ℚ) where
  funcs := #[
    { name := "power", args := ["x"],
      init := some ⟨[.var "x"], .var "x", none⟩,
      updates := [
        ⟨[.var "x"], .binary .mul (.call ⟨0⟩ [.var "x"]) (.call ⟨0⟩ [.var "x"]), none⟩,
        ⟨[.const (.number 3)], .binary .mul (.call ⟨0⟩ [.const (.number 2)]) (.call ⟨0⟩ [.const (.number 3)]), none⟩] }]

namespace squaring

/-- The squares are what the func holds between its updates. -/
theorem copy_squares : ∃ g' : Graph (Exact ℚ), squaring.DifferentiatesTo ⟨0⟩ g' ∧
    g'.realize ⟨0⟩ ⟨[⟨0, 3⟩]⟩ ({} : Bindings ℚ) = .ok ⟨[4], #[0, 1, 4, 36]⟩ ∧
    g'.realize ⟨2⟩ ⟨[⟨0, 3⟩]⟩ ({} : Bindings ℚ) = .ok ⟨[4], #[0, 1, 4, 9]⟩ ∧
    ∃ (S : Storage ℚ) (v : ℚ), g'.storageAfter ⟨0⟩ ⟨[⟨0, 3⟩]⟩ {} (.update 0) = .ok (some S) ∧ S.get? [3] = some v ∧
      (⟨⟨[⟨0, 3⟩]⟩, #[0, 1, 4, 9]⟩ : Storage ℚ).get? [3] = some v := by
  have values : (squaring.adjoints ⟨0⟩ .unit).toOption.map (fun a => ((a.graph.func ⟨2⟩).origin,
      a.graph.realize ⟨0⟩ ⟨[⟨0, 3⟩]⟩ ({} : Bindings ℚ), a.graph.realize ⟨2⟩ ⟨[⟨0, 3⟩]⟩ ({} : Bindings ℚ))) =
      some (.primal ⟨0⟩ (.update 0), .ok ⟨[4], #[0, 1, 4, 36]⟩, .ok ⟨[4], #[0, 1, 4, 9]⟩) := by decide +kernel
  obtain ⟨a, found, values⟩ := Option.map_eq_some_iff.mp values
  obtain ⟨origin, values⟩ := Prod.mk.inj values
  obtain ⟨run, run'⟩ := Prod.mk.inj values
  have made : squaring.DifferentiatesTo ⟨0⟩ a.graph := .adjoints (toOption_eq_some.mp found)
  have own : a.graph.func ⟨0⟩ = squaring.func ⟨0⟩ := made.copies.1.func (by decide)
  have alone {t : Target} (reached : a.graph.Reaches ⟨0⟩ t) : t = .func ⟨0⟩ := by
    refine reached.closed (T := (· = .func ⟨0⟩)) rfl fun h stage t self reads => ?_
    rw [Target.func.inj self, own, ← Func.mem_dependencies] at reads
    exact (by decide : ∀ e ∈ (squaring.func ⟨0⟩).dependencies, e.2 = .func ⟨0⟩) _ reads
  refine ⟨a.graph, made, run, run', Graph.snapshots_hold made (by decide) origin (fun h reached => ?_)
    (Graph.addressedOver _ _) (Graph.addressedOver _ _) run run' (Domain.contains_eq_true.mp (by decide))⟩
  rw [Target.func.inj (alone reached), own]
  unfold Definition.DistinctFree
  decide

end squaring

/-- The count of a single step, and an update that looks at 16777217 only. -/
def touching : Graph (Exact ℚ) where
  funcs := #[
    { name := "count", args := ["x"],
      init := some ⟨[.var "x"], .zero, none⟩,
      updates := [
        ⟨[.var "x"], .binary .add (.call ⟨0⟩ [.var "x"]) .one, some ⟨[("r", ⟨0, 0⟩)]⟩⟩,
        ⟨[.const (.number 16777217)], .call ⟨0⟩ [.const (.number 16777217)], none⟩] }]

/-- In single precision 16777217 is rounded to 16777216. For the second update both are computed, and counted at one
position; the copy without that update counts once. -/
theorem touching.copy_differs :
    (∀ f, touching.ReadsFit f ∧ touching.WritesFit f ∧ (touching.func f).args.Nodup) ∧
    ¬∀ (g' : Graph (Exact ℚ)) (copy f : FuncId) (stage : Stage) (D : Domain) (t t' : Tensor Short),
      touching.DifferentiatesTo ⟨0⟩ g' → touching.size ≤ copy.index → (g'.func copy).origin = .primal f stage →
      g'.realize f D {} = .ok t → g'.realize copy D {} = .ok t' → ∀ p ∈ D.points, ∃ S v,
        g'.storageAfter f D {} stage = .ok (some S) ∧ S.get? p = some v ∧
          (⟨D, t'.values⟩ : Storage Short).get? p = some v := by
  refine ⟨?_, fun hold => ?_⟩
  · rintro ⟨_ | n⟩
    · have fit : ∀ e ∈ (touching.func ⟨0⟩).definitions, ∀ r ∈ e.2.reads, r.args.length = touching.dimsOf r.target := by
        decide
      refine ⟨fun stage d listed => fit _ listed, ?_, List.nodup_singleton _⟩
      unfold Graph.WritesFit
      decide
    · refine ⟨fun stage d listed => ?_, fun d update => ?_, List.nodup_nil⟩
      · cases listed
      · cases update
  let D : Domain := ⟨[⟨16777216, 16777216⟩]⟩
  have values : (touching.adjoints ⟨0⟩ .unit).toOption.map (fun a => ((a.graph.func ⟨2⟩).origin,
      a.graph.realize ⟨0⟩ D ({} : Bindings Short), a.graph.realize ⟨2⟩ D ({} : Bindings Short),
      (a.graph.storageAfter ⟨0⟩ D ({} : Bindings Short) (.update 0)).toOption.bind (·.bind (·.get? [16777216])))) =
      some (.primal ⟨0⟩ (.update 0), .ok ⟨[1], #[⟨2⟩]⟩, .ok ⟨[1], #[⟨1⟩]⟩, some ⟨2⟩) := by decide +kernel
  obtain ⟨a, found, values⟩ := Option.map_eq_some_iff.mp values
  obtain ⟨origin, values⟩ := Prod.mk.inj values
  obtain ⟨run, values⟩ := Prod.mk.inj values
  obtain ⟨run', twice⟩ := Prod.mk.inj values
  obtain ⟨S, v, state, held, once⟩ := hold a.graph ⟨2⟩ ⟨0⟩ (.update 0) D _ _ (.adjoints (toOption_eq_some.mp found))
    (by decide) origin run run' [16777216] (Domain.contains_eq_true.mp (by decide))
  rw [toOption_eq_some.mpr state, Option.bind_some, Option.bind_some, held] at twice
  have second : v = ⟨2⟩ := Option.some.inj twice
  have first : v = ⟨1⟩ := Option.some.inj (once.symm.trans (by decide))
  exact absurd (first.symm.trans second) (by decide)

end ArrayDiff
