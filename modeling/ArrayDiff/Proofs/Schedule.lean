import Mathlib.Data.List.Nodup
import ArrayDiff.Proofs.Outcome
import ArrayDiff.Schedule

/-!
# Schedules are topological orders

A schedule lists every func once, after everything that the func reads of others (`Schedule.Ordered`). The walk keeps
this property, adds nothing that is waiting, and ends with the func it was started for.
-/

namespace ArrayDiff

variable {κ : Type}

theorem Definition.mem_reads_value {d : Definition κ} {r : Read κ} (mem : r ∈ d.value.reads) : r ∈ d.reads :=
  List.mem_flatMap.mpr ⟨d.value, List.mem_append_right _ (List.mem_singleton.mpr rfl), mem⟩

/-- The definitions of a func with what they read. -/
def Func.Reads (f : Func κ) (stage : Stage) (t : Target) : Prop :=
  ∃ d, (stage, d) ∈ f.definitions ∧ ∃ r ∈ d.reads, r.target = t

namespace Func

variable {func : Func κ} {d : Definition κ} {stage : Stage}

theorem dimOf?_eq_some (distinct : func.args.Nodup) {i : Nat} {x : Name} (at' : func.args[i]? = some x) :
    func.dimOf? x = some i := by
  obtain ⟨less, own⟩ := List.getElem?_eq_some_iff.mp at'
  unfold dimOf?
  rw [List.findIdx?_eq_some_iff_getElem]
  refine ⟨less, decide_eq_true own, fun j lessJ => ?_⟩
  rw [Bool.not_eq_true, decide_eq_false_iff_not]
  intro other
  exact Nat.ne_of_lt lessJ ((List.Nodup.getElem_inj_iff distinct).mp (other.trans own.symm))

theorem definitions_eq (f : Func κ) : f.definitions =
    (f.init.toList.map fun d => (Stage.initial, d)) ++ f.updates.zipIdx.map fun e => (Stage.update e.2, e.1) := rfl

theorem mem_definitions : (stage, d) ∈ func.definitions ↔ func.definition? stage = some d := by
  unfold definitions
  cases stage with
  | initial => simp [definition?]
  | update i => simp [definition?, List.mem_zipIdx_iff_getElem?]

theorem map_fst_definitions (defined : func.init.isSome) :
    func.definitions.map (·.1) = .initial :: (List.range func.updates.length).map .update := by
  obtain ⟨d, init⟩ := Option.isSome_iff_exists.mp defined
  have indices : func.updates.zipIdx.map Prod.snd = List.range func.updates.length := by
    rw [List.range_eq_range', List.zipIdx_map_snd]
  unfold definitions
  rw [init, ← indices, List.map_append, List.map_map, List.map_map, List.map_map]
  rfl

theorem mem_definitions_init (h : func.init = some d) : (.initial, d) ∈ func.definitions := by
  simp [definitions, h]

theorem reads_initial (init : func.init = some d) {r : Read κ} (mem : r ∈ d.value.reads) :
    func.Reads .initial r.target :=
  ⟨d, mem_definitions_init init, r, Definition.mem_reads_value mem, rfl⟩

theorem mem_definitions_update (h : d ∈ func.updates) :
    ∃ i, (.update i, d) ∈ func.definitions := by
  obtain ⟨i, bound, rfl⟩ := List.mem_iff_getElem.mp h
  refine ⟨i, List.mem_append_right _ (List.mem_map.mpr ⟨(func.updates[i], i), ?_, rfl⟩)⟩
  exact List.mem_zipIdx_iff_getElem?.mpr (List.getElem?_eq_getElem bound)

theorem of_mem_definitions (mem : (stage, d) ∈ func.definitions) :
    stage = .initial ∧ func.init = some d ∨ stage ≠ .initial ∧ d ∈ func.updates := by
  rcases List.mem_append.mp mem with mem | mem
  · obtain ⟨d', found, same⟩ := List.mem_map.mp mem
    obtain ⟨rfl, rfl⟩ := Prod.mk.inj same
    exact Or.inl ⟨rfl, Option.mem_toList.mp found⟩
  · obtain ⟨⟨d', i⟩, listed, same⟩ := List.mem_map.mp mem
    obtain ⟨rfl, rfl⟩ := Prod.mk.inj same
    exact Or.inr ⟨Stage.noConfusion, (List.mem_zipIdx_iff_getElem?.mp listed) |> List.mem_of_getElem?⟩

/-- The initial definition comes first, and only updates after it. -/
theorem eq_nil_of_definitions_eq (defined : func.init.isSome) {done rest : List (Stage × Definition κ)}
    (split : func.definitions = done ++ (.initial, d) :: rest) : done = [] := by
  obtain ⟨d₀, init⟩ := Option.isSome_iff_exists.mp defined
  rw [definitions_eq, init] at split
  cases done with
  | nil => rfl
  | cons e done =>
    have tail : (func.updates.zipIdx.map fun e => (Stage.update e.2, e.1)) = done ++ (.initial, d) :: rest :=
      (List.cons.inj split).2
    obtain ⟨e, -, same⟩ := List.mem_map.mp (tail ▸ List.mem_append_right _ List.mem_cons_self)
    cases same

end Func

namespace Schedule

/-- A read of `f` that is scheduled, with the funcs of `done` before `f`. -/
def Allows (s : Schedule) (done : List FuncId) (f : FuncId) (stage : Stage) : Target → Prop
  | .func h => h ∈ done ∨ h = f ∧ stage ≠ .initial
  | .buffer b => b ∈ s.buffers
  | .param p => p ∈ s.params

/-- The funcs are defined and distinct, and what they read comes before them. -/
structure Ordered (g : Graph κ) (s : Schedule) : Prop where
  nodup : s.funcs.Nodup
  defined : ∀ f ∈ s.funcs, (g.func f).init.isSome
  stages : s.stages = s.funcs.flatMap fun f => (g.func f).definitions.map fun (stage, _) => (f, stage)
  before : ∀ done f rest, s.funcs = done ++ f :: rest →
    ∀ stage t, (g.func f).Reads stage t → s.Allows done f stage t
  leaves : s.buffers.Nodup ∧ s.params.Nodup

/-- What a walk keeps: funcs are added at the end, and nothing is taken away. -/
structure Extends (s s' : Schedule) : Prop where
  funcs : ∃ more, s'.funcs = s.funcs ++ more
  stages : s.stages <+: s'.stages
  buffers : s.buffers ⊆ s'.buffers
  params : s.params ⊆ s'.params

theorem Extends.refl (s : Schedule) : s.Extends s :=
  ⟨⟨[], (List.append_nil _).symm⟩, List.prefix_refl _, List.Subset.refl _, List.Subset.refl _⟩

theorem Extends.trans {s s' s'' : Schedule} (h : s.Extends s') (h' : s'.Extends s'') : s.Extends s'' := by
  obtain ⟨more, eq⟩ := h.funcs
  obtain ⟨more', eq'⟩ := h'.funcs
  refine ⟨⟨more ++ more', ?_⟩, h.stages.trans h'.stages, List.Subset.trans h.buffers h'.buffers,
    List.Subset.trans h.params h'.params⟩
  rw [eq', eq, List.append_assoc]

theorem Extends.mem {s s' : Schedule} (h : s.Extends s') {f : FuncId} (mem : f ∈ s.funcs) : f ∈ s'.funcs := by
  obtain ⟨more, eq⟩ := h.funcs
  rw [eq]
  exact List.mem_append_left more mem

theorem Allows.extend {s s' : Schedule} {done : List FuncId} {f : FuncId} {stage : Stage} {t : Target}
    (h : s.Allows done f stage t) (ext : s.Extends s') : s'.Allows done f stage t := by
  cases t with
  | func => exact h
  | buffer => exact ext.buffers h
  | param => exact ext.params h

theorem Allows.grow {s s' : Schedule} {f : FuncId} {stage : Stage} {t : Target}
    (h : s.Allows s.funcs f stage t) (ext : s.Extends s') : s'.Allows s'.funcs f stage t := by
  cases t with
  | func => exact h.imp_left ext.mem
  | buffer => exact ext.buffers h
  | param => exact ext.params h

theorem Ordered.empty (g : Graph κ) : Ordered g {} := by
  refine ⟨List.nodup_nil, by simp, rfl, ?_, List.nodup_nil, List.nodup_nil⟩
  intro done f rest split
  simp at split

theorem Ordered.of_funcs {g : Graph κ} {s s' : Schedule} (h : Ordered g s) (ext : s.Extends s')
    (funcs : s'.funcs = s.funcs) (stages : s'.stages = s.stages) (leaves : s'.buffers.Nodup ∧ s'.params.Nodup) :
    Ordered g s' := by
  refine ⟨funcs ▸ h.nodup, funcs ▸ h.defined, by rw [stages, funcs, h.stages], ?_, leaves⟩
  intro done f rest split stage t reads
  rw [funcs] at split
  exact (h.before done f rest split stage t reads).extend ext

theorem extends_addBuffer (s : Schedule) (b : BufferId) : s.Extends (s.addBuffer b) ∧ b ∈ (s.addBuffer b).buffers := by
  unfold addBuffer
  split
  · rename_i mem
    exact ⟨Extends.refl s, mem⟩
  · exact ⟨⟨⟨[], by simp⟩, List.prefix_refl _, by simp, by simp⟩, by simp⟩

theorem extends_addParam (s : Schedule) (p : ParamId) : s.Extends (s.addParam p) ∧ p ∈ (s.addParam p).params := by
  unfold addParam
  split
  · rename_i mem
    exact ⟨Extends.refl s, mem⟩
  · exact ⟨⟨⟨[], by simp⟩, List.prefix_refl _, by simp, by simp⟩, by simp⟩

theorem extends_addFunc (s : Schedule) (f : FuncId) (stages : List Stage) : s.Extends (s.addFunc f stages) :=
  ⟨⟨[f], rfl⟩, List.prefix_append _ _, List.Subset.refl _, List.Subset.refl _⟩

theorem funcs_addBuffer (s : Schedule) (b : BufferId) : (s.addBuffer b).funcs = s.funcs := by
  unfold addBuffer
  split <;> rfl

theorem funcs_addParam (s : Schedule) (p : ParamId) : (s.addParam p).funcs = s.funcs := by
  unfold addParam
  split <;> rfl

theorem stages_addBuffer (s : Schedule) (b : BufferId) : (s.addBuffer b).stages = s.stages := by
  unfold addBuffer
  split <;> rfl

theorem stages_addParam (s : Schedule) (p : ParamId) : (s.addParam p).stages = s.stages := by
  unfold addParam
  split <;> rfl

theorem nodup_addBuffer {s : Schedule} (h : s.buffers.Nodup ∧ s.params.Nodup) (b : BufferId) :
    (s.addBuffer b).buffers.Nodup ∧ (s.addBuffer b).params.Nodup := by
  unfold addBuffer
  split
  · exact h
  · rename_i fresh
    exact ⟨h.1.append (List.nodup_singleton b) (List.disjoint_singleton.mpr fresh), h.2⟩

theorem nodup_addParam {s : Schedule} (h : s.buffers.Nodup ∧ s.params.Nodup) (p : ParamId) :
    (s.addParam p).buffers.Nodup ∧ (s.addParam p).params.Nodup := by
  unfold addParam
  split
  · exact h
  · rename_i fresh
    exact ⟨h.1, h.2.append (List.nodup_singleton p) (List.disjoint_singleton.mpr fresh)⟩

theorem Ordered.addFunc {g : Graph κ} {s : Schedule} {f : FuncId} (h : Ordered g s) (fresh : f ∉ s.funcs)
    (defined : (g.func f).init.isSome) (reads : ∀ stage t, (g.func f).Reads stage t → s.Allows s.funcs f stage t) :
    Ordered g (s.addFunc f ((g.func f).definitions.map (·.1))) := by
  refine ⟨?_, ?_, ?_, ?_, h.leaves⟩
  · exact h.nodup.append (List.nodup_singleton f) (by simpa using fresh)
  · intro k mem
    rcases List.mem_append.mp mem with mem | mem
    · exact h.defined k mem
    · rwa [List.mem_singleton.mp mem]
  · simp [Schedule.addFunc, h.stages, List.flatMap_append, Function.comp_def]
  · intro done k rest split stage t reads'
    have ext := extends_addFunc s f ((g.func f).definitions.map (·.1))
    rcases List.eq_nil_or_concat rest with rfl | ⟨rest', last, rfl⟩
    · obtain ⟨rfl, same⟩ := List.append_inj' (show s.funcs ++ [f] = done ++ [k] from split) rfl
      obtain rfl : f = k := by simpa using same
      exact (reads stage t reads').extend ext
    · have longer : s.funcs ++ [f] = (done ++ k :: rest') ++ [last] := by
        rw [List.append_assoc]
        exact split.trans (by simp)
      obtain ⟨inner, -⟩ := List.append_inj' longer rfl
      exact (h.before done k rest' inner stage t reads').extend ext

end Schedule

open Schedule

/-- What a walk gives: an order that holds what was there, and nothing that was waiting. -/
structure Visited (g : Graph κ) (path : List FuncId) (s s' : Schedule) : Prop where
  ordered : s'.Ordered g
  longer : s.Extends s'
  apart : ∀ h ∈ s'.funcs, h ∈ s.funcs ∨ h ∉ path

namespace Visited

variable {g : Graph κ} {path : List FuncId} {s s' s'' : Schedule}

theorem refl (ordered : s.Ordered g) : Visited g path s s :=
  ⟨ordered, Extends.refl s, fun _ mem => Or.inl mem⟩

theorem trans (h : Visited g path s s') (h' : Visited g path s' s'') : Visited g path s s'' := by
  refine ⟨h'.ordered, h.longer.trans h'.longer, ?_⟩
  intro f mem
  rcases h'.apart f mem with mem | apart
  · exact h.apart f mem
  · exact Or.inr apart

theorem addBuffer (ordered : s.Ordered g) (b : BufferId) : Visited g path s (s.addBuffer b) := by
  have added := extends_addBuffer s b
  refine ⟨ordered.of_funcs added.1 (funcs_addBuffer s b) (stages_addBuffer s b)
    (nodup_addBuffer ordered.leaves b), added.1, ?_⟩
  intro f mem
  exact Or.inl (funcs_addBuffer s b ▸ mem)

theorem addParam (ordered : s.Ordered g) (p : ParamId) : Visited g path s (s.addParam p) := by
  have added := extends_addParam s p
  refine ⟨ordered.of_funcs added.1 (funcs_addParam s p) (stages_addParam s p)
    (nodup_addParam ordered.leaves p), added.1, ?_⟩
  intro f mem
  exact Or.inl (funcs_addParam s p ▸ mem)

end Visited

namespace Graph

theorem visited_of_visit {g : Graph κ} {depth : Nat} {path : List FuncId} {f : FuncId} {s s' : Schedule}
    (run : g.visit depth path f s = .ok s') (ordered : s.Ordered g) : Visited g path s s' ∧ f ∈ s'.funcs := by
  induction depth generalizing path f s s' with
  | zero => cases run
  | succ depth ih =>
    unfold visit at run
    split at run
    · rename_i mem
      obtain rfl := Except.ok.inj run
      exact ⟨Visited.refl ordered, mem⟩
    split at run
    · cases run
    rename_i fresh off
    by_cases undefined : (g.func f).init.isNone
    · rw [if_pos undefined] at run
      cases run
    rw [if_neg undefined] at run
    obtain ⟨t, folded, final⟩ := bind_eq_ok.mp run
    obtain rfl := Except.ok.inj final
    -- `f` waits while everything that it reads is visited
    have reads := foldlM_invariant folded
      (fun done t => Visited g (f :: path) s t ∧ ∀ stage x, (stage, x) ∈ done → t.Allows t.funcs f stage x)
      ⟨Visited.refl ordered, by simp⟩ (by
        rintro done ⟨stage, target⟩ rest t t' - ⟨visited, allowed⟩ step
        have kept : Visited g (f :: path) t t' ∧ t'.Allows t'.funcs f stage target := by
          cases target with
          | func h =>
            simp only at step
            split at step
            · rename_i self
              split at step
              · cases step
              · rename_i later
                obtain rfl := Except.ok.inj step
                exact ⟨Visited.refl visited.ordered, Or.inr ⟨self, later⟩⟩
            · have inner := ih step visited.ordered
              exact ⟨inner.1, Or.inl inner.2⟩
          | buffer b =>
            obtain rfl := Except.ok.inj step
            exact ⟨Visited.addBuffer visited.ordered b, (extends_addBuffer t b).2⟩
          | param p =>
            obtain rfl := Except.ok.inj step
            exact ⟨Visited.addParam visited.ordered p, (extends_addParam t p).2⟩
        refine ⟨visited.trans kept.1, ?_⟩
        intro stage' x mem
        rcases List.mem_append.mp mem with mem | mem
        · exact (allowed stage' x mem).grow kept.1.longer
        · obtain ⟨rfl, rfl⟩ := Prod.mk.inj (List.mem_singleton.mp mem)
          exact kept.2)
    obtain ⟨visited, allowed⟩ := reads
    have new : f ∉ t.funcs := by
      intro mem
      rcases visited.apart f mem with mem | apart
      · exact fresh mem
      · exact apart List.mem_cons_self
    refine ⟨⟨visited.ordered.addFunc new (by simpa [Option.isSome_iff_ne_none] using undefined) ?_, ?_, ?_⟩, ?_⟩
    · rintro stage target ⟨d, mem, r, inside, rfl⟩
      exact allowed stage r.target (List.mem_flatMap.mpr ⟨(stage, d), mem, List.mem_map.mpr ⟨r, inside, rfl⟩⟩)
    · exact visited.longer.trans (extends_addFunc _ _ _)
    · intro h mem
      rcases List.mem_append.mp mem with mem | mem
      · exact (visited.apart h mem).imp_right fun apart mem => apart (List.mem_cons_of_mem f mem)
      · obtain rfl := List.mem_singleton.mp mem
        exact Or.inr off
    · exact List.mem_append_right _ (List.mem_singleton.mpr rfl)

/-- A schedule is a topological order of the funcs that its root depends on. -/
theorem ordered_schedule {g : Graph κ} {root : FuncId} {s : Schedule} (h : g.schedule root = .ok s) :
    s.Ordered g ∧ root ∈ s.funcs := by
  have visited := visited_of_visit h (Ordered.empty g)
  exact ⟨visited.1.ordered, visited.2⟩

end Graph

/-! ### What a schedule lists -/

/-- The targets that a schedule lists. -/
def Schedule.Lists (s : Schedule) : Target → Prop
  | .func f => f ∈ s.funcs
  | .buffer i => i ∈ s.buffers
  | .param i => i ∈ s.params

theorem Schedule.Ordered.lists {g : Graph κ} {s : Schedule} (h : s.Ordered g) {f : FuncId} (mem : f ∈ s.funcs)
    {stage : Stage} {t : Target} (reads : (g.func f).Reads stage t) : s.Lists t := by
  obtain ⟨done, rest, split⟩ := List.append_of_mem mem
  have allowed := h.before done f rest split stage t reads
  cases t with
  | func k =>
    rcases allowed with earlier | ⟨rfl, -⟩
    · have listed : k ∈ s.funcs := by
        rw [split]
        exact List.mem_append_left _ earlier
      exact listed
    · exact mem
  | buffer i => exact allowed
  | param i => exact allowed

theorem Schedule.Ordered.not_reads_ahead {g : Graph κ} {s : Schedule} (h : s.Ordered g) {done rest : List FuncId}
    {f k : FuncId} (split : s.funcs = done ++ f :: rest) (mem : k ∈ done) (stage : Stage) :
    ¬(g.func k).Reads stage (.func f) := by
  have distinct := h.nodup
  rw [split] at distinct
  have fresh : f ∉ done := fun early => (List.nodup_append.mp distinct).2.2 f early f List.mem_cons_self rfl
  intro reads
  obtain ⟨before, between, rfl⟩ := List.append_of_mem mem
  have whole : s.funcs = before ++ k :: (between ++ f :: rest) := by
    rw [split, List.append_assoc, List.cons_append]
  rcases h.before before k _ whole stage _ reads with inside | ⟨rfl, -⟩
  · exact fresh (List.mem_append_left _ inside)
  · exact fresh (List.mem_append_right _ List.mem_cons_self)

/-! ### Leaves -/

/-- The buffers and params that a schedule lists. -/
def Schedule.leaves (s : Schedule) : List Target := s.buffers.map .buffer ++ s.params.map .param

theorem Schedule.Ordered.nodup_leaves {g : Graph κ} {s : Schedule} (h : s.Ordered g) : s.leaves.Nodup := by
  refine List.Nodup.append (h.leaves.1.map fun _ _ => Target.buffer.inj) (h.leaves.2.map fun _ _ => Target.param.inj) ?_
  intro t left right
  obtain ⟨b, -, rfl⟩ := List.mem_map.mp left
  obtain ⟨p, -, same⟩ := List.mem_map.mp right
  cases same

end ArrayDiff
