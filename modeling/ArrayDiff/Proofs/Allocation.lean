import ArrayDiff.Proofs.Extending
import ArrayDiff.Proofs.Reachability
import ArrayDiff.Proofs.Walk

/-!
# The funcs of a derivative

A sweep only adds funcs (`Sweep.Leads`), and a slot is made when a key is settled, out of funcs whose origin names the
key (`Sweep.Allocated`). The walk settles the keys of the schedule, once each, so that a derivative has a slot for every
stage that the output reaches (`Graph.adjoints_complete`).
-/

namespace ArrayDiff

variable {κ : Type}

/-- What a key can stand for: a definition of a func, or the only stage of a buffer or param. -/
def Graph.HasStage (g : Graph κ) : Key → Prop
  | ⟨.func f, stage⟩ => ∃ d, (stage, d) ∈ (g.func f).definitions
  | ⟨_, stage⟩ => stage = .initial

namespace Slot

def func? (slot : Slot) (bounded : Bool) : Option FuncId := if bounded then some slot.bounded else slot.unbounded

/-- The funcs of a slot, the bounded one first. -/
def funcs (slot : Slot) : List FuncId := slot.bounded :: slot.unbounded.toList

theorem mem_funcs {slot : Slot} {f : FuncId} : f ∈ slot.funcs ↔ ∃ bounded, slot.func? bounded = some f := by
  unfold funcs func?
  simp [or_comm, eq_comm]

end Slot

/-- The func lies behind the first `old` ones and was made as the adjoint of the key. -/
structure Graph.MadeFor (g : Graph κ) (old : Nat) (key : Key) (bounded : Bool) (f : FuncId) : Prop where
  new : old ≤ f.index
  inside : f.index < g.size
  origin : (g.func f).origin = .adjoint key.target key.stage bounded

namespace Graph.MadeFor

variable {g g' : Graph κ} {old : Nat} {key key' : Key} {bounded bounded' : Bool} {f : FuncId}

theorem grow (h : g.MadeFor old key bounded f) (grows : g.GrowsTo g') : g'.MadeFor old key bounded f :=
  ⟨h.new, h.inside.trans_le grows.size, by rw [grows.func h.inside, h.origin]⟩

theorem unique (h : g.MadeFor old key bounded f) (h' : g.MadeFor old key' bounded' f) :
    key = key' ∧ bounded = bounded' := by
  obtain ⟨target, stage, flag⟩ := Origin.adjoint.inj (h.origin.symm.trans h'.origin)
  cases key
  cases key'
  exact ⟨congrArg₂ Key.mk target stage, flag⟩

end Graph.MadeFor

variable [Extended κ]

theorem Site.materialize_madeFor (site : Site) (x : Extension κ) (terms : List (Term κ)) :
    x.graph.GrowsTo (site.materialize x terms).2.graph ∧
      ∀ bounded f, (site.materialize x terms).1.func? bounded = some f →
        (site.materialize x terms).2.graph.MadeFor x.graph.size site.key bounded f := by
  have pushed (x : Extension κ) (f : Func κ) {bounded : Bool}
      (origin : f.origin = .adjoint site.key.target site.key.stage bounded) :
      x.graph.GrowsTo (x.push f).2.graph ∧ (x.push f).2.graph.MadeFor x.graph.size site.key bounded (x.push f).1 := by
    obtain ⟨id, size, grows, ⟨name, func⟩, -⟩ := x.push_spec f
    rw [id]
    exact ⟨grows, le_refl _, by rw [size]; exact Nat.lt_succ_self _, by rw [func]; exact origin⟩
  unfold materialize
  dsimp only
  split
  · obtain ⟨grows, made⟩ := pushed x (site.bounded (leadingSum terms)) rfl
    refine ⟨grows, fun bounded f slot => ?_⟩
    cases bounded with
    | true => exact Option.some.inj slot ▸ made
    | false => cases slot
  · rename_i later _
    obtain ⟨first, acc⟩ := pushed x (site.accumulator x.nextId (leadingSum terms) (laterTerms terms)) rfl
    generalize x.push (site.accumulator x.nextId (leadingSum terms) (laterTerms terms)) = y at first acc ⊢
    obtain ⟨id, y⟩ := y
    obtain ⟨second, made⟩ := pushed y (site.bounded (.call id site.argExprs)) rfl
    refine ⟨first.trans second, fun bounded f slot => ?_⟩
    cases bounded with
    | true => exact Option.some.inj slot ▸ ⟨first.size.trans made.new, made.inside, made.origin⟩
    | false => exact Option.some.inj slot ▸ acc.grow second

namespace Sweep

variable {s x y z : Sweep κ} {g : Graph κ} {f : FuncId} {d : Definition κ} {stage : Stage} {t : Step κ}

/-! ### Steps that settle nothing -/

/-- From `x` to `y` funcs are added, and no key is settled. -/
structure Leads (x y : Sweep κ) : Prop where
  source : y.source = x.source
  regions : y.regions = x.regions
  slots : y.slots = x.slots
  grows : x.extension.graph.GrowsTo y.extension.graph

section

omit [Extended κ]

theorem Leads.refl (x : Sweep κ) : x.Leads x := ⟨rfl, rfl, rfl, Graph.GrowsTo.refl _⟩

theorem Leads.trans (h : x.Leads y) (h' : y.Leads z) : x.Leads z :=
  ⟨h'.source.trans h.source, h'.regions.trans h.regions, h'.slots.trans h.slots, h.grows.trans h'.grows⟩

theorem Steps.leads (steps : x.Steps f y) : x.Leads y := by
  induction steps with
  | refl => exact Leads.refl x
  | addTerm _ key term ih => exact ih.trans ⟨rfl, rfl, rfl, Graph.GrowsTo.refl _⟩
  | snapshot _ stage ih => exact ih.trans ⟨rfl, rfl, rfl, (Graph.ExtendsTo.refl.snapshot f stage).grows⟩
  | @push y _ v _ ih => exact ih.trans ⟨rfl, rfl, rfl, (y.extension.push_spec v).2.2.1⟩

end

/-! ### Steps that settle a key -/

/-- Slots were made for the given keys, last one first. -/
structure Allocated (g : Graph κ) (keys : List Key) (x : Sweep κ) : Prop where
  source : x.source = g
  grows : g.GrowsTo x.extension.graph
  slots : x.slots.keys = keys.reverse
  made {key : Key} {slot : Slot} : (key, slot) ∈ x.slots.entries → ∀ bounded f, slot.func? bounded = some f →
    x.extension.graph.MadeFor g.size key bounded f

variable {keys : List Key} {key : Key}

omit [Extended κ] in
theorem Allocated.leads (h : x.Allocated g keys) (leads : x.Leads y) : y.Allocated g keys := by
  refine ⟨leads.source.trans h.source, h.grows.trans leads.grows, leads.slots ▸ h.slots, fun entry bounded f slot => ?_⟩
  rw [leads.slots] at entry
  exact (h.made entry bounded f slot).grow leads.grows

theorem Allocated.settle (h : x.Allocated g keys) (fresh : key ∉ keys) :
    (x.settle key).2.Allocated g (keys ++ [key]) := by
  obtain ⟨grows, made⟩ := (x.site key).materialize_madeFor x.extension ((x.terms.get? key).getD [])
  have entries : (x.settle key).2.slots.entries = (key, (x.settle key).1) :: x.slots.entries := by
    refine Table.entries_insert ?_ _
    rwa [h.slots, List.mem_reverse]
  refine ⟨h.source, h.grows.trans grows, ?_, fun entry bounded f slot => ?_⟩
  · rw [Table.keys, entries, List.map_cons, List.reverse_concat, ← h.slots]
    rfl
  · rw [entries] at entry
    rcases List.mem_cons.mp entry with new | old
    · obtain ⟨rfl, rfl⟩ := Prod.mk.inj new
      have own := made bounded f slot
      exact ⟨h.grows.size.trans own.new, own.inside, own.origin⟩
    · exact (h.made old bounded f slot).grow grows

theorem Allocated.process (h : x.Allocated g keys) (fresh : ⟨.func f, stage⟩ ∉ keys) (run : x.process f stage = .ok y) :
    y.Allocated g (keys ++ [⟨.func f, stage⟩]) := by
  obtain ⟨progress, steps⟩ := process_steps run
  have begun : Allocated g keys { x with progress } := h.leads ⟨rfl, rfl, rfl, Graph.GrowsTo.refl _⟩
  exact (begun.settle fresh).leads steps.leads

theorem Allocated.processAll {stages : List (FuncId × Stage)} (h : x.Allocated g keys)
    (distinct : (keys ++ stages.map Schedule.keyAt).Nodup)
    (run : stages.foldlM (fun x (f, stage) => x.process f stage) x = .ok y) :
    y.Allocated g (keys ++ stages.map Schedule.keyAt) := by
  induction stages generalizing keys x with
  | nil =>
    rw [← pure_eq_ok.mp run, List.map_nil, List.append_nil]
    exact h
  | cons e stages ih =>
    obtain ⟨f, stage⟩ := e
    rw [List.foldlM_cons] at run
    obtain ⟨x', first, rest⟩ := bind_eq_ok.mp run
    rw [List.map_cons] at distinct ⊢
    have fresh : Schedule.keyAt (f, stage) ∉ keys :=
      fun old => (List.nodup_append.mp distinct).2.2 _ old _ List.mem_cons_self rfl
    rw [List.append_cons] at distinct ⊢
    exact ih (h.process fresh first) distinct rest

theorem Allocated.settleAll {leaves : List Target} (h : x.Allocated g keys)
    (distinct : (keys ++ leaves.map fun t => (⟨t, .initial⟩ : Key)).Nodup) :
    (leaves.foldl (fun x t => (x.settle ⟨t, .initial⟩).2) x).Allocated g (keys ++ leaves.map fun t => ⟨t, .initial⟩) := by
  induction leaves generalizing keys x with
  | nil =>
    rw [List.map_nil, List.append_nil]
    exact h
  | cons t leaves ih =>
    rw [List.map_cons] at distinct ⊢
    have fresh : (⟨t, .initial⟩ : Key) ∉ keys :=
      fun old => (List.nodup_append.mp distinct).2.2 _ old _ List.mem_cons_self rfl
    rw [List.append_cons] at distinct ⊢
    exact ih (h.settle fresh) distinct

omit [Extended κ] in
/-- All funcs of all slots are different: each was made for its key and its flag alone. -/
theorem Allocated.nodup_funcs (h : x.Allocated g keys)
    (distinct : keys.Nodup) : (x.slots.values.flatMap Slot.funcs).Nodup := by
  have apart : x.slots.entries.Pairwise fun e e' => e.1 ≠ e'.1 := by
    have listed := List.nodup_reverse.mpr distinct
    rw [← h.slots] at listed
    exact List.pairwise_map.mp listed
  unfold Table.values
  rw [List.flatMap_map]
  refine List.pairwise_flatMap.mpr ⟨fun e mem => ?_, apart.imp_of_mem fun {e e'} mem mem' other f own f' own' same => ?_⟩
  · refine List.nodup_cons.mpr ⟨fun second => ?_, ?_⟩
    · have flags := (h.made mem true _ rfl).unique (h.made mem false _ (Option.mem_toList.mp second))
      exact Bool.false_ne_true flags.2.symm
    · cases e.2.unbounded <;> simp
  · obtain ⟨bounded, first⟩ := Slot.mem_funcs.mp own
    obtain ⟨bounded', second⟩ := Slot.mem_funcs.mp own'
    subst same
    exact other ((h.made mem bounded _ first).unique (h.made mem' bounded' _ second)).1

end Sweep

/-- The slots of a derivative of `g` stand for the definitions, buffers and params that the output reaches. -/
structure Adjoints.Complete (g : Graph κ) (output : FuncId) (a : Adjoints κ) : Prop where
  nodup : a.slots.keys.Nodup
  keys (key : Key) : key ∈ a.slots.keys ↔ g.Reaches output key.target ∧ g.HasStage key
  /-- No two slots share a func. -/
  apart : (a.slots.values.flatMap Slot.funcs).Nodup
  /-- The funcs of a slot are new in the graph, and their origin names the key and the flag. -/
  made (key : Key) (slot : Slot) : a.slots.get? key = some slot →
    ∀ bounded f, slot.func? bounded = some f → a.graph.MadeFor g.size key bounded f
  /-- The adjoints of a func are found from its last stage to its initial one. -/
  listed (f : FuncId) : g.Reaches output (.func f) → ∃ found : List (List FuncId),
    List.Forall₂ (fun stage ids => ∃ slot, a.slots.get? ⟨.func f, stage⟩ = some slot ∧ ids = slot.funcs)
      ((g.func f).definitions.map (·.1)).reverse found ∧
    a.funcs f = .ok found.flatten

omit [Extended κ] in
theorem Adjoints.funcs_isOk {a : Adjoints κ} {f : FuncId} (inside : f.index < a.graph.size)
    (slots : ∀ stage ∈ stagesFrom (a.graph.func f).updates.length, ∃ slot, a.slots.get? ⟨.func f, stage⟩ = some slot) :
    ∃ found, List.Forall₂ (fun stage ids => ∃ slot, a.slots.get? ⟨.func f, stage⟩ = some slot ∧ ids = slot.funcs)
      (stagesFrom (a.graph.func f).updates.length) found ∧ a.funcs f = .ok found.flatten := by
  let entry (stage : Stage) : Except LookupError (List FuncId) :=
    (a.slots.get? ⟨.func f, stage⟩).elim (throw (a.missing ⟨.func f, stage⟩ true)) fun slot => return slot.funcs
  have listed {stage : Stage} {ids : List FuncId} :
      entry stage = .ok ids ↔ ∃ slot, a.slots.get? ⟨.func f, stage⟩ = some slot ∧ ids = slot.funcs := by
    cases found : a.slots.get? ⟨.func f, stage⟩ with
    | none => simp [entry, found]
    | some slot => simp [entry, found, eq_comm, pure, Except.pure]
  obtain ⟨found, mapped⟩ := mapM_isOk (f := entry) fun stage mem => by
    obtain ⟨slot, here⟩ := slots stage mem
    exact ⟨slot.funcs, listed.mpr ⟨slot, here, rfl⟩⟩
  refine ⟨found, (mapM_eq_ok mapped).imp fun _ _ => listed.mp, ?_⟩
  unfold funcs
  rw [if_neg (Nat.not_le.mpr inside)]
  refine Eq.trans (congrArg (· >>= _) (Eq.trans ?_ mapped)) rfl
  refine congrArg (fun step => List.mapM step _) (funext fun stage => ?_)
  unfold entry
  cases a.slots.get? ⟨.func f, stage⟩ <;> rfl

namespace Graph

variable {g : Graph κ} {output : FuncId} {seed : Seed κ} {a : Adjoints κ} {s : Schedule} {key : Key}

/-- A sweep that succeeds has settled the keys of the schedule, in their order. -/
theorem allocated_of_adjoints (run : g.adjoints output seed = .ok a) :
    ∃ s x, g.schedule output = .ok s ∧ Sweep.Allocated g s.keys x ∧ a = ⟨x.extension.graph, output, x.slots⟩ := by
  obtain ⟨s, regions, resolved, x, order, processed, y, settled, rfl⟩ := adjoints_eq_ok run
  refine ⟨s, y, order, ?_, rfl⟩
  have distinct := (ordered_schedule order).1.nodup_keys
  have start : Sweep.Allocated g [] ((Sweep.start g regions).addSeed output resolved) :=
    ⟨rfl, GrowsTo.refl g, rfl, fun entry => nomatch entry⟩
  have stages := start.processAll (List.Nodup.of_append_left distinct) processed
  rw [settled]
  exact stages.settleAll distinct

omit [Extended κ] in
theorem mem_keys (order : g.schedule output = .ok s) : key ∈ s.keys ↔ g.Reaches output key.target ∧ g.HasStage key := by
  have ordered := (ordered_schedule order).1
  obtain ⟨target, stage⟩ := key
  rw [← lists_iff_reaches order]
  unfold Schedule.keys Schedule.reversed Schedule.leaves
  rw [ordered.stages]
  cases target with
  | func f => simp [Schedule.keyAt, Schedule.Lists, HasStage]
  | buffer b => simp [Schedule.keyAt, Schedule.Lists, HasStage, eq_comm]
  | param p => simp [Schedule.keyAt, Schedule.Lists, HasStage, eq_comm]

/-- A derivative has the slots that its output asks for, and each slot has funcs of its own. -/
theorem adjoints_complete (run : g.adjoints output seed = .ok a) : a.Complete g output := by
  obtain ⟨s, x, order, allocated, rfl⟩ := allocated_of_adjoints run
  have ordered := (ordered_schedule order).1
  have keys (key : Key) : key ∈ x.slots.keys ↔ g.Reaches output key.target ∧ g.HasStage key := by
    rw [allocated.slots, List.mem_reverse, mem_keys order]
  refine ⟨?_, keys, allocated.nodup_funcs ordered.nodup_keys,
    fun key slot found => allocated.made (Table.mem_entries found), fun f reached => ?_⟩
  · rw [allocated.slots]
    exact List.nodup_reverse.mpr ordered.nodup_keys
  have defined := ordered.defined f ((lists_iff_reaches order).mpr reached)
  have old := index_lt_of_init defined
  have stages : ((g.func f).definitions.map (·.1)).reverse =
      Adjoints.stagesFrom (x.extension.graph.func f).updates.length := by
    rw [allocated.grows.func old, Func.stages_reverse defined]
  rw [stages]
  refine Adjoints.funcs_isOk (old.trans_le allocated.grows.size) fun stage mem => ?_
  rw [← stages] at mem
  obtain ⟨e, listed, rfl⟩ := List.mem_map.mp (List.mem_reverse.mp mem)
  exact Table.mem_keys.mp ((keys _).mpr ⟨reached, e.2, listed⟩)

end Graph

/-- `total() = weight`, to which the two elements of `data` are added. -/
def weighing : Graph (Exact ℚ) where
  funcs := #[
    { name := "total", args := [],
      init := some ⟨[], .param ⟨0⟩, none⟩,
      updates := [⟨[], .binary .add (.call ⟨0⟩ []) (.load ⟨0⟩ [.rvar "r"]), some ⟨[("r", ⟨0, 1⟩)]⟩⟩] }]
  buffers := #[⟨"data", .ofShape [2]⟩]
  params := #["weight"]

theorem weighing.slots : ∃ a, weighing.adjoints ⟨0⟩ .unit = .ok a ∧ a.Complete weighing ⟨0⟩ ∧
    a.slots.keys = [⟨.param ⟨0⟩, .initial⟩, ⟨.buffer ⟨0⟩, .initial⟩, ⟨.func ⟨0⟩, .initial⟩, ⟨.func ⟨0⟩, .update 0⟩] := by
  have keys : (weighing.adjoints ⟨0⟩ .unit).toOption.map (·.slots.keys) =
      some [⟨.param ⟨0⟩, .initial⟩, ⟨.buffer ⟨0⟩, .initial⟩, ⟨.func ⟨0⟩, .initial⟩, ⟨.func ⟨0⟩, .update 0⟩] := by
    decide +kernel
  obtain ⟨a, made, keys⟩ := Option.map_eq_some_iff.mp keys
  have run := toOption_eq_some.mp made
  exact ⟨a, run, Graph.adjoints_complete run, keys⟩

end ArrayDiff
