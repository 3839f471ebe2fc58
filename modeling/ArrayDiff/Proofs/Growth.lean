import ArrayDiff.Graph.Extension
import ArrayDiff.Proofs.Meaning

/-!
# Graphs that grow

Differentiation only adds funcs: what was there stays under its id, and a new func reads older ones. Such a graph
keeps an order in which all its funcs can be computed (`Graph.Sorted`), and old funcs keep their meaning.
-/

namespace ArrayDiff

variable {κ : Type}

namespace Graph

/-- Funcs are added behind those that are there; nothing else changes. -/
structure GrowsTo (g g' : Graph κ) : Prop where
  size : g.size ≤ g'.size
  func {f : FuncId} : f.index < g.size → g'.func f = g.func f
  buffers : g'.buffers = g.buffers
  params : g'.params = g.params

variable {g g' g'' : Graph κ}

theorem GrowsTo.refl (g : Graph κ) : g.GrowsTo g := ⟨le_refl _, fun _ => rfl, rfl, rfl⟩

theorem GrowsTo.trans (h : g.GrowsTo g') (h' : g'.GrowsTo g'') : g.GrowsTo g'' :=
  ⟨h.size.trans h'.size, fun old => (h'.func (old.trans_le h.size)).trans (h.func old), h'.buffers.trans h.buffers,
    h'.params.trans h.params⟩

theorem GrowsTo.buffer (h : g.GrowsTo g') (b : BufferId) : g'.buffer b = g.buffer b := by
  unfold Graph.buffer
  rw [h.buffers]

theorem GrowsTo.param (h : g.GrowsTo g') (p : ParamId) : g'.param p = g.param p := by
  unfold Graph.param
  rw [h.params]

theorem func_pushFresh (g : Graph κ) (f : Func κ) :
    (g.pushFresh f).1 = ⟨g.size⟩ ∧ (g.pushFresh f).2.size = g.size + 1 ∧ g.GrowsTo (g.pushFresh f).2 ∧
      ∃ name, (g.pushFresh f).2.func ⟨g.size⟩ = { f with name } := by
  have funcs : (g.pushFresh f).2.funcs = g.funcs.push { f with name := (g.freshName f.name).1 } := rfl
  refine ⟨rfl, ?_, ⟨?_, fun {i} old => ?_, rfl, rfl⟩, (g.freshName f.name).1, ?_⟩
  · rw [size, funcs, Array.size_push]
    rfl
  · rw [size, size, funcs, Array.size_push]
    exact Nat.le_succ _
  · have less : i.index < g.funcs.size := old
    unfold Graph.func
    rw [funcs, Array.getD_eq_getD_getElem?, Array.getD_eq_getD_getElem?, Array.getElem?_push_lt less,
      Array.getElem?_eq_getElem less]
  · unfold Graph.func
    rw [funcs, Array.getD_eq_getD_getElem?]
    change (Array.push g.funcs _)[g.funcs.size]?.getD _ = _
    rw [Array.getElem?_push_size]
    rfl

end Graph

theorem Extension.push_spec (x : Extension κ) (f : Func κ) :
    (x.push f).1 = x.nextId ∧ (x.push f).2.graph.size = x.graph.size + 1 ∧ x.graph.GrowsTo (x.push f).2.graph ∧
      (∃ name, (x.push f).2.graph.func x.nextId = { f with name }) ∧ (x.push f).2.snapshots = x.snapshots := by
  obtain ⟨id, size, grows, func⟩ := x.graph.func_pushFresh f
  exact ⟨id, size, grows, func, rfl⟩

namespace Graph

/-- The funcs of `S` can be computed one after the other. -/
def Sorted (g : Graph κ) (S : FuncId → Prop) : Prop :=
  ∃ rank : FuncId → Nat, ∃ bound, g.Layered S rank ∧ ∀ f, S f → rank f < bound

variable {g g' : Graph κ} {S S' : FuncId → Prop}

theorem sorted_of_ordered {s : Schedule} (ordered : s.Ordered g) : g.Sorted (· ∈ s.funcs) :=
  ⟨_, s.funcs.length, ordered.layered, fun _ mem => List.idxOf_lt_length_of_mem mem⟩

theorem Sorted.congr (h : g.Sorted S) (same : ∀ f, S f → g'.func f = g.func f) : g'.Sorted S := by
  obtain ⟨rank, bound, layers, less⟩ := h
  refine ⟨rank, bound, ⟨fun mem => ?_, fun mem => ?_, fun mem => ?_⟩, less⟩
  · rw [same _ mem]
    exact layers.defined mem
  · rw [same _ mem]
    exact layers.initial mem
  · rw [same _ mem]
    exact layers.below mem

theorem Sorted.iff (h : g.Sorted S) (same : ∀ f, S' f ↔ S f) : g.Sorted S' := by
  have equal : S' = S := funext fun f => propext (same f)
  rw [equal]
  exact h

/-- Two sets of funcs, each with an order of its own, have one together. -/
theorem Sorted.union (h : g.Sorted S) (h' : g.Sorted S') : g.Sorted fun f => S f ∨ S' f := by
  classical
  obtain ⟨rank, bound, layers, less⟩ := h
  obtain ⟨rank', bound', layers', less'⟩ := h'
  refine ⟨fun f => if S f then rank f else bound + rank' f, bound + bound', ⟨?_, ?_, ?_⟩, ?_⟩
  · rintro f (mem | mem)
    · exact layers.defined mem
    · exact layers'.defined mem
  · rintro f (mem | mem)
    · exact layers.initial mem
    · exact layers'.initial mem
  · intro f h stage mem reads other
    by_cases first : S f
    · obtain ⟨inside, lower⟩ := layers.below first reads other
      refine ⟨Or.inl inside, ?_⟩
      simp only [if_pos first, if_pos inside]
      exact lower
    · obtain ⟨inside, lower⟩ := layers'.below (mem.resolve_left first) reads other
      refine ⟨Or.inr inside, ?_⟩
      simp only [if_neg first]
      split
      · rename_i early
        have := less h early
        omega
      · omega
  · intro f mem
    simp only
    split
    · rename_i first
      have := less f first
      omega
    · rename_i later
      have := less' f (mem.resolve_left later)
      omega

theorem Sorted.add {id : FuncId} (h : g.Sorted S) (defined : (g.func id).init.isSome)
    (reads : ∀ stage h, (g.func id).Reads stage (.func h) → S h ∨ h = id ∧ stage ≠ .initial) (fresh : ¬S id) :
    g.Sorted fun f => S f ∨ f = id := by
  classical
  obtain ⟨rank, bound, layers, less⟩ := h
  refine ⟨fun f => if f = id then bound else rank f, bound + 1, ⟨?_, ?_, ?_⟩, ?_⟩
  · rintro f (mem | rfl)
    · exact layers.defined mem
    · exact defined
  · rintro f (mem | rfl)
    · exact layers.initial mem
    · intro self
      rcases reads _ _ self with old | ⟨-, later⟩
      · exact fresh old
      · exact later rfl
  · rintro f h stage (mem | rfl) read other
    · obtain ⟨inside, lower⟩ := layers.below mem read other
      refine ⟨Or.inl inside, ?_⟩
      have apart : f ≠ id := fun same => fresh (same ▸ mem)
      have apart' : h ≠ id := fun same => fresh (same ▸ inside)
      simp only [if_neg apart, if_neg apart']
      exact lower
    · rcases reads _ _ read with old | ⟨self, -⟩
      · refine ⟨Or.inl old, ?_⟩
        simp only [if_neg other, if_true]
        exact less h old
      · exact absurd self other
  · rintro f (mem | rfl)
    · have apart : f ≠ id := fun same => fresh (same ▸ mem)
      simp only [if_neg apart]
      exact (less f mem).trans (Nat.lt_succ_self _)
    · simp only [if_true]
      exact Nat.lt_succ_self _

variable {α : Type} [Scalar κ] [Scalar α] [Embed κ α]

theorem Sorted.settles [ExactIndex κ α] (h : g.Sorted S) {f : FuncId} (mem : S f)
    (distinct : ∀ d ∈ (g.func f).updates, d.DistinctFree) (leaves : Valuation α) :
    (g.meaning leaves).Settles f (g.func f) := by
  obtain ⟨rank, bound, layers, -⟩ := h
  exact meaning_settles layers mem distinct

end Graph

/-- The targets whose values are fixed while a graph is extended: the funcs of `S`, and all buffers and params. -/
def Based (S : FuncId → Prop) : Target → Prop
  | .func f => S f
  | _ => True

namespace Extension

/-- The funcs that were added to `g`. -/
def Added (x : Extension κ) (g : Graph κ) (f : FuncId) : Prop := g.size ≤ f.index ∧ f.index < x.graph.size

/-- What funcs that are added to `g` may read: funcs of `S`, added ones, and all buffers and params. -/
def Known (x : Extension κ) (g : Graph κ) (S : FuncId → Prop) : Target → Prop
  | .func f => S f ∨ x.Added g f
  | _ => True

/-- The added funcs come after those of `S`, and their updates name each pure variable once. -/
structure Ready (x : Extension κ) (g : Graph κ) (S : FuncId → Prop) : Prop where
  grows : g.GrowsTo x.graph
  sorted : x.graph.Sorted fun f => S f ∨ x.Added g f
  distinct {f : FuncId} : x.Added g f → ∀ d ∈ (x.graph.func f).updates, d.DistinctFree

/-- The values of all added funcs solve their equations. -/
def Settled {α : Type} [Scalar κ] [Scalar α] [Embed κ α] (x : Extension κ) (g : Graph κ) (ρ : Valuation α) : Prop :=
  ∀ f, x.Added g f → ρ.Settles f (x.graph.func f)

variable {x x' : Extension κ} {g : Graph κ} {S : FuncId → Prop}

theorem Added.grow {f : FuncId} (h : x.Added g f) (grows : x.graph.GrowsTo x'.graph) : x'.Added g f :=
  ⟨h.1, h.2.trans_le grows.size⟩

theorem Known.grow {t : Target} (h : x.Known g S t) (grows : x.graph.GrowsTo x'.graph) : x'.Known g S t := by
  cases t with
  | func f => exact h.imp_right fun added => added.grow grows
  | _ => trivial

theorem Known.of_based {t : Target} (h : Based S t) : x.Known g S t := by
  cases t with
  | func f => exact Or.inl h
  | _ => trivial

theorem Known.old (below : ∀ f, S f → f.index < g.size) (ready : x.Ready g S) {f : FuncId}
    (h : x.Known g S (.func f)) : f.index < x.graph.size := by
  rcases h with old | added
  · exact (below f old).trans_le ready.grows.size
  · exact added.2

theorem Settled.before {α : Type} [Scalar κ] [Scalar α] [Embed κ α] {ρ : Valuation α} (h : x'.Settled g ρ)
    (grows : x.graph.GrowsTo x'.graph) : x.Settled g ρ := by
  intro f added
  rw [← grows.func added.2]
  exact h f (added.grow grows)

theorem Ready.start (sorted : g.Sorted S) : Extension.Ready ⟨g, {}⟩ g S := by
  have none (f : FuncId) : ¬Extension.Added ⟨g, {}⟩ g f := fun added => absurd added.2 (Nat.not_lt.mpr added.1)
  exact ⟨Graph.GrowsTo.refl g, sorted.iff fun f => ⟨fun h => h.resolve_right (none f), Or.inl⟩,
    fun added => absurd added (none _)⟩

theorem added_push (x : Extension κ) (f : Func κ) {k : FuncId} (old : g.size ≤ x.graph.size) :
    (x.push f).2.Added g k ↔ x.Added g k ∨ k = x.nextId := by
  unfold Added nextId
  rw [(x.push_spec f).2.1]
  constructor
  · rintro ⟨low, high⟩
    rcases Nat.lt_succ_iff_lt_or_eq.mp high with less | same
    · exact Or.inl ⟨low, less⟩
    · exact Or.inr (by cases k; exact congrArg FuncId.mk same)
  · rintro (⟨low, high⟩ | rfl)
    · exact ⟨low, high.trans (Nat.lt_succ_self _)⟩
    · exact ⟨old, Nat.lt_succ_self _⟩

theorem Ready.push (ready : x.Ready g S) (below : ∀ f, S f → f.index < g.size) {f : Func κ}
    (defined : f.init.isSome)
    (reads : ∀ stage h, f.Reads stage (.func h) → x.Known g S (.func h) ∨ h = x.nextId ∧ stage ≠ .initial)
    (distinct : ∀ d ∈ f.updates, d.DistinctFree) : (x.push f).2.Ready g S := by
  obtain ⟨-, size, grows, ⟨name, func⟩, -⟩ := x.push_spec f
  have old : ∀ h, S h ∨ x.Added g h → h.index < x.graph.size := fun h known => Known.old below ready known
  have added (h : FuncId) := x.added_push f ready.grows.size (k := h)
  have kept : (x.push f).2.graph.Sorted fun h => S h ∨ x.Added g h :=
    ready.sorted.congr fun h known => grows.func (old h known)
  have fresh : ¬(S x.nextId ∨ x.Added g x.nextId) := fun known => absurd (old _ known) (Nat.lt_irrefl _)
  refine ⟨ready.grows.trans grows, ?_, fun {h} new => ?_⟩
  · refine (kept.add ?_ ?_ fresh).iff fun h => ?_
    · rw [func]
      exact defined
    · rw [func]
      exact reads
    · rw [added, or_assoc]
  · rcases (added h).mp new with before | rfl
    · rw [grows.func before.2]
      exact ready.distinct before
    · rw [func]
      exact distinct

end Extension

end ArrayDiff
