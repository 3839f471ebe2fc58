import Std.Data.String.ToNat
import ArrayDiff.Adjoint.Basic
import ArrayDiff.Proofs.Pending

/-!
# Settling a key

Once all contributions to a key have arrived its terms become funcs. The bounded one holds what the terms add up to
inside the region of the target, and 0 outside (`Sweep.settle_spec`).
-/

namespace ArrayDiff

theorem Graph.length_argsOf {κ : Type} (g : Graph κ) (t : Target) : (g.argsOf t).length = g.dimsOf t := by
  cases t with
  | func f => rfl
  | buffer b => exact (List.length_map _).trans List.length_range
  | param p => rfl

theorem Graph.nodup_argsOf_buffer {κ : Type} (g : Graph κ) (b : BufferId) : (g.argsOf (.buffer b)).Nodup := by
  refine List.nodup_range.map fun i j same => ?_
  have same : (toString i).toList = (toString j).toList := by simpa [String.ext_iff] using same
  exact Nat.repr_injective (String.toList_inj.mp same)

variable {K : Type} [Field K] [LinearOrder K] [FloorRing K] [Transcendental K]

namespace Sweep

variable {s : Sweep (Exact K)} {S : FuncId → Prop} {key : Key}

omit [Field K] [LinearOrder K] [FloorRing K] [Transcendental K] in
theorem dims_regionOf (shaped : s.regions.Shaped s.source) (t : Target) :
    (s.regionOf t).dims = (s.source.argsOf t).length := by
  rw [s.source.length_argsOf]
  cases t with
  | func f => exact shaped.dims_of f
  | buffer b => rfl
  | param p => rfl

/-- What settling a key leads to. -/
structure Settling (s : Sweep (Exact K)) (S : FuncId → Prop) (key : Key) (slot : Slot) (s' : Sweep (Exact K)) :
    Prop where
  source : s'.source = s.source
  regions : s'.regions = s.regions
  progress : s'.progress = s.progress
  slots : s'.slots = s.slots.insert key slot
  grows : s.extension.graph.GrowsTo s'.extension.graph
  ready : s'.extension.Ready s.source S
  added : s'.extension.Added s.source slot.bounded
  pending {k : Key} : s'.pending k = if key = k then [] else s.pending k
  value {ρ : Valuation K} {q : List Int} : s'.extension.Settled s.source ρ →
    q.length = (s.source.argsOf key.target).length →
    ρ.call slot.bounded q = if q ∈ (s.regionOf key.target).points then s.collected ρ key q else 0

variable [IsStrictOrderedRing K] in
theorem settle_spec (ready : s.extension.Ready s.source S) (below : ∀ f, S f → f.index < s.source.size)
    (tidy : s.Tidy S) (distinct : (s.source.argsOf key.target).Nodup)
    (dims : (s.regionOf key.target).dims = (s.source.argsOf key.target).length) :
    s.Settling S key (s.settle key).1 (s.settle key).2 := by
  have made := (s.site key).materialize_spec ready below (tidy key) distinct dims
  refine ⟨rfl, rfl, rfl, rfl, made.grows, made.ready, made.added, ?_, made.value⟩
  intro k
  change ((s.terms.erase key).get? k).getD [] = _
  rw [Table.get?_erase]
  split
  · rfl
  · rfl

theorem Settling.collected {slot : Slot} {s' : Sweep (Exact K)} (h : s.Settling S key slot s') {ρ : Valuation K} {k : Key}
    (other : key ≠ k) : s'.collected ρ k = s.collected ρ k := by
  unfold Sweep.collected
  rw [h.pending, if_neg other, h.source]

theorem Settling.regionOf {slot : Slot} {s' : Sweep (Exact K)} (h : s.Settling S key slot s') (t : Target) :
    s'.regionOf t = s.regionOf t := by
  unfold Sweep.regionOf
  rw [h.source, h.regions]

theorem Settling.balance {slot : Slot} {s' : Sweep (Exact K)} (h : s.Settling S key slot s') {ρ : Valuation K}
    {τ : Target → List Int → K} {targets : List Target} (others : ∀ t ∈ targets, key ≠ s.source.keyOf t) :
    s'.balance ρ τ targets = s.balance ρ τ targets := by
  refine congrArg List.sum (List.map_congr_left fun t mem => ?_)
  rw [h.regionOf, h.source, h.collected (others t mem)]

theorem Settling.tidy {slot : Slot} {s' : Sweep (Exact K)} (h : s.Settling S key slot s') (tidy : s.Tidy S) :
    s'.Tidy S := by
  intro k t mem
  rw [h.pending] at mem
  split at mem
  · cases mem
  · rw [h.source]
    exact (tidy k t mem).mono fun t known => known.grow h.grows

theorem process_initial {f : FuncId} {d : Definition (Exact K)} {s' : Sweep (Exact K)}
    (init : (s.source.func f).init = some d) (run : s.process f .initial = .ok s') :
    ∃ progress, s' = (({ s with progress }.settle ⟨.func f, .initial⟩).2).passOn f d d.value.partials
      (.call ({ s with progress }.settle ⟨.func f, .initial⟩).1.bounded d.lhs) f := by
  unfold process at run
  obtain ⟨progress, -, run⟩ := bind_eq_ok.mp run
  refine ⟨progress, ?_⟩
  have source : ({ s with progress }.settle ⟨.func f, .initial⟩).2.source = s.source := rfl
  cases settled : { s with progress }.settle ⟨.func f, .initial⟩ with
  | mk slot s₁ =>
    rw [settled] at source run
    have found : (s₁.source.func f).definition? .initial = some d := by
      rw [source]
      exact init
    simp only [found] at run
    exact contributeReads_eq run

end Sweep

end ArrayDiff
