import ArrayDiff.Proofs.Pending

/-!
# Linear recurrences and their transposes

A linear recurrence runs forwards through a list and its transpose runs backwards (`Recurrence.advance`,
`Recurrence.retreat`). Neither proof follows the order of the steps further than needed: a forward run is determined by
what each step reads at the end (`foldl_advance`), a backward run by the final values at the targets (`foldl_retreat`),
and the two equations give the pairing (`Recurrence.pairing`).
-/

namespace ArrayDiff

variable {K : Type} [Field K] [LinearOrder K] [IsStrictOrderedRing K]

/-! ### Storage -/

section Storage

variable {X V : Type} {target : X → List Int} {value : (List Int → V) → X → V} {l : List X}

theorem foldl_update_of_not_mem {q : List Int} (off : q ∉ l.map target) (F : List Int → V) :
    l.foldl (fun F x => Function.update F (target x) (value F x)) F q = F q := by
  induction l generalizing F with
  | nil => rfl
  | cons x l ih =>
    rw [List.map_cons, List.mem_cons, not_or] at off
    rw [List.foldl_cons, ih off.2]
    exact Function.update_of_ne off.1 _ _

/-- Where every position is written once, by a step that has not seen any new value, the new values follow from the old
ones. -/
theorem foldl_update (once : l.Pairwise fun x y => target x ≠ target y)
    (old : l.Pairwise fun x y => ∀ F v, value (Function.update F (target x) v) y = value F y) (F : List Int → V) :
    ∀ x ∈ l, l.foldl (fun F x => Function.update F (target x) (value F x)) F (target x) = value F x := by
  induction l generalizing F with
  | nil => exact fun x mem => absurd mem List.not_mem_nil
  | cons y l ih =>
    obtain ⟨apart, once⟩ := List.pairwise_cons.mp once
    obtain ⟨unseen, old⟩ := List.pairwise_cons.mp old
    intro x mem
    rw [List.foldl_cons]
    rcases List.mem_cons.mp mem with rfl | mem
    · have off : target x ∉ l.map target := by
        intro listed
        obtain ⟨z, mem, same⟩ := List.mem_map.mp listed
        exact apart z mem same.symm
      rw [foldl_update_of_not_mem off]
      exact Function.update_self _ _ _
    · rw [ih once old _ x mem, unseen x mem]

omit [LinearOrder K] [IsStrictOrderedRing K] in
theorem sum_split {R ts : List (List Int)} (distinct : R.Nodup) (once : ts.Nodup) (inside : ∀ t ∈ ts, t ∈ R)
    (w : List Int → K) : (R.map w).sum = (R.map fun p => if p ∈ ts then 0 else w p).sum + (ts.map w).sum := by
  have written : (ts.map w).sum = (R.map fun p => if p ∈ ts then w p else 0).sum := by
    have single : ∀ t ∈ ts, w t = (R.map fun p => if p = t then w p else 0).sum := by
      intro t mem
      rw [sum_map_single distinct (inside t mem) fun p other _ => if_neg other, if_pos rfl]
    rw [List.map_congr_left single, sum_exchange]
    refine congrArg List.sum (List.map_congr_left fun p _ => ?_)
    by_cases mem : p ∈ ts
    · rw [if_pos mem, sum_map_single once mem fun t other _ => if_neg (Ne.symm other), if_pos rfl]
    · rw [if_neg mem]
      refine List.sum_eq_zero fun v listed => ?_
      obtain ⟨t, own, rfl⟩ := List.mem_map.mp listed
      refine if_neg ?_
      rintro rfl
      exact mem own
  rw [written, ← List.sum_map_add]
  refine congrArg List.sum (List.map_congr_left fun p _ => ?_)
  by_cases mem : p ∈ ts <;> simp [mem]

omit [LinearOrder K] [IsStrictOrderedRing K] in
theorem pairing_of_written {R : List (List Int)} (distinct : R.Nodup)
    (once : l.Pairwise fun x y => target x ≠ target y) (inside : ∀ x ∈ l, target x ∈ R) {next prev : List Int → K}
    {new : X → K} (written : ∀ x ∈ l, next (target x) = new x) (kept : ∀ q, q ∉ l.map target → next q = prev q)
    (adj : List Int → K) : (R.map fun q => adj q * next q).sum =
      (R.map fun q => (if q ∈ l.map target then 0 else adj q) * prev q).sum +
      (l.map fun x => adj (target x) * new x).sum := by
  have targets : ∀ t ∈ l.map target, t ∈ R := by
    intro t mem
    obtain ⟨x, listed, rfl⟩ := List.mem_map.mp mem
    exact inside x listed
  rw [sum_split distinct (List.pairwise_map.mpr once) targets]
  congr 2
  · refine List.map_congr_left fun q _ => ?_
    by_cases mem : q ∈ l.map target
    · rw [if_pos mem, if_pos mem, zero_mul]
    · rw [if_neg mem, if_neg mem, kept q mem]
  · rw [List.map_map]
    refine List.map_congr_left fun x mem => ?_
    rw [Function.comp_apply, written x mem]

end Storage

/-! ### Recurrences -/

/-- Every step adds a multiple of the value at its source to its target. -/
structure Recurrence (X K : Type) where
  target : X → List Int
  source : X → List Int
  step : X → K

namespace Recurrence

section Runs

variable {X : Type} (c : Recurrence X K) (accumulates : Bool) (other : X → K)

/-- One step forwards, with something added on top. -/
def advance (F : List Int → K) (x : X) : List Int → K :=
  Function.update F (c.target x) ((if accumulates then F (c.target x) else 0) + c.step x * F (c.source x) + other x)

/-- One step of the transposed recurrence. -/
def retreat (V : List Int → K) (x : X) : List Int → K :=
  Function.update V (c.source x) (V (c.source x) + c.step x * V (c.target x))

variable {c accumulates other} {l m : List X}

omit [LinearOrder K] [IsStrictOrderedRing K] in
theorem foldl_advance_of_not_mem {q : List Int} (off : q ∉ l.map c.target) (F : List Int → K) :
    l.foldl (c.advance accumulates other) F q = F q := foldl_update_of_not_mem off F

/-- No step writes what an earlier step, or the step itself, has read or written. -/
structure Ordered (c : Recurrence X K) (l : List X) : Prop where
  fresh : l.Pairwise fun x y => c.target x ≠ c.target y ∧ c.source x ≠ c.target y
  apart : ∀ x ∈ l, c.source x ≠ c.target x

omit [LinearOrder K] [IsStrictOrderedRing K] in
theorem foldl_advance (ordered : c.Ordered l) (F : List Int → K) : ∀ x ∈ l,
    l.foldl (c.advance accumulates other) F (c.target x) = (if accumulates then F (c.target x) else 0) +
      c.step x * l.foldl (c.advance accumulates other) F (c.source x) + other x := by
  obtain ⟨fresh, apart⟩ := ordered
  induction l generalizing F with
  | nil => exact fun x mem => absurd mem List.not_mem_nil
  | cons y l ih =>
    obtain ⟨first, fresh⟩ := List.pairwise_cons.mp fresh
    intro x mem
    rw [List.foldl_cons]
    rcases List.mem_cons.mp mem with rfl | mem
    · have offTarget : c.target x ∉ l.map c.target := fun listed => by
        obtain ⟨z, mem, same⟩ := List.mem_map.mp listed
        exact (first z mem).1 same.symm
      have offSource : c.source x ∉ l.map c.target := fun listed => by
        obtain ⟨z, mem, same⟩ := List.mem_map.mp listed
        exact (first z mem).2 same.symm
      have sourceKept : c.advance accumulates other F x (c.source x) = F (c.source x) :=
        Function.update_of_ne (apart x List.mem_cons_self) _ _
      rw [foldl_advance_of_not_mem offTarget, foldl_advance_of_not_mem offSource, sourceKept]
      exact Function.update_self _ _ _
    · have kept : c.advance accumulates other F y (c.target x) = F (c.target x) :=
        Function.update_of_ne (first x mem).1.symm _ _
      rw [ih _ fresh (fun z mem => apart z (List.mem_cons_of_mem _ mem)) x mem, kept]

/-- No step of a backward run adds to a target of an earlier step, or to its own. -/
structure Settled (c : Recurrence X K) (m : List X) : Prop where
  final : m.Pairwise fun x y => c.source y ≠ c.target x
  apart : ∀ x ∈ m, c.source x ≠ c.target x

omit [LinearOrder K] [IsStrictOrderedRing K] in
theorem foldl_retreat (settled : c.Settled m) (V : List Int → K) (q : List Int) :
    m.foldl c.retreat V q =
      V q + (m.map fun x => if c.source x = q then c.step x * m.foldl c.retreat V (c.target x) else 0).sum := by
  obtain ⟨final, apart⟩ := settled
  induction m generalizing V q with
  | nil => simp
  | cons y m ih =>
    obtain ⟨first, final⟩ := List.pairwise_cons.mp final
    have rest (p : List Int) := ih (c.retreat V y) p final fun x mem => apart x (List.mem_cons_of_mem _ mem)
    have own : m.foldl c.retreat (c.retreat V y) (c.target y) = V (c.target y) := by
      have nothing : (m.map fun x => if c.source x = c.target y
          then c.step x * m.foldl c.retreat (c.retreat V y) (c.target x) else 0).sum = 0 := by
        refine List.sum_eq_zero fun v mem => ?_
        obtain ⟨x, listed, rfl⟩ := List.mem_map.mp mem
        exact if_neg (first x listed)
      rw [rest, nothing, add_zero]
      exact Function.update_of_ne (apart y List.mem_cons_self).symm _ _
    rw [List.foldl_cons, List.map_cons, List.sum_cons, rest q, own, ← add_assoc]
    congr 1
    unfold retreat
    by_cases same : c.source y = q
    · rw [if_pos same, ← same, Function.update_self]
    · rw [if_neg same, add_zero, Function.update_of_ne (Ne.symm same)]

end Runs

variable {X : Type} {c : Recurrence X K} {accumulates : Bool} {l m : List X} {R : List (List Int)}

/-- The transposed recurrence takes the adjoint of the values after a forward run to the adjoint of those before it. -/
theorem pairing (ordered : c.Ordered l) (settled : c.Settled m) (perm : m.Perm l) (distinct : R.Nodup)
    (inside : ∀ x ∈ l, c.target x ∈ R ∧ c.source x ∈ R) (adj prev : List Int → K) (other : X → K) :
    (R.map fun p => adj p * l.foldl (c.advance accumulates other) prev p).sum =
      (R.map fun p => (if accumulates then m.foldl c.retreat adj p
        else if p ∈ l.map c.target then 0 else m.foldl c.retreat adj p) * prev p).sum +
      (l.map fun x => m.foldl c.retreat adj (c.target x) * other x).sum := by
  generalize final : m.foldl c.retreat adj = V
  generalize after : l.foldl (c.advance accumulates other) prev = next
  have back (p : List Int) : V p = adj p + (l.map fun x => if c.source x = p then c.step x * V (c.target x) else 0).sum := by
    have equation := foldl_retreat settled adj p
    rw [final] at equation
    rw [equation, (perm.map _).sum_eq]
  have forth : ∀ x ∈ l, next (c.target x) =
      (if accumulates then prev (c.target x) else 0) + c.step x * next (c.source x) + other x :=
    after ▸ foldl_advance ordered prev
  have once : (l.map c.target).Nodup := List.pairwise_map.mpr (ordered.fresh.imp And.left)
  have targets : ∀ t ∈ l.map c.target, t ∈ R := by
    intro t mem
    obtain ⟨x, listed, rfl⟩ := List.mem_map.mp mem
    exact (inside x listed).1
  -- what the backward run adds to the adjoint pairs with the values that the forward run reads
  have exchanged : (R.map fun p => V p * next p).sum = (R.map fun p => adj p * next p).sum +
      (l.map fun x => c.step x * V (c.target x) * next (c.source x)).sum := by
    have spread := sum_spread (w := fun x => c.step x * V (c.target x)) distinct (fun x mem _ => (inside x mem).2) next
    rw [← spread, ← List.sum_map_add]
    refine congrArg List.sum (List.map_congr_left fun p _ => ?_)
    conv_lhs => rw [back p]
    exact add_mul _ _ _
  have left := sum_split distinct once targets fun p => V p * next p
  have right := sum_split distinct once targets fun p => (if accumulates then V p
    else if p ∈ l.map c.target then 0 else V p) * prev p
  have untouched : (R.map fun p => if p ∈ l.map c.target then 0 else V p * next p).sum =
      (R.map fun p => if p ∈ l.map c.target then 0 else (if accumulates then V p
        else if p ∈ l.map c.target then 0 else V p) * prev p).sum := by
    refine congrArg List.sum (List.map_congr_left fun p _ => ?_)
    by_cases mem : p ∈ l.map c.target
    · rw [if_pos mem, if_pos mem]
    · rw [if_neg mem, if_neg mem, if_neg mem, ite_self, ← after, foldl_advance_of_not_mem mem]
  have touched : ((l.map c.target).map fun p => V p * next p).sum =
      ((l.map c.target).map fun p => (if accumulates then V p
        else if p ∈ l.map c.target then 0 else V p) * prev p).sum +
      (l.map fun x => c.step x * V (c.target x) * next (c.source x)).sum +
      (l.map fun x => V (c.target x) * other x).sum := by
    rw [List.map_map, List.map_map, ← List.sum_map_add, ← List.sum_map_add]
    refine congrArg List.sum (List.map_congr_left fun x mem => ?_)
    have written : c.target x ∈ l.map c.target := List.mem_map_of_mem mem
    simp only [Function.comp_apply, forth x mem, if_pos written]
    cases accumulates <;> simp <;> ring
  linarith only [exchanged, left, right, untouched, touched]

end Recurrence

end ArrayDiff
