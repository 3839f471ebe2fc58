import ArrayDiff.Proofs.DepthFirst

/-!
# Outlines to a depth

A trail goes from a func along calls, through distinct funcs. An outline to a depth shows funcs that end a trail of no
more calls, each once. It does not go by the shortest trails: the walk follows a func only from where it meets it first,
and what is missing lies behind funcs that it can have met at the full depth (`Graph.outline_levels`). So nothing is
missing where all trails to a func are equally long (`Graph.outline_layered`), and with a depth for all funcs of the
graph nothing is missing at all (`Graph.outline_of_size_le`).
-/

namespace ArrayDiff

variable {κ : Type}

namespace Graph

/-- Calls one after the other, from `root` to the func that comes first, through distinct funcs. -/
inductive Trail (g : Graph κ) (root : FuncId) : List FuncId → Prop where
  | start : Trail g root [root]
  | call {f h : FuncId} {before : List FuncId} :
    Trail g root (f :: before) → h ∈ (g.func f).callees f → h ∉ f :: before → Trail g root (h :: f :: before)

/-- A func waits at the level of a trail through funcs that were seen, unless one of them is the func itself. -/
def Awaits (g : Graph κ) (root : FuncId) (seen : List FuncId) (e : FuncId × Nat) : Prop :=
  ∃ before, before ⊆ seen ∧ before.length = e.2 ∧ (e.1 ∉ before → g.Trail root (e.1 :: before))

variable {g : Graph κ} {root f h : FuncId} {before seen seen' order : List FuncId} {pending rest : List (FuncId × Nat)}
  {depth : Option Nat} {n level looks : Nat}

/-! ### Trails -/

theorem Trail.nodup (trail : g.Trail root before) : before.Nodup := by
  induction trail with
  | start => exact List.nodup_singleton root
  | call _ _ fresh ih => exact List.nodup_cons.mpr ⟨fresh, ih⟩

/-- Only the last func of a trail can be unknown, because an unknown func calls nothing. -/
theorem Trail.known (trail : g.Trail root (h :: before)) : ∀ f ∈ before, f.index < g.size := by
  generalize same : h :: before = all at trail
  induction trail generalizing h before with
  | start =>
    obtain rfl := (List.cons.inj same).2
    nofun
  | @call f _ older _ called _ ih =>
    obtain rfl := (List.cons.inj same).2
    refine List.forall_mem_cons.mpr ⟨?_, ih rfl⟩
    by_contra unknown
    have nothing := (mem_calls (g := g)).mpr (mem_callees.mp called).1
    rw [calls_of_unknown unknown] at nothing
    cases nothing

theorem Trail.length_lt_size (trail : g.Trail root (h :: before)) (known : h.index < g.size) :
    before.length < g.size :=
  length_le_size trail.nodup (List.forall_mem_cons.mpr ⟨known, trail.known⟩)

theorem Trail.shorter (trail : g.Trail root (h :: before)) (mem : f ∈ before) :
    ∃ older, g.Trail root (f :: older) ∧ older.length < before.length := by
  induction before generalizing h with
  | nil => cases mem
  | cons k before ih =>
    cases trail with
    | call rest _ _ =>
      rcases List.mem_cons.mp mem with rfl | mem
      · exact ⟨before, rest, Nat.lt_succ_self _⟩
      · obtain ⟨older, end_, fewer⟩ := ih rest mem
        exact ⟨older, end_, Nat.lt_succ_of_lt fewer⟩

/-! ### What is pending -/

theorem Awaits.mono {e : FuncId × Nat} (awaits : g.Awaits root seen e) (more : seen ⊆ seen') :
    g.Awaits root seen' e := by
  obtain ⟨before, old, size, trail⟩ := awaits
  exact ⟨before, fun f mem => more (old mem), size, trail⟩

/-- A func that is met for the first time ends a trail of as many calls as its level says. -/
theorem Awaits.trail (awaits : g.Awaits root seen (f, level)) (new : f ∉ seen) :
    ∃ before, before ⊆ seen ∧ before.length = level ∧ g.Trail root (f :: before) := by
  obtain ⟨before, old, size, trail⟩ := awaits
  exact ⟨before, old, size, trail fun mem => new (old mem)⟩

theorem Awaits.ahead (awaits : g.Awaits root seen (f, level)) (new : f ∉ seen) :
    ∀ e ∈ g.ahead depth f level, g.Awaits root (f :: seen) e := by
  obtain ⟨before, old, size, trail⟩ := awaits.trail new
  intro e mem
  unfold Graph.ahead at mem
  split at mem
  · cases mem
  · obtain ⟨h, called, rfl⟩ := List.mem_map.mp mem
    exact ⟨f :: before, List.cons_subset_cons f old, congrArg (· + 1) size, fun fresh => trail.call called fresh⟩

theorem awaits_first (depth : Option Nat) (awaits : ∀ e ∈ (f, level) :: rest, g.Awaits root seen e) (new : f ∉ seen) :
    ∀ e ∈ g.ahead depth f level ++ rest, g.Awaits root (f :: seen) e := by
  obtain ⟨own, others⟩ := List.forall_mem_cons.mp awaits
  exact List.forall_mem_append.mpr
    ⟨own.ahead new, fun e mem => (others e mem).mono (List.subset_cons_self f seen)⟩

theorem level_le_of_mem_ahead {e : FuncId × Nat} (mem : e ∈ g.ahead (some n) f level) : e.2 ≤ n := by
  unfold ahead at mem
  split at mem
  · cases mem
  · rename_i below
    obtain ⟨h, _, rfl⟩ := List.mem_map.mp mem
    exact Nat.lt_of_not_le fun reached => below (by simpa using reached)

/-! ### What is visited -/

theorem Visiting.nodup (visits : g.Visiting depth seen pending looks order) :
    order.Nodup ∧ ∀ h ∈ order, h ∉ seen ∧ h.index < g.size := by
  induction visits with
  | done => exact ⟨List.nodup_nil, nofun⟩
  | again _ _ ih | unknown _ _ ih => exact ih
  | first new inside _ ih =>
    obtain ⟨distinct, fresh⟩ := ih
    refine ⟨List.nodup_cons.mpr ⟨fun mem => (fresh _ mem).1 List.mem_cons_self, distinct⟩, ?_⟩
    refine List.forall_mem_cons.mpr ⟨⟨new, inside⟩, fun h mem => ⟨fun old => ?_, (fresh h mem).2⟩⟩
    exact (fresh h mem).1 (List.mem_cons_of_mem _ old)

/-- What was pending is seen or visited. Each func that is visited ends a trail within the limit, and where that trail
stays below the limit, what the func calls is seen or visited, too. -/
theorem Visiting.levels (visits : g.Visiting (some n) seen pending looks order)
    (awaits : ∀ e ∈ pending, g.Awaits root seen e) (within : ∀ e ∈ pending, e.2 ≤ n) :
    (∀ e ∈ pending, e.1.index < g.size → e.1 ∈ seen ∨ e.1 ∈ order) ∧
      ∀ h ∈ order, ∃ before, g.Trail root (h :: before) ∧ before.length ≤ n ∧ (before.length < n →
        ∀ k ∈ (g.func h).callees h, k.index < g.size → k ∈ seen ∨ k ∈ order) := by
  induction visits with
  | done => exact ⟨nofun, nofun⟩
  | again old _ ih =>
    obtain ⟨met, trails⟩ := ih (List.forall_mem_cons.mp awaits).2 (List.forall_mem_cons.mp within).2
    exact ⟨List.forall_mem_cons.mpr ⟨fun _ => Or.inl old, met⟩, trails⟩
  | unknown outside _ ih =>
    obtain ⟨met, trails⟩ := ih (List.forall_mem_cons.mp awaits).2 (List.forall_mem_cons.mp within).2
    exact ⟨List.forall_mem_cons.mpr ⟨fun inside => absurd inside outside, met⟩, trails⟩
  | @first seen order f level _ rest new _ _ ih =>
    obtain ⟨own, others⟩ := List.forall_mem_cons.mp within
    obtain ⟨met, trails⟩ := ih (awaits_first _ awaits new)
      (List.forall_mem_append.mpr ⟨fun e mem => level_le_of_mem_ahead mem, others⟩)
    have either {h : FuncId} (known : h ∈ f :: seen ∨ h ∈ order) : h ∈ seen ∨ h ∈ f :: order := by
      rw [List.mem_cons] at known ⊢
      tauto
    refine ⟨List.forall_mem_cons.mpr ⟨fun _ => Or.inr List.mem_cons_self, fun e mem inside => ?_⟩, ?_⟩
    · exact either (met e (List.mem_append_right _ mem) inside)
    · refine List.forall_mem_cons.mpr ⟨?_, fun h mem => ?_⟩
      · obtain ⟨before, _, size, trail⟩ := (awaits _ List.mem_cons_self).trail new
        refine ⟨before, trail, size ▸ own, fun below k called inside => ?_⟩
        have next : (k, level + 1) ∈ g.ahead (some n) f level := by
          unfold ahead
          rw [if_neg (by simpa using size ▸ below)]
          exact List.mem_map_of_mem called
        exact either (met _ (List.mem_append_left _ next) inside)
      · obtain ⟨before, trail, few, closed⟩ := trails h mem
        exact ⟨before, trail, few, fun below k called inside => either (closed below k called inside)⟩

theorem visitOrder_of_size_le (enough : g.size ≤ n) (awaits : ∀ e ∈ pending, g.Awaits root seen e) :
    g.visitOrder (some n) seen pending = g.visitOrder none seen pending := by
  fun_induction g.visitOrder none seen pending with
  | case1 seen => rw [visitOrder]
  | case2 seen f level rest old ih =>
    rw [visitOrder, if_pos old]
    exact ih (List.forall_mem_cons.mp awaits).2
  | case3 seen f level rest new inside =>
    rename_i ih
    obtain ⟨before, _, size, trail⟩ := (awaits _ List.mem_cons_self).trail new
    have below : ¬n ≤ level := by
      have fewer := trail.length_lt_size inside
      omega
    rw [visitOrder, if_neg new, dif_pos inside]
    simp only [Option.any_some, decide_eq_true_eq, if_neg below]
    exact congrArg (f :: ·) (ih (awaits_first none awaits new))
  | case4 seen f level rest new outside ih =>
    rw [visitOrder, if_neg new, dif_neg outside]
    exact ih (List.forall_mem_cons.mp awaits).2

theorem awaits_root (g : Graph κ) (f : FuncId) : ∀ e ∈ [(f, 0)], g.Awaits f [] e :=
  List.forall_mem_singleton.mpr ⟨[], List.Subset.refl [], rfl, fun _ => .start⟩

/-! ### Outlines -/

section Outline

variable [Literal κ] [Scalar κ]

theorem outline_of_size_le (g : Graph κ) (f : FuncId) {n : Nat} (enough : g.size ≤ n)
    (shown : Name → Option (Expr κ)) : g.outline f { depth := some n, shown } = g.outline f { shown } := by
  unfold outline
  rw [visitOrder_of_size_le enough (awaits_root g f)]
  rfl

/-- An outline to a depth shows funcs within that many calls, each once with all its definitions. A func within that
many calls that is missing has, on each way to it, a func that is shown and that is the full depth away on some way. -/
theorem outline_levels (g : Graph κ) (f : FuncId) (n : Nat) (shown : Name → Option (Expr κ)) :
    ∃ (order : List FuncId) (texts : FuncId → String), order.Nodup ∧
      (∀ h, (g.func h).SpelledAs g shown (texts h)) ∧
      g.outline f { depth := some n, shown } = String.join (order.map texts) ∧
      (∀ h ∈ order, ∃ before, g.Trail f (h :: before) ∧ before.length ≤ n) ∧
      ∀ h before, g.Trail f (h :: before) → before.length ≤ n → h.index < g.size → h ∉ order →
        ∃ k ∈ before, k ∈ order ∧ ∃ detour, g.Trail f (k :: detour) ∧ detour.length = n := by
  obtain ⟨looks, visits⟩ := exists_visiting g (some n) [] [(f, 0)]
  obtain ⟨start, trails⟩ := visits.levels (awaits_root g f) (List.forall_mem_singleton.mpr (Nat.zero_le n))
  refine ⟨_, _, visits.nodup.1, fun h => spelledAs_funcText g (some n) shown (g.func h), rfl, fun h mem => ?_,
    fun h before trail few inside missing => ?_⟩
  · obtain ⟨before, trail, few, _⟩ := trails h mem
    exact ⟨before, trail, few⟩
  -- the func is missing because the one before it is missing, or because that one was met at the full depth
  · induction before generalizing h with
    | nil =>
      cases trail
      exact absurd ((start _ List.mem_cons_self inside).resolve_left List.not_mem_nil) missing
    | cons k before ih =>
      cases trail with
      | call rest called _ =>
        by_cases listed : k ∈ g.visitOrder (some n) [] [(f, 0)]
        · obtain ⟨detour, trail, few, closed⟩ := trails k listed
          refine ⟨k, List.mem_cons_self, listed, detour, trail, Nat.le_antisymm few (Nat.le_of_not_lt fun below => ?_)⟩
          exact missing ((closed below h called inside).resolve_left List.not_mem_nil)
        · have known : k.index < g.size := (rest.call called ‹_›).known k List.mem_cons_self
          obtain ⟨blocked, mem, found⟩ := ih k rest (Nat.le_of_succ_le few) known listed
          exact ⟨blocked, List.mem_cons_of_mem _ mem, found⟩

/-- `out` calls `short`, and before that it does so through `long`. -/
def shortcut : Graph (Exact ℚ) where
  funcs := #[
    { name := "out", args := [], init := some ⟨[], .binary .add (.call ⟨1⟩ []) (.call ⟨2⟩ []), none⟩ },
    { name := "long", args := [], init := some ⟨[], .call ⟨2⟩ [], none⟩ },
    { name := "short", args := [], init := some ⟨[], .call ⟨3⟩ [], none⟩ },
    { name := "last", args := [], init := some ⟨[], .one, none⟩ }]

/-- Two calls lead to `last`, but the walk meets `short` after two calls. -/
example : shortcut.visitOrder (some 2) [] [(⟨0⟩, 0)] = [⟨0⟩, ⟨1⟩, ⟨2⟩] := by
  cbv

/-- Where all ways to a func are equally long, as in chains and trees, the depth is exact. -/
theorem outline_layered (g : Graph κ) (f : FuncId) (n : Nat) (shown : Name → Option (Expr κ))
    (layered : ∀ h before before', g.Trail f (h :: before) → g.Trail f (h :: before') →
      before.length = before'.length) :
    ∃ (order : List FuncId) (texts : FuncId → String), order.Nodup ∧
      (∀ h, (g.func h).SpelledAs g shown (texts h)) ∧
      g.outline f { depth := some n, shown } = String.join (order.map texts) ∧
      ∀ h, h.index < g.size → (h ∈ order ↔ ∃ before, g.Trail f (h :: before) ∧ before.length ≤ n) := by
  obtain ⟨order, texts, distinct, spelled, text, trails, missing⟩ := g.outline_levels f n shown
  refine ⟨order, texts, distinct, spelled, text, fun h inside => ⟨trails h, fun ⟨before, trail, few⟩ => ?_⟩⟩
  by_contra absent
  obtain ⟨k, mem, _, detour, long, size⟩ := missing h before trail few inside absent
  obtain ⟨older, short, fewer⟩ := trail.shorter mem
  have same := layered k older detour short long
  omega

end Outline

end Graph

end ArrayDiff
