import Mathlib.Data.List.Chain
import ArrayDiff.Proofs.Dependency

/-!
# Graphs without a schedule

A traversal ends on every graph. It fails exactly when the root depends on a func that is undefined, that reads itself
in its initial definition, or that lies on a cycle through another func, and the error names such a func or shows such
a cycle (`Graph.schedule_diagnoses`).
-/

namespace ArrayDiff

variable {κ : Type}

namespace Graph

/-- Some definition of `f` mentions `h`. -/
def Uses (g : Graph κ) (f h : FuncId) : Prop :=
  ∃ stage d, (g.func f).definition? stage = some d ∧ d.Mentions (.func h)

/-- What keeps everything that depends on `f` from being scheduled. -/
inductive Defective (g : Graph κ) (f : FuncId) : Prop where
  | undefined : (g.func f).init = none → Defective g f
  | selfReference {d : Definition κ} : (g.func f).init = some d → d.Mentions (.func f) → Defective g f
  | cycle {h : FuncId} : h ≠ f → g.DependsOn f (.func h) → g.DependsOn h (.func f) → Defective g f

/-- A closed walk along uses, through `start` and other funcs, all of them distinct and below `root`. -/
structure ClosedWalk (g : Graph κ) (root start : FuncId) (others : List FuncId) : Prop where
  several : others ≠ []
  distinct : (start :: others).Nodup
  below (f : FuncId) : f ∈ start :: others → g.DependsOn root (.func f)
  uses : (start :: others ++ [start]).IsChain g.Uses

end Graph

/-- What an error says is the case for funcs that `root` depends on. -/
def GraphError.HoldsOf (g : Graph κ) (root : FuncId) : GraphError → Prop
  | cycle path => ∃ start others,
    path = (start :: others ++ [start]).map (fun f => g.nameOf (.func f)) ∧ g.ClosedWalk root start others
  | selfReference name => ∃ f d, name = g.nameOf (.func f) ∧ g.DependsOn root (.func f) ∧
    (g.func f).init = some d ∧ d.Mentions (.func f)
  | undefined name => ∃ f, name = g.nameOf (.func f) ∧ g.DependsOn root (.func f) ∧ (g.func f).init = none

namespace Graph

variable {g : Graph κ} {root f h : FuncId} {depth : Nat} {path : List FuncId} {s : Schedule}

theorem uses_of_reads {stage : Stage} (reads : (g.func f).Reads stage (.func h)) : g.Uses f h := by
  obtain ⟨d, found, mentioned⟩ := Func.reads_iff.mp reads
  exact ⟨stage, d, found, mentioned⟩

theorem DependsOn.uses (depends : g.DependsOn root (.func f)) (uses : g.Uses f h) : g.DependsOn root (.func h) := by
  obtain ⟨stage, d, found, mentioned⟩ := uses
  exact depends.read found mentioned

theorem DependsOn.chain {start : FuncId} {others : List FuncId} (walk : (start :: others).IsChain g.Uses)
    (mem : h ∈ start :: others) : g.DependsOn start (.func h) := by
  induction others generalizing start with
  | nil =>
    obtain rfl := List.mem_singleton.mp mem
    exact .root
  | cons next others ih =>
    obtain ⟨uses, rest⟩ := List.isChain_cons_cons.mp walk
    rcases List.mem_cons.mp mem with rfl | mem
    · exact .root
    have first : g.Reaches start (.func next) := dependsOn_iff_reaches.mp (DependsOn.root.uses uses)
    exact dependsOn_iff_reaches.mpr (first.trans (dependsOn_iff_reaches.mp (ih rest mem)))

/-! ### The funcs that wait -/

/-- The funcs of `path` wait for `f`: each of them uses the one before it, and there is depth enough left for all funcs
of the graph that do not wait yet. -/
structure Waiting (g : Graph κ) (root : FuncId) (depth : Nat) (path : List FuncId) (f : FuncId) : Prop where
  chain : (f :: path).IsChain fun a b => g.Uses b a
  below : ∀ h ∈ f :: path, g.DependsOn root (.func h)
  distinct : path.Nodup
  defined : ∀ h ∈ path, (g.func h).init.isSome
  other : path.head? ≠ some f
  enough : g.size < depth + path.length

theorem Waiting.start (g : Graph κ) (root : FuncId) : g.Waiting root (g.size + 1) [] root where
  chain := List.isChain_singleton root
  below := List.forall_mem_singleton.mpr .root
  distinct := List.nodup_nil
  defined := nofun
  other := nofun
  enough := Nat.lt_succ_self _

theorem Waiting.depth_pos (waiting : g.Waiting root depth path f) : depth ≠ 0 := by
  have bound := length_le_size waiting.distinct fun h mem => index_lt_of_init (waiting.defined h mem)
  have enough := waiting.enough
  omega

theorem Waiting.next (waiting : g.Waiting root (depth + 1) path f) (fresh : f ∉ path)
    (defined : (g.func f).init.isSome) (uses : g.Uses f h) (other : h ≠ f) : g.Waiting root depth (f :: path) h where
  chain := List.isChain_cons_cons.mpr ⟨uses, waiting.chain⟩
  below := List.forall_mem_cons.mpr ⟨(waiting.below f List.mem_cons_self).uses uses, waiting.below⟩
  distinct := List.nodup_cons.mpr ⟨fresh, waiting.distinct⟩
  defined := List.forall_mem_cons.mpr ⟨defined, waiting.defined⟩
  other := fun same => other (Option.some.inj same).symm
  enough := by
    have enough := waiting.enough
    rw [List.length_cons]
    omega

/-- A func that waits already closes a walk with the funcs that began to wait after it. -/
theorem Waiting.closedWalk (waiting : g.Waiting root depth path f) (again : f ∈ path) :
    g.ClosedWalk root f (path.takeWhile (· ≠ f)).reverse := by
  obtain ⟨newer, older, split, apart⟩ := List.eq_append_cons_of_mem again
  have walk : path.takeWhile (· ≠ f) = newer := by
    have passed : ∀ h ∈ newer, decide (h ≠ f) = true := fun h mem => decide_eq_true fun same => apart (same ▸ mem)
    rw [split, List.takeWhile_append_of_pos passed]
    simp
  rw [walk]
  have chain := waiting.chain
  have below := waiting.below
  rw [split] at chain below
  refine ⟨fun none => waiting.other ?_, ?_, fun h mem => below h ?_, ?_⟩
  · rw [split, List.reverse_eq_nil_iff.mp none]
    rfl
  · have distinct := waiting.distinct
    rw [split] at distinct
    refine List.nodup_cons.mpr ⟨fun mem => apart (List.mem_reverse.mp mem), List.nodup_reverse.mpr ?_⟩
    exact (List.nodup_append.mp distinct).1
  · rcases List.mem_cons.mp mem with rfl | mem
    · exact List.mem_cons_self
    · exact List.mem_cons_of_mem _ (List.mem_append_left _ (List.mem_reverse.mp mem))
  · have closed : (f :: newer ++ [f]).IsChain fun a b => g.Uses b a := by
      refine chain.prefix ⟨older, ?_⟩
      simp
    have backwards := List.isChain_reverse.mpr closed
    simpa using backwards

/-! ### One visit -/

/-- An error of a visit is right about the graph. -/
theorem Waiting.holdsOf_of_visit {e : GraphError} (waiting : g.Waiting root depth path f)
    (run : g.visit depth path f s = .error e) : e.HoldsOf g root := by
  induction depth generalizing path f s with
  | zero => exact absurd rfl waiting.depth_pos
  | succ depth ih =>
    have own := waiting.below f List.mem_cons_self
    rw [visit_succ] at run
    split at run
    · cases run
    split at run
    · rename_i again
      obtain rfl := Except.error.inj run
      exact ⟨f, _, rfl, waiting.closedWalk again⟩
    split at run
    · rename_i undefined
      obtain rfl := Except.error.inj run
      exact ⟨f, rfl, own, Option.isNone_iff_eq_none.mp undefined⟩
    rename_i fresh defined
    have defined : (g.func f).init.isSome := by simpa [Option.isSome_iff_ne_none] using defined
    rcases bind_eq_error.mp run with failed | ⟨_, -, final⟩
    · obtain ⟨⟨stage, target⟩, listed, s, -, failed⟩ :=
        exists_of_foldlM_error failed (fun _ => True) trivial fun _ _ _ _ _ _ => trivial
      have reads := Func.mem_dependencies.mp listed
      cases target with
      | func h =>
        change (if h = f then _ else _) = _ at failed
        split at failed
        · rename_i self
          subst self
          split at failed
          · rename_i initial
            subst initial
            obtain rfl := Except.error.inj failed
            obtain ⟨d, init, mentioned⟩ := Func.reads_iff.mp reads
            exact ⟨h, d, rfl, own, init, mentioned⟩
          · cases failed
        · rename_i other
          exact ih (waiting.next fresh defined (uses_of_reads reads) other) failed
      | buffer b => cases failed
      | param p => cases failed
    · cases final

/-- A visit comes to the same result with more depth: it never runs out of it. -/
theorem Waiting.visit_add (waiting : g.Waiting root depth path f) (extra : Nat) (s : Schedule) :
    g.visit (depth + extra) path f s = g.visit depth path f s := by
  induction depth generalizing path f s with
  | zero => exact absurd rfl waiting.depth_pos
  | succ depth ih =>
    rw [Nat.add_right_comm, visit_succ, visit_succ]
    split
    · rfl
    split
    · rfl
    split
    · rfl
    rename_i fresh defined
    have defined : (g.func f).init.isSome := by simpa [Option.isSome_iff_ne_none] using defined
    refine congrArg (· >>= _) (foldlM_congr (fun e listed s => ?_) s)
    obtain ⟨stage, target⟩ := e
    have reads := Func.mem_dependencies.mp listed
    cases target with
    | func h =>
      change (if h = f then _ else _) = (if h = f then _ else _)
      split
      · rfl
      · rename_i other
        exact ih (waiting.next fresh defined (uses_of_reads reads) other) s
    | buffer b => rfl
    | param p => rfl

/-! ### Defects -/

theorem Layered.rank_le {S : FuncId → Prop} {rank : FuncId → Nat} (layers : g.Layered S rank) {t : Target}
    (reached : g.Reaches f t) (mem : S f) : ∀ h, t = .func h → S h ∧ (h = f ∨ rank h < rank f) := by
  induction reached with
  | root =>
    rintro h ⟨⟩
    exact ⟨mem, Or.inl rfl⟩
  | @read k stage t _ reads ih =>
    rintro h rfl
    obtain ⟨inside, lower⟩ := ih k rfl
    by_cases self : h = k
    · subst self
      exact ⟨inside, lower⟩
    obtain ⟨inside', less⟩ := layers.below inside reads self
    refine ⟨inside', Or.inr ?_⟩
    rcases lower with rfl | lower
    · exact less
    · exact less.trans lower

theorem not_defective_of_schedule (order : g.schedule root = .ok s) (depends : g.DependsOn root (.func f)) :
    ¬g.Defective f := by
  have ordered := (ordered_schedule order).1
  have layers := ordered.layered
  have mem : f ∈ s.funcs := (lists_iff_dependsOn (t := .func f) order).mpr depends
  rintro (undefined | ⟨init, mentioned⟩ | ⟨other, there, back⟩)
  · have defined := ordered.defined f mem
    rw [undefined] at defined
    cases defined
  · exact layers.initial mem (Func.reads_iff.mpr ⟨_, init, mentioned⟩)
  · obtain ⟨inside, lower⟩ := layers.rank_le (dependsOn_iff_reaches.mp there) mem _ rfl
    obtain ⟨-, lower'⟩ := layers.rank_le (dependsOn_iff_reaches.mp back) inside _ rfl
    have less := lower.resolve_left other
    have less' := lower'.resolve_left other.symm
    exact Nat.lt_asymm less less'

theorem ClosedWalk.defective {start : FuncId} {others : List FuncId} (walk : g.ClosedWalk root start others) :
    g.Defective start := by
  obtain ⟨next, others, rfl⟩ := List.exists_cons_of_ne_nil walk.several
  have other : next ≠ start := fun same => (List.nodup_cons.mp walk.distinct).1 (same ▸ List.mem_cons_self)
  have chain := walk.uses
  have there : g.DependsOn start (.func next) :=
    DependsOn.chain chain (List.mem_cons_of_mem _ List.mem_cons_self)
  have back : g.DependsOn next (.func start) :=
    DependsOn.chain chain.tail (List.mem_append_right (next :: others) (List.mem_singleton.mpr rfl))
  exact .cycle other there back

theorem exists_defective {e : GraphError} (holds : e.HoldsOf g root) :
    ∃ f, g.DependsOn root (.func f) ∧ g.Defective f := by
  cases e with
  | cycle path =>
    obtain ⟨start, others, -, walk⟩ := holds
    exact ⟨start, walk.below start List.mem_cons_self, walk.defective⟩
  | selfReference name =>
    obtain ⟨f, d, -, depends, init, mentioned⟩ := holds
    exact ⟨f, depends, .selfReference init mentioned⟩
  | undefined name =>
    obtain ⟨f, -, depends, init⟩ := holds
    exact ⟨f, depends, .undefined init⟩

/-- The traversal of a graph never stops for lack of depth. It fails if and only if the root depends on a func with a
defect, and then the error is right about the defect. -/
theorem schedule_diagnoses (g : Graph κ) (root : FuncId) :
    (∀ extra, g.visit (g.size + 1 + extra) [] root {} = g.schedule root) ∧
      ((∃ e, g.schedule root = .error e) ↔ ∃ f, g.DependsOn root (.func f) ∧ g.Defective f) ∧
      ∀ e, g.schedule root = .error e → e.HoldsOf g root := by
  have waiting := Waiting.start g root
  have right : ∀ e, g.schedule root = .error e → e.HoldsOf g root := fun e failed => waiting.holdsOf_of_visit failed
  refine ⟨fun extra => waiting.visit_add extra {}, ⟨fun ⟨e, failed⟩ => exists_defective (right e failed), ?_⟩, right⟩
  rintro ⟨f, depends, defect⟩
  cases order : g.schedule root with
  | error e => exact ⟨e, rfl⟩
  | ok s => exact absurd defect (not_defective_of_schedule order depends)

end Graph

/-- `knot` reads `loop`, and an update of `loop` reads `knot` at its position. -/
def tangled : Graph (Exact ℚ) where
  funcs := #[
    { name := "out", args := ["x"], init := some ⟨[.var "x"], .call ⟨1⟩ [.var "x"], none⟩ },
    { name := "knot", args := ["x"], init := some ⟨[.var "x"], .call ⟨2⟩ [.var "x"], none⟩ },
    { name := "loop", args := ["x"], init := some ⟨[.var "x"], .var "x", none⟩,
      updates := [⟨[.call ⟨1⟩ [.rvar "r"]], .call ⟨2⟩ [.rvar "r"], some ⟨[("r", ⟨0, 1⟩)]⟩⟩] }]

/-- The cycle does not go through the root, and the read of `loop` in its own update is no part of it. -/
example : tangled.schedule ⟨0⟩ = .error (.cycle ["knot", "loop", "knot"]) := by
  decide +kernel

end ArrayDiff
