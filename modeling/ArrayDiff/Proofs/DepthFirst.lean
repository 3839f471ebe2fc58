import Mathlib.Algebra.Order.BigOperators.Group.List
import ArrayDiff.Graph.Outline
import ArrayDiff.Proofs.Diagnosis
import ArrayDiff.Proofs.Spelling

/-!
# Outlines in depth-first order

`DepthFirst` is the recursive traversal of what is reached along some steps: a node, then everything below its
successors, one successor after the other, without what was met before. An outline without a limit ends on every graph
and shows the funcs that a func depends on in that order, each once with all its definitions
(`Graph.outline_preorder`).
-/

namespace ArrayDiff

variable {κ : Type}

/-! ### The traversal -/

/-- `order` lists what is reached along `next` from the nodes of a list and was not met before, depth first. -/
inductive DepthFirst (next : FuncId → List FuncId) : List FuncId → List FuncId → List FuncId → Prop where
  | nil {met : List FuncId} : DepthFirst next met [] []
  | again {met rest order : List FuncId} {f : FuncId} :
    f ∈ met → DepthFirst next met rest order → DepthFirst next met (f :: rest) order
  | first {met rest below after : List FuncId} {f : FuncId} :
    f ∉ met → DepthFirst next (f :: met) (next f) below → DepthFirst next (below ++ f :: met) rest after →
    DepthFirst next met (f :: rest) (f :: below ++ after)

namespace DepthFirst

variable {next : FuncId → List FuncId} {met met' l l' order order' : List FuncId} {f h k : FuncId}

theorem congr (walk : DepthFirst next met l order) (same : ∀ h, h ∈ met ↔ h ∈ met') : DepthFirst next met' l order := by
  induction walk generalizing met' with
  | nil => exact .nil
  | again old _ ih => exact .again ((same _).mp old) (ih same)
  | first new _ _ below after =>
    refine .first (fun old => new ((same _).mpr old)) (below fun h => ?_) (after fun h => ?_)
    · rw [List.mem_cons, List.mem_cons, same]
    · rw [List.mem_append, List.mem_append, List.mem_cons, List.mem_cons, same]

theorem unique (walk : DepthFirst next met l order) (walk' : DepthFirst next met l order') : order = order' := by
  induction walk generalizing order' with
  | nil =>
    cases walk'
    rfl
  | again old _ ih =>
    cases walk' with
    | again _ rest => exact ih rest
    | first new _ _ => exact absurd old new
  | first new _ _ below after =>
    cases walk' with
    | again old _ => exact absurd old new
    | first _ below' after' =>
      obtain rfl := below below'
      rw [after after']

/-- What is reached from the first part of a list comes before what only the second part reaches. -/
theorem split (walk : DepthFirst next met (l ++ l') order) :
    ∃ first second, DepthFirst next met l first ∧ DepthFirst next (first ++ met) l' second ∧
      order = first ++ second := by
  induction l generalizing met order with
  | nil => exact ⟨[], order, .nil, walk, rfl⟩
  | cons f l ih =>
    cases walk with
    | again old rest =>
      obtain ⟨first, second, walk, walk', rfl⟩ := ih rest
      exact ⟨first, second, .again old walk, walk', rfl⟩
    | @first _ _ below _ _ new down rest =>
      obtain ⟨first, second, walk, walk', rfl⟩ := ih rest
      refine ⟨f :: below ++ first, second, .first new down walk, walk'.congr fun h => ?_, ?_⟩
      · simp only [List.mem_append, List.mem_cons]
        tauto
      · rw [List.append_assoc]

theorem of_filter (old : f ∈ met) (walk : DepthFirst next met (l.filter (· ≠ f)) order) :
    DepthFirst next met l order := by
  induction l generalizing met order with
  | nil => exact walk
  | cons h l ih =>
    by_cases same : h = f
    · subst same
      rw [List.filter_cons_of_neg (by simp)] at walk
      exact .again old (ih old walk)
    · rw [List.filter_cons_of_pos (by simpa using same)] at walk
      cases walk with
      | again before rest => exact .again before (ih old rest)
      | first new below after =>
        exact .first new below (ih (List.mem_append_right _ (List.mem_cons_of_mem _ old)) after)

theorem of_eraseDups (walk : DepthFirst next met l.eraseDups order) : DepthFirst next met l order := by
  generalize size : l.length = n
  induction n using Nat.strongRecOn generalizing met l order with
  | ind n ih =>
    cases l with
    | nil => exact walk
    | cons f l =>
      have others : (l.filter fun h => !h == f) = l.filter (· ≠ f) := by simp [BEq.beq]
      have shorter : (l.filter (· ≠ f)).length < n := size ▸ Nat.lt_succ_of_le (List.length_filter_le _ _)
      rw [List.eraseDups_cons, others] at walk
      cases walk with
      | again old rest => exact .again old (of_filter old (ih _ shorter rest rfl))
      | first new below after =>
        exact .first new below (of_filter (List.mem_append_right _ List.mem_cons_self) (ih _ shorter after rfl))

/-! ### What it lists -/

theorem nodup (walk : DepthFirst next met l order) : order.Nodup ∧ ∀ h ∈ order, h ∉ met := by
  induction walk with
  | nil => exact ⟨List.nodup_nil, nofun⟩
  | again _ _ ih => exact ih
  | @first met _ below after f new _ _ ihBelow ihAfter =>
    obtain ⟨distinct, fresh⟩ := ihBelow
    obtain ⟨distinct', fresh'⟩ := ihAfter
    have apart : ∀ h ∈ after, h ∉ f :: below := by
      intro h mem met
      refine fresh' h mem ?_
      rcases List.mem_cons.mp met with rfl | met
      · exact List.mem_append_right _ List.mem_cons_self
      · exact List.mem_append_left _ met
    refine ⟨List.nodup_append.mpr ⟨List.nodup_cons.mpr ⟨fun mem => ?_, distinct⟩, distinct', ?_⟩, fun h mem => ?_⟩
    · exact fresh f mem List.mem_cons_self
    · rintro h left _ right rfl
      exact apart h right left
    · rcases List.mem_append.mp mem with mem | mem
      · rcases List.mem_cons.mp mem with rfl | mem
        · exact new
        · exact fun old => fresh h mem (List.mem_cons_of_mem _ old)
      · exact fun old => fresh' h mem (List.mem_append_right _ (List.mem_cons_of_mem _ old))

theorem complete (walk : DepthFirst next met l order) :
    (∀ h ∈ l, h ∈ met ∨ h ∈ order) ∧ ∀ h ∈ order, ∀ k ∈ next h, k ∈ met ∨ k ∈ order := by
  induction walk with
  | nil => exact ⟨nofun, nofun⟩
  | again old _ ih =>
    exact ⟨List.forall_mem_cons.mpr ⟨Or.inl old, ih.1⟩, ih.2⟩
  | @first met rest below after f _ _ _ ihBelow ihAfter =>
    have later {h : FuncId} (known : h ∈ below ++ f :: met ∨ h ∈ after) : h ∈ met ∨ h ∈ f :: below ++ after := by
      simp only [List.mem_append, List.mem_cons] at known ⊢
      tauto
    refine ⟨List.forall_mem_cons.mpr ⟨Or.inr List.mem_cons_self, fun h mem => later (ihAfter.1 h mem)⟩, ?_⟩
    intro h mem k step
    rcases List.mem_append.mp mem with mem | mem
    · have known : k ∈ f :: met ∨ k ∈ below := by
        rcases List.mem_cons.mp mem with rfl | mem
        · exact ihBelow.1 k step
        · exact ihBelow.2 h mem k step
      refine later (Or.inl (List.mem_append.mpr known.symm))
    · exact later (ihAfter.2 h mem k step)

theorem reached (walk : DepthFirst next met l order) (mem : h ∈ order) :
    ∃ f ∈ l, Relation.ReflTransGen (fun a b => b ∈ next a) f h := by
  induction walk with
  | nil => cases mem
  | again _ _ ih =>
    obtain ⟨f, listed, path⟩ := ih mem
    exact ⟨f, List.mem_cons_of_mem _ listed, path⟩
  | @first _ _ _ _ f _ _ _ ihBelow ihAfter =>
    rcases List.mem_append.mp mem with mem | mem
    · rcases List.mem_cons.mp mem with rfl | mem
      · exact ⟨h, List.mem_cons_self, .refl⟩
      · obtain ⟨k, step, path⟩ := ihBelow mem
        exact ⟨f, List.mem_cons_self, .head step path⟩
    · obtain ⟨k, listed, path⟩ := ihAfter mem
      exact ⟨k, List.mem_cons_of_mem _ listed, path⟩

/-- From a single node everything is listed that is reached from it. -/
theorem mem_iff (walk : DepthFirst next [] [f] order) :
    h ∈ order ↔ Relation.ReflTransGen (fun a b => b ∈ next a) f h := by
  constructor
  · intro mem
    obtain ⟨k, listed, path⟩ := walk.reached mem
    exact List.mem_singleton.mp listed ▸ path
  · intro path
    obtain ⟨start, closed⟩ := walk.complete
    induction path with
    | refl => exact (start f List.mem_cons_self).resolve_left List.not_mem_nil
    | tail _ step ih => exact (closed _ ih _ step).resolve_left List.not_mem_nil

end DepthFirst

/-! ### Calls -/

/-- The funcs that are called in some definition, in order of discovery, as often as they are called. -/
def Func.calls (f : Func κ) : List FuncId :=
  (f.definitions.flatMap fun (_, d) => d.reads).filterMap fun r =>
    match r.target with
    | .func g => some g
    | _ => none

theorem Func.callees_eq (f : Func κ) (self : FuncId) : f.callees self = (f.calls.filter (· ≠ self)).eraseDups := by
  unfold callees calls
  rw [List.filter_filterMap]
  refine congrArg List.eraseDups (List.filterMap_congr fun r _ => ?_)
  cases r.target with
  | func h => by_cases same : h = self <;> simp [same, Option.filter]
  | _ => rfl

theorem Func.map_snd_definitions (f : Func κ) : f.definitions.map (·.2) = f.init.toList ++ f.updates := by
  unfold definitions
  rw [List.map_append, List.map_map, List.map_map]
  refine congrArg₂ (· ++ ·) (List.map_id' _) ?_
  exact (List.map_congr_left fun _ _ => rfl).trans ((List.zipIdx_map_fst 0 _))

namespace Graph

variable {g : Graph κ} {f h root : FuncId}

theorem mem_calls : h ∈ (g.func f).calls ↔ g.Uses f h := by
  simp only [Func.calls, Uses, List.mem_filterMap, List.mem_flatMap, Prod.exists, Definition.mentions_iff,
    Func.mem_definitions]
  constructor
  · rintro ⟨r, ⟨stage, d, found, mem⟩, called⟩
    refine ⟨stage, d, found, r, mem, ?_⟩
    split at called
    · rename_i target
      rw [target, Option.some.inj called]
    · cases called
  · rintro ⟨stage, d, found, r, mem, target⟩
    exact ⟨r, ⟨stage, d, found, mem⟩, by rw [target]⟩

theorem mem_callees : h ∈ (g.func f).callees f ↔ g.Uses f h ∧ h ≠ f := by
  rw [Func.callees_eq, List.mem_eraseDups, List.mem_filter, mem_calls, decide_eq_true_eq]

theorem dependsOn_iff_calls :
    g.DependsOn root (.func h) ↔ Relation.ReflTransGen (fun a b => b ∈ (g.func a).calls) root h := by
  constructor
  · intro depends
    generalize target : Target.func h = t at depends
    induction depends generalizing h with
    | root =>
      obtain rfl := Target.func.inj target
      exact .refl
    | read _ found mentioned ih =>
      subst target
      exact (ih rfl).tail (mem_calls.mpr ⟨_, _, found, mentioned⟩)
  · intro path
    induction path with
    | refl => exact .root
    | tail _ step ih => exact ih.uses (mem_calls.mp step)

theorem calls_of_unknown (unknown : ¬f.index < g.size) : (g.func f).calls = [] := by
  rw [func_of_unknown unknown]
  rfl

/-! ### Visits -/

/-- What is still to be looked at because of a func that is visited at a level of calls. -/
def ahead (g : Graph κ) (depth : Option Nat) (f : FuncId) (level : Nat) : List (FuncId × Nat) :=
  if depth.any (· ≤ level) then [] else ((g.func f).callees f).map fun h => (h, level + 1)

/-- After looking at that many pending funcs nothing is left to be looked at, and those of `order` were visited. -/
inductive Visiting (g : Graph κ) (depth : Option Nat) :
    List FuncId → List (FuncId × Nat) → Nat → List FuncId → Prop where
  | done {seen : List FuncId} : Visiting g depth seen [] 0 []
  | again {seen order : List FuncId} {f : FuncId} {level looks : Nat} {rest : List (FuncId × Nat)} :
    f ∈ seen → Visiting g depth seen rest looks order → Visiting g depth seen ((f, level) :: rest) (looks + 1) order
  | unknown {seen order : List FuncId} {f : FuncId} {level looks : Nat} {rest : List (FuncId × Nat)} :
    ¬f.index < g.size → Visiting g depth seen rest looks order →
    Visiting g depth seen ((f, level) :: rest) (looks + 1) order
  | first {seen order : List FuncId} {f : FuncId} {level looks : Nat} {rest : List (FuncId × Nat)} :
    f ∉ seen → f.index < g.size → Visiting g depth (f :: seen) (g.ahead depth f level ++ rest) looks order →
    Visiting g depth seen ((f, level) :: rest) (looks + 1) (f :: order)

variable {depth : Option Nat} {seen order : List FuncId} {pending : List (FuncId × Nat)} {looks : Nat}

theorem exists_visiting (g : Graph κ) (depth : Option Nat) (seen : List FuncId) (pending : List (FuncId × Nat)) :
    ∃ looks, g.Visiting depth seen pending looks (g.visitOrder depth seen pending) := by
  fun_induction g.visitOrder depth seen pending with
  | case1 seen => exact ⟨0, .done⟩
  | case2 seen f level rest visited ih =>
    obtain ⟨looks, visits⟩ := ih
    exact ⟨looks + 1, .again visited visits⟩
  | case3 seen f level rest new inside =>
    rename_i ih
    obtain ⟨looks, visits⟩ := ih
    refine ⟨looks + 1, .first new inside ?_⟩
    exact visits
  | case4 seen f level rest new unknown ih =>
    obtain ⟨looks, visits⟩ := ih
    exact ⟨looks + 1, .unknown unknown visits⟩

/-- What was pending is looked at once, and so is every call of a func that is visited. -/
theorem Visiting.looks_le (visits : g.Visiting depth seen pending looks order) :
    looks ≤ pending.length + (order.map fun h => ((g.func h).callees h).length).sum := by
  induction visits with
  | done => exact Nat.le_refl _
  | again _ _ ih | unknown _ _ ih =>
    rw [List.length_cons]
    omega
  | @first _ _ f level _ _ _ _ _ ih =>
    have pushed : (g.ahead depth f level).length ≤ ((g.func f).callees f).length := by
      unfold ahead
      split
      · exact Nat.zero_le _
      · rw [List.length_map]
    rw [List.length_append] at ih
    rw [List.length_cons, List.map_cons, List.sum_cons]
    omega

/-- Without a limit funcs are visited in depth-first order, as far as they are known. -/
theorem Visiting.depthFirst (visits : g.Visiting none seen pending looks order) {met : List FuncId}
    (old : ∀ h ∈ seen, h ∈ met) (known : ∀ h ∈ met, h.index < g.size → h ∈ seen) :
    ∃ all, DepthFirst (fun h => (g.func h).calls) met (pending.map (·.1)) all ∧
      order = all.filter (·.index < g.size) := by
  induction visits generalizing met with
  | done => exact ⟨[], .nil, rfl⟩
  | again visited _ ih =>
    obtain ⟨all, walk, same⟩ := ih old known
    exact ⟨all, .again (old _ visited) walk, same⟩
  | @unknown seen _ f _ _ _ unknown _ ih =>
    by_cases before : f ∈ met
    · obtain ⟨all, walk, same⟩ := ih old known
      exact ⟨all, .again before walk, same⟩
    · have grown : ∀ h ∈ seen, h ∈ f :: met := fun h mem => List.mem_cons_of_mem _ (old h mem)
      obtain ⟨all, walk, same⟩ := ih grown fun h mem inside =>
        known h ((List.mem_cons.mp mem).resolve_left fun same => unknown (same ▸ inside)) inside
      refine ⟨f :: [] ++ all, .first before ?_ walk, ?_⟩
      · rw [calls_of_unknown unknown]
        exact .nil
      · rw [same, List.cons_append, List.nil_append, List.filter_cons_of_neg (by simpa using unknown)]
  | @first seen _ f level _ rest new inside _ ih =>
    have grown : ∀ h ∈ f :: seen, h ∈ f :: met := List.cons_subset_cons f old
    obtain ⟨all, walk, same⟩ := ih grown fun h mem inside =>
      (List.mem_cons.mp mem).elim (fun same => same ▸ List.mem_cons_self)
        fun mem => List.mem_cons_of_mem _ (known h mem inside)
    have next : (g.ahead none f level).map (·.1) = (g.func f).callees f := by
      simp [ahead, List.map_map, Function.comp_def]
    rw [List.map_append, next, Func.callees_eq] at walk
    obtain ⟨below, after, down, later, rfl⟩ := walk.split
    refine ⟨f :: below ++ after, .first (fun mem => new (known f mem inside)) ?_ later, ?_⟩
    · exact .of_filter List.mem_cons_self (.of_eraseDups down)
    · rw [same, List.cons_append, List.filter_cons_of_pos (by simpa using inside)]

end Graph

/-! ### Outlines -/

theorem join_map_filter {A : Type} {l : List A} {p : A → Bool} {text : A → String}
    (empty : ∀ a, p a = false → text a = "") :
    String.join ((l.filter p).map text) = String.join (l.map text) := by
  induction l with
  | nil => rfl
  | cons a l ih =>
    rw [List.map_cons, String.join_cons]
    cases shown : p a with
    | true => rw [List.filter_cons_of_pos shown, List.map_cons, String.join_cons, ih]
    | false => rw [List.filter_cons_of_neg (Bool.eq_false_iff.mp shown), ih, empty a shown, String.empty_append]

section Outline

variable [Literal κ] [Scalar κ]

/-- All definitions of a func, the initial one first and then the updates as they run, each on a line of its own, with
the pure variables shown as `shown` says. -/
def Func.SpelledAs (g : Graph κ) (shown : Name → Option (Expr κ)) (f : Func κ) (text : String) : Prop :=
  ∃ varText lines, SpelledVars g.nameOf shown varText ∧ text = String.join lines ∧
    List.Forall₂ (Definition.SpelledAs g.nameOf varText f.name) (f.init.toList ++ f.updates) lines

theorem spelledAs_funcText (g : Graph κ) (depth : Option Nat) (shown : Name → Option (Expr κ)) (f : Func κ) :
    f.SpelledAs g shown (({ depth, shown } : OutlineOptions κ).funcText g f) := by
  refine ⟨Expr.shownText g.nameOf shown,
    (f.init.toList ++ f.updates).map fun d => (d.map (·.substitute shown)).text g.nameOf f.name,
    Expr.spelledVars_iff.mpr rfl, ?_, ?_⟩
  · rw [← f.map_snd_definitions, List.map_map]
    rfl
  · exact List.forall₂_map_right_iff.mpr (List.forall₂_same.mpr fun d _ => Definition.spelledAs_iff.mpr rfl)

/-- An outline of everything shows the funcs that `f` depends on, each once with all its definitions, in the only
depth-first order that there is. It is done after a look at `f` and one at every call of a func that is shown. -/
theorem Graph.outline_preorder (g : Graph κ) (f : FuncId) (shown : Name → Option (Expr κ)) :
    ∃ (order : List FuncId) (texts : FuncId → String),
      (∀ l, DepthFirst (fun h => (g.func h).calls) [] [f] l ↔ l = order) ∧ order.Nodup ∧
      (∀ h, h ∈ order ↔ g.DependsOn f (.func h)) ∧
      (∀ h, (g.func h).SpelledAs g shown (texts h)) ∧ g.outline f { shown } = String.join (order.map texts) ∧
      ∃ looks ≤ 1 + (order.map fun h => ((g.func h).callees h).length).sum,
        g.Visiting none [] [(f, 0)] looks (order.filter (·.index < g.size)) := by
  obtain ⟨looks, visits⟩ := exists_visiting g none [] [(f, 0)]
  have nothing : ∀ h ∈ ([] : List FuncId), h ∈ ([] : List FuncId) := nofun
  obtain ⟨order, walk, same⟩ := visits.depthFirst nothing nofun
  refine ⟨order, fun h => OutlineOptions.funcText { shown } g (g.func h),
    fun l => ⟨fun walk' => walk'.unique walk, fun same => same ▸ walk⟩, walk.nodup.1, fun h => ?_,
    fun h => spelledAs_funcText g none shown _, ?_, looks, ?_, ?_⟩
  · exact walk.mem_iff.trans dependsOn_iff_calls.symm
  · unfold outline
    rw [same, join_map_filter fun h unknown => ?_]
    rw [func_of_unknown (of_decide_eq_false unknown)]
    rfl
  · refine visits.looks_le.trans (Nat.add_le_add_left ?_ 1)
    rw [same]
    exact (List.filter_sublist.map _).sum_le_sum fun _ _ => Nat.zero_le _
  · exact same ▸ visits

end Outline

end ArrayDiff
