import ArrayDiff.Proofs.Nodes
import ArrayDiff.Proofs.Number
import ArrayDiff.Proofs.Reachability

/-!
# Schedules list what a func depends on, producers first

`Expr.Mentions` says where a read can stand in an expression, and `Graph.DependsOn` what a func depends on, directly or
through other funcs. A schedule lists exactly that, each thing once, the stages of a func in one piece and behind all
stages of the funcs that it mentions (`Graph.topological_schedule`).
-/

namespace ArrayDiff

variable {κ : Type}

namespace Expr

/-- The target is read somewhere in the expression: by the expression itself, in an index argument, in an operand, or in
a condition or a branch, also in one that is not taken. -/
inductive Mentions : Expr κ → Target → Prop where
  | call {f : FuncId} {args : List (Expr κ)} : Mentions (call f args) (.func f)
  | load {b : BufferId} {args : List (Expr κ)} : Mentions (load b args) (.buffer b)
  | param {p : ParamId} : Mentions (param p) (.param p)
  | callArg {f : FuncId} {args : List (Expr κ)} {a : Expr κ} {t : Target} :
    a ∈ args → Mentions a t → Mentions (call f args) t
  | loadArg {b : BufferId} {args : List (Expr κ)} {a : Expr κ} {t : Target} :
    a ∈ args → Mentions a t → Mentions (load b args) t
  | unary {op : UnaryOp} {a : Expr κ} {t : Target} : Mentions a t → Mentions (unary op a) t
  | left {op : BinaryOp} {a b : Expr κ} {t : Target} : Mentions a t → Mentions (binary op a b) t
  | right {op : BinaryOp} {a b : Expr κ} {t : Target} : Mentions b t → Mentions (binary op a b) t
  | compareLeft {op : Comparison} {a b : Expr κ} {t : Target} : Mentions a t → Mentions (compare op a b) t
  | compareRight {op : Comparison} {a b : Expr κ} {t : Target} : Mentions b t → Mentions (compare op a b) t
  | andLeft {a b : Expr κ} {t : Target} : Mentions a t → Mentions (and a b) t
  | andRight {a b : Expr κ} {t : Target} : Mentions b t → Mentions (and a b) t
  | orLeft {a b : Expr κ} {t : Target} : Mentions a t → Mentions (or a b) t
  | orRight {a b : Expr κ} {t : Target} : Mentions b t → Mentions (or a b) t
  | not {a : Expr κ} {t : Target} : Mentions a t → Mentions (not a) t
  | condition {c a b : Expr κ} {t : Target} : Mentions c t → Mentions (select c a b) t
  | chosen {c a b : Expr κ} {t : Target} : Mentions a t → Mentions (select c a b) t
  | otherwise {c a b : Expr κ} {t : Target} : Mentions b t → Mentions (select c a b) t

variable {e a : Expr κ} {r : Read κ} {t : Target}

theorem mem_reads : r ∈ e.reads ↔ e.read? = some r ∨ ∃ a ∈ e.children, r ∈ a.reads := by
  unfold reads
  simp only [List.mem_filterMap]
  constructor
  · rintro ⟨x, mem, own⟩
    rcases mem_nodes.mp mem with rfl | ⟨a, child, mem⟩
    · exact Or.inl own
    · exact Or.inr ⟨a, child, x, mem, own⟩
  · rintro (own | ⟨a, child, x, mem, own⟩)
    · exact ⟨e, mem_nodes_self e, own⟩
    · exact ⟨x, mem_nodes.mpr (Or.inr ⟨a, child, mem⟩), own⟩

theorem Mentions.of_read? (own : e.read? = some r) : e.Mentions r.target := by
  cases e with
  | call f args =>
    obtain rfl := Option.some.inj own
    exact .call
  | load b args =>
    obtain rfl := Option.some.inj own
    exact .load
  | param p =>
    obtain rfl := Option.some.inj own
    exact .param
  | _ => cases own

theorem Mentions.of_child (child : a ∈ e.children) (inner : a.Mentions t) : e.Mentions t := by
  cases e with
  | const _ | var _ | rvar _ | param _ => cases child
  | call f args => exact .callArg child inner
  | load b args => exact .loadArg child inner
  | unary op x =>
    obtain rfl := List.mem_singleton.mp child
    exact .unary inner
  | not x =>
    obtain rfl := List.mem_singleton.mp child
    exact .not inner
  | binary op x y =>
    obtain rfl | rfl := List.mem_pair.mp child
    · exact .left inner
    · exact .right inner
  | compare op x y =>
    obtain rfl | rfl := List.mem_pair.mp child
    · exact .compareLeft inner
    · exact .compareRight inner
  | and x y =>
    obtain rfl | rfl := List.mem_pair.mp child
    · exact .andLeft inner
    · exact .andRight inner
  | or x y =>
    obtain rfl | rfl := List.mem_pair.mp child
    · exact .orLeft inner
    · exact .orRight inner
  | select c x y =>
    obtain rfl | child := List.mem_cons.mp child
    · exact .condition inner
    obtain rfl | rfl := List.mem_pair.mp child
    · exact .chosen inner
    · exact .otherwise inner

/-- Induction on the tree with all direct subexpressions at once. -/
theorem children_induct {motive : Expr κ → Prop} (step : ∀ e, (∀ a ∈ e.children, motive a) → motive e) (e : Expr κ) :
    motive e := by
  induction e with
  | const _ | var _ | rvar _ | param _ => exact step _ fun _ child => absurd child List.not_mem_nil
  | call _ _ ih | load _ _ ih => exact step _ ih
  | unary _ _ ih | not _ ih => exact step _ (List.forall_mem_singleton.mpr ih)
  | binary _ _ _ iha ihb | compare _ _ _ iha ihb | and _ _ iha ihb | or _ _ iha ihb =>
    exact step _ (List.forall_mem_cons.mpr ⟨iha, List.forall_mem_singleton.mpr ihb⟩)
  | select _ _ _ ihc iha ihb =>
    exact step _ (List.forall_mem_cons.mpr ⟨ihc, List.forall_mem_cons.mpr ⟨iha, List.forall_mem_singleton.mpr ihb⟩⟩)

theorem Mentions.of_mem_reads (mem : r ∈ e.reads) : e.Mentions r.target := by
  induction e using children_induct with
  | step e ih =>
    rcases mem_reads.mp mem with own | ⟨a, child, inner⟩
    · exact .of_read? own
    · exact .of_child child (ih a child inner)

theorem Mentions.exists_read (h : e.Mentions t) : ∃ r ∈ e.reads, r.target = t := by
  have inner {e a : Expr κ} {t : Target} (child : a ∈ e.children) :
      (∃ r ∈ a.reads, r.target = t) → ∃ r ∈ e.reads, r.target = t :=
    fun ⟨r, mem, target⟩ => ⟨r, mem_reads.mpr (Or.inr ⟨a, child, mem⟩), target⟩
  induction h with
  | call | load | param => exact ⟨_, mem_reads.mpr (Or.inl rfl), rfl⟩
  | callArg child _ ih | loadArg child _ ih => exact inner child ih
  | unary _ ih | not _ ih | left _ ih | compareLeft _ ih | andLeft _ ih | orLeft _ ih | condition _ ih =>
    exact inner List.mem_cons_self ih
  | right _ ih | compareRight _ ih | andRight _ ih | orRight _ ih | chosen _ ih =>
    exact inner (List.mem_cons_of_mem _ List.mem_cons_self) ih
  | otherwise _ ih => exact inner (List.mem_cons_of_mem _ (List.mem_cons_of_mem _ List.mem_cons_self)) ih

theorem mentions_iff : e.Mentions t ↔ ∃ r ∈ e.reads, r.target = t :=
  ⟨Mentions.exists_read, fun ⟨_, mem, target⟩ => target ▸ .of_mem_reads mem⟩

end Expr

/-- A definition mentions what its position and its value mention. -/
def Definition.Mentions (d : Definition κ) (t : Target) : Prop := (∃ e ∈ d.lhs, e.Mentions t) ∨ d.value.Mentions t

theorem Definition.mentions_iff {d : Definition κ} {t : Target} : d.Mentions t ↔ ∃ r ∈ d.reads, r.target = t := by
  simp only [Mentions, Expr.mentions_iff, reads, exprs, List.mem_flatMap, List.mem_append, List.mem_singleton]
  constructor
  · rintro (⟨e, listed, r, mem, target⟩ | ⟨r, mem, target⟩)
    · exact ⟨r, ⟨e, Or.inl listed, mem⟩, target⟩
    · exact ⟨r, ⟨d.value, Or.inr rfl, mem⟩, target⟩
  · rintro ⟨r, ⟨e, listed | rfl, mem⟩, target⟩
    · exact Or.inl ⟨e, listed, r, mem, target⟩
    · exact Or.inr ⟨r, mem, target⟩

theorem Func.reads_iff {f : Func κ} {stage : Stage} {t : Target} :
    f.Reads stage t ↔ ∃ d, f.definition? stage = some d ∧ d.Mentions t := by
  simp only [Reads, mem_definitions, Definition.mentions_iff]

/-- The stages of a func with the given number of updates, ascending. -/
def Stage.ascending (updates : Nat) : List Stage := .initial :: (List.range updates).map .update

theorem Stage.nodup_ascending (n : Nat) : (Stage.ascending n).Nodup :=
  List.nodup_cons.mpr ⟨by simp, List.nodup_range.map fun _ _ => Stage.update.inj⟩

namespace Graph

/-- The target is `root`, or some stage of a func that `root` depends on mentions it. -/
inductive DependsOn (g : Graph κ) (root : FuncId) : Target → Prop where
  | root : g.DependsOn root (.func root)
  | read {f : FuncId} {stage : Stage} {d : Definition κ} {t : Target} :
    g.DependsOn root (.func f) → (g.func f).definition? stage = some d → d.Mentions t → g.DependsOn root t

variable {g : Graph κ} {root f k : FuncId} {s : Schedule} {t : Target}

theorem dependsOn_iff_reaches : g.DependsOn root t ↔ g.Reaches root t := by
  constructor
  · intro depends
    induction depends with
    | root => exact .root
    | read _ found mentioned ih => exact ih.read (Func.reads_iff.mpr ⟨_, found, mentioned⟩)
  · intro reached
    induction reached with
    | root => exact .root
    | read _ reads ih =>
      obtain ⟨d, found, mentioned⟩ := Func.reads_iff.mp reads
      exact ih.read found mentioned

/-- Everything that the root depends on stands in its schedule, and nothing else does. -/
theorem lists_iff_dependsOn (order : g.schedule root = .ok s) : s.Lists t ↔ g.DependsOn root t :=
  (lists_iff_reaches order).trans dependsOn_iff_reaches.symm

theorem getLast?_funcs (order : g.schedule root = .ok s) : s.funcs.getLast? = some root := by
  unfold schedule at order
  rw [visit_succ, if_neg List.not_mem_nil, if_neg List.not_mem_nil] at order
  split at order
  · cases order
  obtain ⟨x, -, final⟩ := bind_eq_ok.mp order
  obtain rfl := Except.ok.inj final
  exact List.getLast?_concat

end Graph

/-- The schedule lists what `root` depends on, each thing once and `root` as the last func; all stages of a func come in
one piece, ascending, and after all stages of every other func that it mentions. -/
structure Schedule.Topological (g : Graph κ) (root : FuncId) (s : Schedule) : Prop where
  distinct : s.funcs.Nodup ∧ s.stages.Nodup ∧ s.buffers.Nodup ∧ s.params.Nodup
  last : s.funcs.getLast? = some root
  funcs (f : FuncId) : f ∈ s.funcs ↔ g.DependsOn root (.func f)
  buffers (b : BufferId) : b ∈ s.buffers ↔ g.DependsOn root (.buffer b)
  params (p : ParamId) : p ∈ s.params ↔ g.DependsOn root (.param p)
  stages (f : FuncId) (stage : Stage) : (f, stage) ∈ s.stages ↔ f ∈ s.funcs ∧ ((g.func f).definition? stage).isSome
  together (f : FuncId) : f ∈ s.funcs → ∃ before after,
    s.stages = before ++ (Stage.ascending (g.func f).updates.length).map (fun stage => (f, stage)) ++ after ∧
      ∀ e ∈ before ++ after, e.1 ≠ f
  before (f k : FuncId) (stage : Stage) (d : Definition κ) : f ∈ s.funcs → (g.func f).definition? stage = some d →
    d.Mentions (.func k) → k ≠ f → k ∈ s.funcs ∧
      ∀ (i j : Nat) (a b : Stage), s.stages[i]? = some (k, a) → s.stages[j]? = some (f, b) → i < j

namespace Schedule.Ordered

variable {g : Graph κ} {s : Schedule} {f k : FuncId}

/-- All stages of a func, as a schedule lists them. -/
def own (g : Graph κ) (f : FuncId) : List (FuncId × Stage) :=
  (Stage.ascending (g.func f).updates.length).map fun stage => (f, stage)

theorem fst_of_mem_own {e : FuncId × Stage} (mem : e ∈ own g f) : e.1 = f := by
  obtain ⟨stage, -, rfl⟩ := List.mem_map.mp mem
  rfl

theorem fst_mem_of_mem_flatMap {funcs : List FuncId} {e : FuncId × Stage} (mem : e ∈ funcs.flatMap (own g)) :
    e.1 ∈ funcs := by
  obtain ⟨f, listed, mem⟩ := List.mem_flatMap.mp mem
  exact fst_of_mem_own mem ▸ listed

theorem stages_eq (ordered : s.Ordered g) : s.stages = s.funcs.flatMap (own g) := by
  rw [ordered.stages]
  refine List.flatMap_congr fun f mem => ?_
  unfold own Stage.ascending
  rw [← Func.map_fst_definitions (ordered.defined f mem), List.map_map]
  rfl

theorem nodup_stages (ordered : s.Ordered g) : s.stages.Nodup := by
  rw [ordered.stages_eq]
  refine List.nodup_flatMap.mpr ⟨fun f _ => (Stage.nodup_ascending _).map fun _ _ same => (Prod.mk.inj same).2, ?_⟩
  refine ordered.nodup.imp fun {f k} other e left right => ?_
  exact other ((fst_of_mem_own left).symm.trans (fst_of_mem_own right))

theorem mem_stages (ordered : s.Ordered g) {stage : Stage} :
    (f, stage) ∈ s.stages ↔ f ∈ s.funcs ∧ ((g.func f).definition? stage).isSome := by
  simp only [ordered.stages, List.mem_flatMap, List.mem_map, Prod.exists, Func.mem_definitions,
    Option.isSome_iff_exists]
  constructor
  · rintro ⟨k, listed, stage', d, found, same⟩
    obtain ⟨rfl, rfl⟩ := Prod.mk.inj same
    exact ⟨listed, d, found⟩
  · rintro ⟨listed, d, found⟩
    exact ⟨f, listed, stage, d, found, rfl⟩

theorem together (ordered : s.Ordered g) (mem : f ∈ s.funcs) :
    ∃ before after, s.stages = before ++ own g f ++ after ∧ ∀ e ∈ before ++ after, e.1 ≠ f := by
  obtain ⟨done, rest, split⟩ := List.append_of_mem mem
  have distinct := ordered.nodup
  rw [split] at distinct
  have apart : f ∉ done ++ rest := (List.nodup_middle.mp distinct).notMem
  refine ⟨done.flatMap (own g), rest.flatMap (own g), ?_, fun e listed same => apart ?_⟩
  · rw [ordered.stages_eq, split, List.flatMap_append, List.flatMap_cons, List.append_assoc]
  · rw [← List.flatMap_append] at listed
    exact same ▸ fst_mem_of_mem_flatMap listed

theorem stage_lt (ordered : s.Ordered g) {done rest : List FuncId} (split : s.funcs = done ++ rest) (first : k ∈ done)
    (second : f ∈ rest) {i j : Nat} {a b : Stage} (ati : s.stages[i]? = some (k, a))
    (atj : s.stages[j]? = some (f, b)) : i < j := by
  have distinct := ordered.nodup
  rw [split] at distinct
  have apart := (List.nodup_append.mp distinct).2.2
  rw [ordered.stages_eq, split, List.flatMap_append] at ati atj
  have less : i < (done.flatMap (own g)).length := by
    by_contra beyond
    rw [List.getElem?_append_right (Nat.not_lt.mp beyond)] at ati
    exact apart k first k (fst_mem_of_mem_flatMap (List.mem_of_getElem? ati)) rfl
  refine less.trans_le (Nat.not_lt.mp fun inside => ?_)
  rw [List.getElem?_append_left inside] at atj
  exact apart f (fst_mem_of_mem_flatMap (List.mem_of_getElem? atj)) f second rfl

theorem before_of_mentions (ordered : s.Ordered g) (mem : f ∈ s.funcs) {stage : Stage} {d : Definition κ}
    (found : (g.func f).definition? stage = some d) (mentioned : d.Mentions (.func k)) (other : k ≠ f) :
    k ∈ s.funcs ∧ ∀ (i j : Nat) (a b : Stage), s.stages[i]? = some (k, a) → s.stages[j]? = some (f, b) → i < j := by
  obtain ⟨done, rest, split⟩ := List.append_of_mem mem
  have read := Func.reads_iff.mpr ⟨d, found, mentioned⟩
  have earlier : k ∈ done := (ordered.before done f rest split stage _ read).resolve_right fun self => other self.1
  exact ⟨split ▸ List.mem_append_left _ earlier, fun i j a b => ordered.stage_lt split earlier List.mem_cons_self⟩

end Schedule.Ordered

/-- A schedule is a topological order of exactly what its root depends on. -/
theorem Graph.topological_schedule {g : Graph κ} {root : FuncId} {s : Schedule} (order : g.schedule root = .ok s) :
    s.Topological g root := by
  have ordered := (ordered_schedule order).1
  exact {
    distinct := ⟨ordered.nodup, ordered.nodup_stages, ordered.leaves⟩
    last := getLast?_funcs order
    funcs := fun f => lists_iff_dependsOn (t := .func f) order
    buffers := fun b => lists_iff_dependsOn (t := .buffer b) order
    params := fun p => lists_iff_dependsOn (t := .param p) order
    stages := fun f stage => ordered.mem_stages
    together := fun f mem => ordered.together mem
    before := fun f k stage d mem found mentioned other => ordered.before_of_mentions mem found mentioned other }

/-- `out` looks its values up in `table` at positions that a buffer holds, and moves them by a param to where `table`
says. -/
def gathering : Graph (Exact ℚ) where
  funcs := #[
    { name := "out", args := ["x"],
      init := some ⟨[.var "x"], .call ⟨1⟩ [.load ⟨1⟩ [.var "x"]], none⟩,
      updates := [⟨[.call ⟨1⟩ [.rvar "r"]], .binary .add (.call ⟨0⟩ [.rvar "r"]) (.param ⟨0⟩),
        some ⟨[("r", ⟨0, 1⟩)]⟩⟩] },
    { name := "table", args := ["i"], init := some ⟨[.var "i"], .load ⟨0⟩ [.var "i"], none⟩ }]
  buffers := #[⟨"data", .ofShape [4]⟩, ⟨"positions", .ofShape [4]⟩]
  params := #["shift"]

/-- The index argument of a read is met after the func that is read at it. -/
theorem gathering.topological : ∃ s, gathering.schedule ⟨0⟩ = .ok s ∧
    s.funcs = [⟨1⟩, ⟨0⟩] ∧ s.stages = [(⟨1⟩, .initial), (⟨0⟩, .initial), (⟨0⟩, .update 0)] ∧
    s.buffers = [⟨0⟩, ⟨1⟩] ∧ s.params = [⟨0⟩] ∧ s.Topological gathering ⟨0⟩ := by
  have order : gathering.schedule ⟨0⟩ =
      .ok ⟨[⟨1⟩, ⟨0⟩], [(⟨1⟩, .initial), (⟨0⟩, .initial), (⟨0⟩, .update 0)], [⟨0⟩, ⟨1⟩], [⟨0⟩]⟩ := by
    decide +kernel
  exact ⟨_, order, rfl, rfl, rfl, rfl, Graph.topological_schedule order⟩

end ArrayDiff
