import Mathlib.Data.List.Perm.Subperm
import ArrayDiff.Proofs.Growth

/-!
# What a func depends on

A schedule lists exactly the targets that its root reaches along reads (`Graph.lists_iff_reaches`), and there is one for
every func of a set whose funcs can be computed one after the other (`Graph.Sorted.schedule_isOk`).
-/

namespace ArrayDiff

variable {κ : Type}

/-- What the definitions of a func read, in order. -/
def Func.dependencies (f : Func κ) : List (Stage × Target) :=
  f.definitions.flatMap fun (stage, d) => d.reads.map fun r => (stage, r.target)

theorem Func.mem_dependencies {f : Func κ} {stage : Stage} {t : Target} :
    (stage, t) ∈ f.dependencies ↔ f.Reads stage t := by
  unfold dependencies Reads
  simp only [List.mem_flatMap, List.mem_map, Prod.mk.injEq, Prod.exists]
  constructor
  · rintro ⟨stage', d, listed, r, read, rfl, rfl⟩
    exact ⟨d, listed, r, read, rfl⟩
  · rintro ⟨d, listed, r, read, rfl⟩
    exact ⟨stage, d, listed, r, read, rfl, rfl⟩

namespace Graph

/-- `root` depends on the target: a chain of reads leads from one to the other. -/
inductive Reaches (g : Graph κ) (root : FuncId) : Target → Prop where
  | root : g.Reaches root (.func root)
  | read {f : FuncId} {stage : Stage} {t : Target} :
    g.Reaches root (.func f) → (g.func f).Reads stage t → g.Reaches root t

variable {g : Graph κ} {root f h : FuncId} {t : Target} {s s' : Schedule}

theorem Reaches.trans (first : g.Reaches root (.func f)) (second : g.Reaches f t) : g.Reaches root t := by
  induction second with
  | root => exact first
  | read _ reads ih => exact ih.read reads

theorem Reaches.closed {T : Target → Prop} (reached : g.Reaches root t) (start : T (.func root))
    (closed : ∀ f stage t, T (.func f) → (g.func f).Reads stage t → T t) : T t := by
  induction reached with
  | root => exact start
  | read _ reads ih => exact closed _ _ _ ih reads

/-! ### One visit -/

/-- What a visit of `f` does about one read of `f`. -/
def visitRead (g : Graph κ) (depth : Nat) (path : List FuncId) (f : FuncId) (s : Schedule) (stage : Stage) :
    Target → Except GraphError Schedule
  | .func h =>
    if h = f then if stage = .initial then throw (.selfReference (g.nameOf (.func f))) else return s
    else g.visit depth (f :: path) h s
  | .buffer b => return s.addBuffer b
  | .param p => return s.addParam p

theorem visit_succ (g : Graph κ) (depth : Nat) (path : List FuncId) (f : FuncId) (s : Schedule) :
    g.visit (depth + 1) path f s =
      if f ∈ s.funcs then .ok s
      else if f ∈ path then .error (.cycle (g.cyclePath path f))
      else if (g.func f).init.isNone then .error (.undefined (g.nameOf (.func f)))
      else do
        let s ← (g.func f).dependencies.foldlM (fun s e => g.visitRead depth path f s e.1 e.2) s
        return s.addFunc f ((g.func f).definitions.map (·.1)) := by
  rw [visit]
  split
  · rfl
  split
  · rfl
  by_cases undefined : (g.func f).init.isNone
  · rw [if_pos undefined]
    exact (if_pos undefined).symm
  · rw [if_neg undefined]
    refine Eq.trans (congrArg (· >>= _) ?_) (if_neg undefined).symm
    refine congrArg (fun step => (g.func f).dependencies.foldlM step s) ?_
    funext s e
    obtain ⟨stage, t⟩ := e
    cases t <;> rfl

/-! ### Everything that is listed is reached -/

theorem lists_addBuffer {b : BufferId} (listed : (s.addBuffer b).Lists t) : s.Lists t ∨ t = .buffer b := by
  unfold Schedule.addBuffer at listed
  split at listed
  · exact Or.inl listed
  · cases t with
    | buffer i => exact (List.mem_append.mp listed).imp_right fun last => by rw [List.mem_singleton.mp last]
    | _ => exact Or.inl listed

theorem lists_addParam {p : ParamId} (listed : (s.addParam p).Lists t) : s.Lists t ∨ t = .param p := by
  unfold Schedule.addParam at listed
  split at listed
  · exact Or.inl listed
  · cases t with
    | param i => exact (List.mem_append.mp listed).imp_right fun last => by rw [List.mem_singleton.mp last]
    | _ => exact Or.inl listed

theorem lists_addFunc {stages : List Stage} (listed : (s.addFunc f stages).Lists t) : s.Lists t ∨ t = .func f := by
  cases t with
  | func h => exact (List.mem_append.mp listed).imp_right fun last => by rw [List.mem_singleton.mp last]
  | _ => exact Or.inl listed

theorem reaches_of_visit {depth : Nat} {path : List FuncId} (run : g.visit depth path f s = .ok s')
    (listed : s'.Lists t) : s.Lists t ∨ g.Reaches f t := by
  induction depth generalizing path f s s' t with
  | zero => cases run
  | succ depth ih =>
    rw [visit_succ] at run
    split at run
    · obtain rfl := Except.ok.inj run
      exact Or.inl listed
    split at run
    · cases run
    split at run
    · cases run
    obtain ⟨x, folded, final⟩ := bind_eq_ok.mp run
    obtain rfl := Except.ok.inj final
    have inner : ∀ t, x.Lists t → s.Lists t ∨ g.Reaches f t := by
      refine foldlM_preserves folded (fun x => ∀ t, x.Lists t → s.Lists t ∨ g.Reaches f t) (fun _ => Or.inl) ?_
      rintro ⟨stage, target⟩ listed' x x' before step t listed
      have own : g.Reaches f target := Reaches.root.read (Func.mem_dependencies.mp listed')
      cases target with
      | func h =>
        change (if h = f then _ else _) = _ at step
        split at step
        · split at step
          · cases step
          · obtain rfl := Except.ok.inj step
            exact before t listed
        · rcases ih step listed with old | reached
          · exact before t old
          · exact Or.inr (own.trans reached)
      | buffer b =>
        obtain rfl := Except.ok.inj step
        rcases lists_addBuffer listed with old | rfl
        · exact before t old
        · exact Or.inr own
      | param p =>
        obtain rfl := Except.ok.inj step
        rcases lists_addParam listed with old | rfl
        · exact before t old
        · exact Or.inr own
    rcases lists_addFunc listed with old | rfl
    · exact inner t old
    · exact Or.inr .root

/-- A schedule lists what its root reaches, and nothing else. -/
theorem lists_iff_reaches (order : g.schedule root = .ok s) : s.Lists t ↔ g.Reaches root t := by
  obtain ⟨ordered, mem⟩ := ordered_schedule order
  constructor
  · intro listed
    refine (reaches_of_visit order listed).resolve_left fun empty => ?_
    cases t <;> exact List.not_mem_nil empty
  · exact fun reached => reached.closed mem fun f stage t listed reads => ordered.lists listed reads

/-! ### Funcs that have a schedule -/

theorem index_lt_of_init (defined : (g.func f).init.isSome) : f.index < g.size := by
  by_contra unknown
  rw [func_of_unknown unknown] at defined
  cases defined

theorem length_le_size {path : List FuncId} (distinct : path.Nodup) (inside : ∀ f ∈ path, f.index < g.size) :
    path.length ≤ g.size := by
  have sub : path ⊆ g.funcIds := fun f mem => mem_funcIds.mpr (inside f mem)
  have count := (distinct.subperm sub).length_le
  rwa [funcIds, List.length_map, List.length_range] at count

/-- Ranks fall along the funcs that wait, so that a visit meets none of them again and does not run out of depth. -/
theorem visit_isOk {S : FuncId → Prop} {rank : FuncId → Nat} (layers : g.Layered S rank) {depth : Nat}
    {path : List FuncId} (mem : S f) (waiting : ∀ h ∈ path, S h ∧ rank f < rank h) (distinct : path.Nodup)
    (enough : g.size < depth + path.length) (s : Schedule) : ∃ s', g.visit depth path f s = .ok s' := by
  induction depth generalizing f path s with
  | zero =>
    have bound := length_le_size distinct fun h listed => index_lt_of_init (layers.defined (waiting h listed).1)
    omega
  | succ depth ih =>
    rw [visit_succ]
    split
    · exact ⟨s, rfl⟩
    have fresh : f ∉ path := fun listed => Nat.lt_irrefl _ (waiting f listed).2
    have defined := layers.defined mem
    rw [if_neg fresh, if_neg (by simpa [Option.isSome_iff_ne_none] using defined)]
    have reads : ∀ e ∈ (g.func f).dependencies, ∀ s, ∃ s', g.visitRead depth path f s e.1 e.2 = .ok s' := by
      rintro ⟨stage, target⟩ listed s
      have read := Func.mem_dependencies.mp listed
      cases target with
      | func h =>
        change ∃ s', (if h = f then _ else _) = Except.ok s'
        by_cases self : h = f
        · subst self
          have later : stage ≠ .initial := fun first => layers.initial mem (first ▸ read)
          rw [if_pos rfl, if_neg later]
          exact ⟨s, rfl⟩
        · rw [if_neg self]
          obtain ⟨inside, less⟩ := layers.below mem read self
          refine ih inside (fun k waits => ?_) (List.nodup_cons.mpr ⟨fresh, distinct⟩) (by simp; omega) s
          rcases List.mem_cons.mp waits with rfl | waits
          · exact ⟨mem, less⟩
          · exact ⟨(waiting k waits).1, less.trans (waiting k waits).2⟩
      | buffer b => exact ⟨_, rfl⟩
      | param p => exact ⟨_, rfl⟩
    obtain ⟨x, folded⟩ := foldlM_isOk reads s
    rw [folded]
    exact ⟨_, rfl⟩

theorem Sorted.schedule_isOk {S : FuncId → Prop} (sorted : g.Sorted S) (mem : S f) :
    ∃ s, g.schedule f = .ok s := by
  obtain ⟨rank, -, layers, -⟩ := sorted
  refine visit_isOk layers mem (fun h listed => ?_) List.nodup_nil (by simp) {}
  cases listed

/-- The funcs that occur in some schedule. -/
def Scheduled (g : Graph κ) (f : FuncId) : Prop := ∃ root s, g.schedule root = .ok s ∧ f ∈ s.funcs

theorem Scheduled.index_lt {f : FuncId} (h : g.Scheduled f) : f.index < g.size := by
  obtain ⟨root, s, order, mem⟩ := h
  exact index_lt_of_init ((ordered_schedule order).1.defined f mem)

theorem sorted_scheduled (g : Graph κ) : g.Sorted g.Scheduled := by
  have general : ∀ roots : List FuncId,
      g.Sorted fun f => ∃ root ∈ roots, ∃ s, g.schedule root = .ok s ∧ f ∈ s.funcs := by
    intro roots
    induction roots with
    | nil =>
      refine Sorted.iff (S := fun _ => False) ⟨fun _ => 0, 0, ⟨False.elim, False.elim, False.elim⟩, fun _ => False.elim⟩ ?_
      simp
    | cons root roots ih =>
      cases order : g.schedule root with
      | error e => exact ih.iff fun f => by simp [order]
      | ok s =>
        refine ((sorted_of_ordered (ordered_schedule order).1).union ih).iff fun f => ?_
        simp [order]
  refine (general g.funcIds).iff fun f => ⟨fun ⟨root, s, order, mem⟩ => ?_, fun ⟨root, _, s, order, mem⟩ =>
    ⟨root, s, order, mem⟩⟩
  obtain ⟨ordered, inside⟩ := ordered_schedule order
  exact ⟨root, mem_funcIds.mpr (index_lt_of_init (ordered.defined root inside)), s, order, mem⟩

end Graph

end ArrayDiff
