import ArrayDiff.Graph.Builder
import ArrayDiff.Proofs.Outcome
import ArrayDiff.Proofs.Overlap

/-!
# Graphs that are put together properly

What the checks of the building operations establish for every graph that is made with them (`Graph.Built.proper`):
initial definitions stand at the arguments of their func, and a pure variable of an update stands at its own dimension.
-/

namespace ArrayDiff

variable {κ : Type}

/-- The position of an update: every free variable of it stands alone at its own dimension. -/
structure Func.Accepts (f : Func κ) (lhs : List (Expr κ)) : Prop where
  length : lhs.length = f.dims
  placed {i : Nat} {e : Expr κ} {x : Name} : lhs[i]? = some e → x ∈ e.freeVars → e = .var x ∧ f.dimOf? x = some i

theorem Expr.eq_var_of_varName? {e : Expr κ} {x : Name} (h : e.varName? = some x) : e = .var x := by
  cases e with
  | var y => rw [Option.some.inj h]
  | _ => cases h

theorem Expr.eq_map_var_of_varName? {es : List (Expr κ)} {names : List Name} (same : es.map varName? = names.map some) :
    es = names.map .var := by
  induction es generalizing names with
  | nil => rw [List.map_eq_nil_iff.mp same.symm, List.map_nil]
  | cons e es ih =>
    cases names with
    | nil => cases same
    | cons x names =>
      obtain ⟨head, tail⟩ := List.cons.inj same
      rw [eq_var_of_varName? head, ih tail, List.map_cons]

theorem Expr.mem_freeVars {e : Expr κ} {x : Name} : x ∈ e.freeVars ↔ .var x ∈ e.nodes := by
  unfold freeVars
  rw [List.mem_mergeSort, List.mem_eraseDups, List.mem_filterMap]
  constructor
  · rintro ⟨a, node, name⟩
    rwa [eq_var_of_varName? name] at node
  · exact fun node => ⟨.var x, node, rfl⟩

theorem Expr.mem_freeVars_of_varName? {e : Expr κ} {x : Name} (h : e.varName? = some x) : x ∈ e.freeVars := by
  obtain rfl := eq_var_of_varName? h
  exact mem_freeVars.mpr (mem_nodes_self _)

theorem Graph.accepts_of_misplaced? {f : Func κ} {lhs : List (Expr κ)} (length : lhs.length = f.dims)
    (none : Graph.misplaced? f lhs = none) : f.Accepts lhs := by
  refine ⟨length, fun {i e x} at' free => ?_⟩
  unfold misplaced? at none
  have listed : (e, i) ∈ lhs.zipIdx := List.mem_zipIdx_iff_getElem?.mpr at'
  have found := List.find?_eq_none.mp (List.findSome?_eq_none_iff.mp none (e, i) listed) x free
  simp only [Bool.not_eq_true', Bool.not_eq_false, Bool.and_eq_true, decide_eq_true_eq] at found
  exact ⟨Expr.eq_var_of_varName? found.1, found.2⟩

theorem Func.Accepts.distinctFree {f : Func κ} {d : Definition κ} (h : f.Accepts d.lhs) : d.DistinctFree := by
  have general : ∀ (k : Nat) (es : List (Expr κ)), (∀ i e, es[i]? = some e → d.lhs[k + i]? = some e) →
      (es.filterMap Expr.varName?).Nodup := by
    intro k es
    induction es generalizing k with
    | nil => exact fun _ => List.nodup_nil
    | cons e es ih =>
      intro part
      have rest := ih (k + 1) fun i e' at' => by
        have same := part (i + 1) e' at'
        rwa [show k + (i + 1) = k + 1 + i by omega] at same
      rw [List.filterMap_cons]
      cases name : e.varName? with
      | none => exact rest
      | some x =>
        refine List.nodup_cons.mpr ⟨fun again => ?_, rest⟩
        obtain ⟨e', mem, name'⟩ := List.mem_filterMap.mp again
        obtain ⟨i, less, rfl⟩ := List.mem_iff_getElem.mp mem
        have first := (h.placed (part 0 e rfl) (Expr.mem_freeVars_of_varName? name)).2
        have second := (h.placed (part (i + 1) _ (List.getElem?_eq_getElem less))
          (Expr.mem_freeVars_of_varName? name')).2
        have same := Option.some.inj (first.symm.trans second)
        omega
  refine general 0 d.lhs fun i e at' => ?_
  rwa [Nat.zero_add]

namespace Graph

/-- Initial definitions stand at the arguments of their func, updates at positions that it accepts, and estimates have
its rank. -/
structure Proper (g : Graph κ) : Prop where
  init {f : FuncId} {d : Definition κ} : (g.func f).init = some d → d.lhs = (g.func f).argExprs ∧ d.rdom = none
  update {f : FuncId} {d : Definition κ} : d ∈ (g.func f).updates → (g.func f).Accepts d.lhs
  estimate {f : FuncId} {D : Domain} : (g.func f).estimate = some D → D.dims = (g.func f).dims

/-- Without updates and estimates it is enough to look at the initial definitions. -/
theorem proper_of_inits {g : Graph κ} (inits : ∀ f ∈ g.funcIds,
    (∀ d ∈ (g.func f).init, d.lhs.map Expr.varName? = (g.func f).args.map some ∧ d.rdom = none) ∧
      (g.func f).updates = [] ∧ (g.func f).estimate = none) : g.Proper := by
  have shape (f : FuncId) : (∀ d ∈ (g.func f).init, d.lhs = (g.func f).argExprs ∧ d.rdom = none) ∧
      (g.func f).updates = [] ∧ (g.func f).estimate = none := by
    by_cases known : f.index < g.size
    · obtain ⟨init, rest⟩ := inits f (mem_funcIds.mpr known)
      exact ⟨fun d mem => ⟨Expr.eq_map_var_of_varName? (init d mem).1, (init d mem).2⟩, rest⟩
    · rw [func_of_unknown known]
      exact ⟨nofun, rfl, rfl⟩
  constructor
  · exact fun init => (shape _).1 _ init
  · intro f d update
    rw [(shape f).2.1] at update
    cases update
  · intro f D estimate
    rw [(shape f).2.2] at estimate
    cases estimate

/-- The graphs that the building operations make. -/
inductive Built : Graph κ → Prop where
  | empty : Built {}
  | addFunc {g g' : Graph κ} {name : Name} {args : List Name} {f : FuncId} :
    Built g → g.addFunc name args = .ok (f, g') → Built g'
  | addBuffer {g g' : Graph κ} {name : Name} {domain : Domain} {b : BufferId} :
    Built g → g.addBuffer name domain = .ok (b, g') → Built g'
  | addParam {g g' : Graph κ} {name : Name} {p : ParamId} : Built g → g.addParam name = .ok (p, g') → Built g'
  | define {g g' : Graph κ} {f : FuncId} {value : Expr κ} : Built g → g.define f value = .ok g' → Built g'
  | update {g g' : Graph κ} {f : FuncId} {d : Definition κ} : Built g → g.update f d = .ok g' → Built g'
  | setEstimate {g g' : Graph κ} {f : FuncId} {domain : Domain} :
    Built g → g.setEstimate f domain = .ok g' → Built g'

variable {g g' : Graph κ} {f h : FuncId}

theorem func_push (g : Graph κ) (new : Func κ) (h : FuncId) :
    (g.push new).2.func h = if h.index = g.size then new else g.func h := by
  change (g.funcs.push new).getD h.index default = _
  rw [Array.getD_eq_getD_getElem?, Array.getElem?_push]
  unfold size func
  split
  · rfl
  · rw [Array.getD_eq_getD_getElem?]

theorem func_modifyFunc (g : Graph κ) (f h : FuncId) (change : Func κ → Func κ) :
    (g.modifyFunc f change).func h = if f = h ∧ f.index < g.size then change (g.func h) else g.func h := by
  change (g.funcs.modify f.index change).getD h.index default = _
  rw [Array.getD_eq_getD_getElem?, Array.getElem?_modify]
  unfold size func
  by_cases same : f = h
  · subst same
    rw [if_pos rfl, Array.getD_eq_getD_getElem?]
    by_cases inside : f.index < g.funcs.size
    · rw [if_pos ⟨rfl, inside⟩, Array.getElem?_eq_getElem inside]
      rfl
    · rw [if_neg fun both => inside both.2, Array.getElem?_eq_none (Nat.not_lt.mp inside)]
      rfl
  · have apart : f.index ≠ h.index := fun equal => same (by cases f; cases h; exact congrArg FuncId.mk equal)
    rw [if_neg apart, if_neg fun both => same both.1, Array.getD_eq_getD_getElem?]

theorem Proper.push (proper : g.Proper) {name : Name} {args : List Name} :
    (g.push { name, args }).2.Proper := by
  refine ⟨fun {f d} init => ?_, fun {f d} mem => ?_, fun {f D} found => ?_⟩
  · rw [func_push] at init ⊢
    split at init
    · cases init
    · rename_i other
      rw [if_neg other]
      exact proper.init init
  · rw [func_push] at mem ⊢
    split at mem
    · cases mem
    · rename_i other
      rw [if_neg other]
      exact proper.update mem
  · rw [func_push] at found ⊢
    split at found
    · cases found
    · rename_i other
      rw [if_neg other]
      exact proper.estimate found

theorem Proper.modify (proper : g.Proper) {change : Func κ → Func κ} (args : (change (g.func f)).args = (g.func f).args)
    (init : ∀ d, (change (g.func f)).init = some d → (g.func f).init = some d ∨ d.lhs = (g.func f).argExprs ∧ d.rdom = none)
    (updates : ∀ d ∈ (change (g.func f)).updates, d ∈ (g.func f).updates ∨ (g.func f).Accepts d.lhs)
    (estimate : ∀ D, (change (g.func f)).estimate = some D → (g.func f).estimate = some D ∨ D.dims = (g.func f).dims) :
    (g.modifyFunc f change).Proper := by
  have dims : (change (g.func f)).dims = (g.func f).dims := congrArg List.length args
  refine ⟨fun {h d} found => ?_, fun {h d} mem => ?_, fun {h D} found => ?_⟩
  · rw [func_modifyFunc] at found ⊢
    split at found
    · rename_i both
      obtain rfl := both.1
      have same : (change (g.func f)).argExprs = (g.func f).argExprs := congrArg (List.map Expr.var) args
      rw [if_pos both, same]
      exact (init d found).elim proper.init id
    · rename_i other
      rw [if_neg other]
      exact proper.init found
  · rw [func_modifyFunc] at mem ⊢
    split at mem
    · rename_i both
      obtain rfl := both.1
      rw [if_pos both]
      have accepted := (updates d mem).elim proper.update id
      refine ⟨accepted.length.trans dims.symm, fun at' free => ?_⟩
      unfold Func.dimOf?
      rw [args]
      exact accepted.placed at' free
    · rename_i other
      rw [if_neg other]
      exact proper.update mem
  · rw [func_modifyFunc] at found ⊢
    split at found
    · rename_i both
      obtain rfl := both.1
      rw [if_pos both, dims]
      exact (estimate D found).elim proper.estimate fun same => same
    · rename_i other
      rw [if_neg other]
      exact proper.estimate found

theorem Built.proper (h : g.Built) : g.Proper := by
  induction h with
  | empty =>
    refine ⟨fun found => ?_, fun mem => ?_, fun found => ?_⟩
    · cases found
    · cases mem
    · cases found
  | addFunc _ run ih =>
    obtain ⟨-, -, made⟩ := bind_eq_ok.mp run
    obtain rfl := (Prod.mk.inj (pure_eq_ok.mp made)).2
    exact ih.push
  | addBuffer _ run ih =>
    obtain ⟨-, -, made⟩ := bind_eq_ok.mp run
    obtain rfl := (Prod.mk.inj (pure_eq_ok.mp made)).2
    exact ⟨ih.init, ih.update, ih.estimate⟩
  | addParam _ run ih =>
    obtain ⟨-, -, made⟩ := bind_eq_ok.mp run
    obtain rfl := (Prod.mk.inj (pure_eq_ok.mp made)).2
    exact ⟨ih.init, ih.update, ih.estimate⟩
  | define _ run ih =>
    unfold Graph.define at run
    split at run
    · cases run
    · obtain rfl := pure_eq_ok.mp run
      refine ih.modify rfl (fun d found => Or.inr ?_) (fun d mem => Or.inl mem) fun D found => Or.inl found
      obtain rfl := Option.some.inj found
      exact ⟨rfl, rfl⟩
  | @update g g' f d _ run ih =>
    unfold Graph.update at run
    dsimp only at run
    split at run
    · cases run
    split at run
    · cases run
    rename_i length
    cases placed : misplaced? (g.func f) d.lhs with
    | some x =>
      rw [placed] at run
      cases run
    | none =>
      rw [placed] at run
      obtain rfl := pure_eq_ok.mp run
      refine ih.modify rfl (fun d found => Or.inl found) (fun d' mem => ?_) fun D found => Or.inl found
      rcases List.mem_append.mp mem with mem | mem
      · exact Or.inl mem
      · obtain rfl := List.mem_singleton.mp mem
        exact Or.inr (accepts_of_misplaced? (not_not.mp length) placed)
  | setEstimate _ run ih =>
    unfold Graph.setEstimate at run
    dsimp only at run
    split at run
    · cases run
    · rename_i rank
      obtain rfl := pure_eq_ok.mp run
      refine ih.modify rfl (fun d found => Or.inl found) (fun d mem => Or.inl mem) fun D found => Or.inr ?_
      rw [← Option.some.inj found]
      exact not_not.mp rank

end Graph

end ArrayDiff
