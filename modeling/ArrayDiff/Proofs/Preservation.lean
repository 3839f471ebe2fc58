import ArrayDiff.Proofs.Allocation
import ArrayDiff.Proofs.Building
import ArrayDiff.Proofs.Coverage
import ArrayDiff.Proofs.Interpreter
import ArrayDiff.Tangent

/-!
# Old funcs in a graph that has grown

A graph that has grown treats its old funcs as before: schedules, regions and values are the same, and so are the errors
(`Graph.GrowsTo.preserves`). Differentiation lets a graph grow and changes nothing else (`Graph.derivatives_preserve`).
-/

namespace ArrayDiff

variable {κ α : Type}

/-! ### Evaluations with readers that agree -/

/-- Two computations that are one computation of pairs. -/
def Lifting.paired (m : Type → Type) [Monad m] [LawfulMonad m] : Lifting m m where
  rel {A B} S c d := ∃ both : m {x : A × B // S x.1 x.2}, c = (·.1.1) <$> both ∧ d = (·.1.2) <$> both
  rel_pure {A B S x y} h := ⟨pure ⟨(x, y), h⟩, by simp, by simp⟩
  rel_bind := by
    rintro A B C D S T c d f g ⟨both, rfl, rfl⟩ next
    choose later first second using fun x : {x : A × B // S x.1 x.2} => next x.1.1 x.1.2 x.2
    refine ⟨both >>= later, ?_, ?_⟩
    · rw [map_bind, bind_map_left]
      exact congrArg _ (funext first)
    · rw [map_bind, bind_map_left]
      exact congrArg _ (funext second)

section Paired

variable {m : Type → Type} [Monad m] [LawfulMonad m] {A : Type} {c d : m A}

theorem Lifting.paired_refl (c : m A) : (Lifting.paired m).rel Eq c c :=
  ⟨(fun a => ⟨(a, a), rfl⟩) <$> c, by simp, by simp⟩

theorem Lifting.eq_of_paired (h : (Lifting.paired m).rel Eq c d) : c = d := by
  obtain ⟨both, rfl, rfl⟩ := h
  exact congrArg (· <$> both) (funext fun x => x.2)

namespace Expr

variable [Scalar α] [Embed κ α] {p q : Reader m α} {e : Expr κ} {env : Env α}

/-- The readers answer the reads of an expression alike. -/
structure Alike (p q : Reader m α) (e : Expr κ) : Prop where
  call {r : Read κ} {f : FuncId} : r ∈ e.reads → r.target = .func f → p.call f = q.call f
  load : p.load = q.load
  param : p.param = q.param
  unbound : p.unbound = q.unbound

omit [Scalar α] in
theorem Alike.related (h : Alike p q e) : Related (Lifting.paired m) Eq p q env env e := by
  refine ⟨fun _ => rfl, fun x _ => ?_, fun x _ => ?_, fun f args index mem => ?_, fun b index => ?_, fun i => ?_⟩
  · rw [h.unbound]
    exact Lifting.paired_refl _
  · rw [h.unbound]
    exact Lifting.paired_refl _
  · rw [h.call (mem_reads_of_call mem) rfl]
    exact Lifting.paired_refl _
  · rw [h.load]
    exact Lifting.paired_refl _
  · rw [h.param]
    exact Lifting.paired_refl _

theorem Alike.eval_eq (h : Alike p q e) (env : Env α) : e.eval p env = e.eval q env :=
  Lifting.eq_of_paired (eval_rel Respected.eq h.related)

theorem evalIndex_eq {es : List (Expr κ)} (h : ∀ a ∈ es, Alike p q a) (env : Env α) :
    evalIndex p env es = evalIndex q env es :=
  Lifting.eq_of_paired (evalIndex_related Respected.eq fun a mem => (h a mem).related)

end Expr

end Paired

namespace Graph

variable {g g' : Graph κ} {f root : FuncId} {t : Target} {s : Schedule}

theorem getElem?_funcs (inside : f.index < g.size) : g.funcs[f.index]? = some (g.func f) := by
  have less : f.index < g.funcs.size := inside
  unfold func
  rw [Array.getD_eq_getD_getElem?, Array.getElem?_eq_getElem less]
  rfl

namespace GrowsTo

variable (grows : g.GrowsTo g')
include grows

theorem nameOf (inside : ∀ f, t = .func f → f.index < g.size) : g'.nameOf t = g.nameOf t := by
  unfold Graph.nameOf nameOf?
  cases t with
  | func f =>
    have old := inside f rfl
    simp only [getElem?_funcs old, getElem?_funcs (old.trans_le grows.size), grows.func old]
  | buffer b => simp only [grows.buffers]
  | param p => simp only [grows.params]

theorem nameOf_func (inside : f.index < g.size) : g'.nameOf (.func f) = g.nameOf (.func f) :=
  grows.nameOf fun _ same => Target.func.inj same ▸ inside

/-! ### Schedules -/

theorem cyclePath {path : List FuncId} (inside : f.index < g.size) (waiting : ∀ h ∈ path, h.index < g.size) :
    g'.cyclePath path f = g.cyclePath path f := by
  unfold Graph.cyclePath
  refine List.map_congr_left fun h mem => grows.nameOf_func ?_
  rcases List.mem_append.mp mem with mem | mem
  · rcases List.mem_cons.mp mem with rfl | mem
    · exact inside
    · exact waiting h ((List.takeWhile_subset _) (List.mem_reverse.mp mem))
  · rwa [List.mem_singleton.mp mem]

/-- Two visits of an old func go alike, as long as both have depth left for every func that is not waiting yet. -/
theorem visit {S : FuncId → Prop} (inside : ∀ f, S f → f.index < g.size)
    (closed : ∀ f stage h, S f → (g.func f).Reads stage (.func h) → S h) {depth depth' : Nat} {path : List FuncId}
    (mem : S f) (waiting : ∀ h ∈ path, S h) (distinct : path.Nodup) (enough : g.size < depth + path.length)
    (enough' : g.size < depth' + path.length) (s : Schedule) : g'.visit depth' path f s = g.visit depth path f s := by
  induction depth generalizing depth' f path s with
  | zero =>
    have bound := length_le_size distinct fun h listed => inside h (waiting h listed)
    omega
  | succ depth ih =>
    cases depth' with
    | zero =>
      have bound := length_le_size distinct fun h listed => inside h (waiting h listed)
      omega
    | succ depth' =>
      rw [visit_succ, visit_succ, grows.func (inside f mem), grows.nameOf_func (inside f mem),
        grows.cyclePath (inside f mem) fun h listed => inside h (waiting h listed)]
      split
      · rfl
      split
      · rfl
      rename_i fresh
      split
      · rfl
      refine congrArg (· >>= _) (foldlM_congr (fun e listed s => ?_) s)
      obtain ⟨stage, target⟩ := e
      cases target with
      | func h =>
        have reads := closed f stage h mem (Func.mem_dependencies.mp listed)
        have waiting' : ∀ k ∈ f :: path, S k := List.forall_mem_cons.mpr ⟨mem, waiting⟩
        have next : g'.visit depth' (f :: path) h s = g.visit depth (f :: path) h s := by
          apply ih reads waiting' (List.nodup_cons.mpr ⟨fresh, distinct⟩)
          · rw [List.length_cons]
            omega
          · rw [List.length_cons]
            omega
        simp only [visitRead, next, grows.nameOf_func (inside f mem)]
      | buffer b => rfl
      | param p => rfl

end GrowsTo

/-- The func and everything that it calls, directly or not, are funcs of the graph. -/
def Contains (g : Graph κ) (f : FuncId) : Prop := ∀ h, g.Reaches f (.func h) → h.index < g.size

theorem GrowsTo.schedule (grows : g.GrowsTo g') (contained : g.Contains root) :
    g'.schedule root = g.schedule root :=
  grows.visit (S := fun f => g.Reaches root (.func f)) contained (fun _ _ _ reached reads => reached.read reads) .root
    (fun _ listed => absurd listed List.not_mem_nil) List.nodup_nil (by simp) (by simpa using Nat.lt_succ_of_le grows.size) {}

theorem contains_of_schedule (order : g.schedule root = .ok s) : g.Contains root := fun f reached =>
  index_lt_of_init ((ordered_schedule order).1.defined f ((lists_iff_reaches order).mpr reached))

/-! ### Regions -/

section Regions

variable [Extended κ] {region : Domain} {regions : Regions}

namespace GrowsTo

variable (grows : g.GrowsTo g') (inside : f.index < g.size)
include grows inside

theorem request (known : ∀ h, t = .func h → h.index < g.size) (spans : List (Span κ)) :
    g'.request f t spans = g.request f t spans := by
  unfold Graph.request
  rw [grows.nameOf_func inside, grows.nameOf known]

theorem grownRegion : g'.grownRegion f region = g.grownRegion f region := by
  have own (spans : List (Span κ)) : g'.request f (.func f) spans = g.request f (.func f) spans :=
    grows.request inside (fun _ same => Target.func.inj same ▸ inside) spans
  have update : g'.growByUpdate f region = g.growByUpdate f region := by
    funext extra d
    unfold growByUpdate
    simp only [grows.func inside, own]
  unfold Graph.grownRegion
  rw [grows.func inside, update]

theorem inferRegion (known : ∀ stage h, (g.func f).Reads stage (.func h) → h.index < g.size) :
    g'.inferRegion regions f = g.inferRegion regions f := by
  have requested {stage : Stage} {d : Definition κ} (listed : (stage, d) ∈ (g.func f).definitions) (region : Domain)
      (regions : Regions) : g'.requestReads f region regions d = g.requestReads f region regions d := by
    unfold requestReads
    dsimp only
    rw [grows.func inside]
    split
    · rfl
    refine foldlM_congr (fun access mem regions => ?_) regions
    obtain ⟨e, own, mem⟩ := List.mem_flatMap.mp mem
    have read := List.mem_flatMap.mpr ⟨e, own, (Expr.read_of_mem_accesses mem).1⟩
    split
    · rename_i h target
      have wanted := grows.request inside (t := .func h)
        (fun k same => Target.func.inj same ▸ known stage h ⟨d, listed, access.read, read, target⟩) access.spans
      simp only [wanted]
    · rfl
  have settled : regions.of g' f = regions.of g f := by
    unfold Regions.of
    rw [grows.func inside]
  unfold Graph.inferRegion
  rw [grows.grownRegion inside, settled, grows.func inside]
  exact congrArg _ (funext fun region => foldlM_congr (fun e listed regions => requested listed region regions) _)

end GrowsTo

theorem GrowsTo.inferRegions (grows : g.GrowsTo g') (order : g.schedule root = .ok s) (h : FuncId) (D : Domain) :
    g'.inferRegions s h D = g.inferRegions s h D := by
  have ordered := (ordered_schedule order).1
  refine foldlM_congr (fun f mem regions => ?_) _
  have listed := List.mem_reverse.mp mem
  refine grows.inferRegion (index_lt_of_init (ordered.defined f listed)) fun stage k reads => ?_
  exact index_lt_of_init (ordered.defined k (ordered.lists listed reads))

end Regions

end Graph

/-! ### Values -/

section Values

variable [Scalar κ] [Scalar α] [Embed κ α]

namespace Job

variable {g g' : Graph κ} {b : Bindings α} {regions : Regions} {p q : Reader (Run α) α} {f : FuncId}

/-- The readers answer all reads of a func alike. -/
def Agree (g : Graph κ) (f : FuncId) (p q : Reader (Run α) α) : Prop :=
  ∀ stage d, (stage, d) ∈ (g.func f).definitions → ∀ e ∈ d.exprs, Expr.Alike p q e

omit [Scalar κ] in
theorem Agree.init (agree : Agree g f p q) {d : Definition κ} (init : (g.func f).init = some d) (env : Env α) :
    d.value.eval p env = d.value.eval q env :=
  (agree .initial d (Func.mem_definitions_init init) d.value (by simp [Definition.exprs])).eval_eq env

omit [Scalar κ] in
theorem Agree.iterate (agree : Agree g f p q) {stage : Stage} {d : Definition κ}
    (listed : (stage, d) ∈ (g.func f).definitions) : Job.iterate p d = Job.iterate q d := by
  funext env
  unfold Job.iterate
  rw [Expr.evalIndex_eq (fun a mem => agree stage d listed a (List.mem_append_left _ mem)) env,
    (agree stage d listed d.value (by simp [Definition.exprs])).eval_eq env]

section Grown

variable (grows : g.GrowsTo g')
include grows

omit [Scalar κ] [Scalar α] [Embed κ α] in
theorem load_grown : (⟨g', b, regions⟩ : Job κ α).load = (⟨g, b, regions⟩ : Job κ α).load := by
  funext i index
  simp only [load, Bindings.tensor, grows.buffer]

omit [Scalar κ] [Scalar α] [Embed κ α] in
theorem param_grown (i : ParamId) : b.param g' i = b.param g i := by
  unfold Bindings.param
  rw [grows.param]

variable (inside : f.index < g.size)
include inside

omit [Scalar κ] [Scalar α] [Embed κ α] in
theorem store_grown : (⟨g', b, regions⟩ : Job κ α).store f = (⟨g, b, regions⟩ : Job κ α).store f := by
  funext index v
  simp only [store, outOfBounds, grows.func inside]

variable (agree : Agree g f p q)
include agree

theorem runUpdate_grown {stage : Stage} {d : Definition κ} (listed : (stage, d) ∈ (g.func f).definitions)
    (region : Domain) : (⟨g', b, regions⟩ : Job κ α).runUpdate p f region d =
      (⟨g, b, regions⟩ : Job κ α).runUpdate q f region d := by
  unfold runUpdate runStepwise runAtOnce
  rw [store_grown grows inside, agree.iterate listed]

theorem materialize_grown :
    (⟨g', b, regions⟩ : Job κ α).materialize p f = (⟨g, b, regions⟩ : Job κ α).materialize q f := by
  have region : regions.of g' f = regions.of g f := by
    unfold Regions.of
    rw [grows.func inside]
  unfold materialize
  dsimp only
  rw [grows.func inside, region]
  cases init : (g.func f).init with
  | none => rfl
  | some d =>
    dsimp only
    refine congrArg₂ _ ?_ (funext fun values => congrArg _ (funext fun data =>
      congrArg _ (funext fun _ => forM_congr fun u mem => ?_)))
    · simp only [agree.init init]
    · obtain ⟨i, listed⟩ := Func.mem_definitions_update mem
      exact runUpdate_grown grows inside agree listed _

theorem valueAt_grown (index : List Int) :
    (⟨g', b, regions⟩ : Job κ α).valueAt p f index = (⟨g, b, regions⟩ : Job κ α).valueAt q f index := by
  unfold valueAt outOfBounds
  dsimp only
  rw [grows.func inside]
  refine congrArg _ (funext fun memory => ?_)
  split
  · rfl
  split
  · rfl
  cases init : (g.func f).init with
  | none => rfl
  | some d =>
    dsimp only
    rw [agree.init init]

theorem answer_grown (index : List Int) :
    (⟨g', b, regions⟩ : Job κ α).answer p f index = (⟨g, b, regions⟩ : Job κ α).answer q f index := by
  unfold answer prepare
  dsimp only
  rw [grows.func inside, materialize_grown grows inside agree, valueAt_grown grows inside agree]

end Grown

/-- Funcs that only call old ones answer as before, however deep calls may be nested. -/
theorem call_grown {S : FuncId → Prop} (grows : g.GrowsTo g') (inside : ∀ f, S f → f.index < g.size)
    (closed : ∀ f stage h, S f → (g.func f).Reads stage (.func h) → S h) (depth : Nat) (mem : S f) :
    (⟨g', b, regions⟩ : Job κ α).call depth f = (⟨g, b, regions⟩ : Job κ α).call depth f := by
  induction depth generalizing f with
  | zero =>
    funext index
    unfold call
    dsimp only
    rw [grows.func (inside f mem)]
  | succ depth ih =>
    funext index
    refine answer_grown grows (inside f mem) (fun stage d listed e own => ?_) index
    refine ⟨fun {r h} read target => ?_, load_grown grows, funext fun i => ?_, rfl⟩
    · exact ih (closed f stage h mem ⟨d, listed, r, List.mem_flatMap.mpr ⟨e, own, read⟩, target⟩)
    · exact congrArg liftM (param_grown grows i)

end Job

end Values

namespace Graph

variable [Extended κ] {g g' : Graph κ} {f : FuncId}

theorem GrowsTo.realize [Scalar α] [Embed κ α] (grows : g.GrowsTo g') (contained : g.Contains f) (D : Domain)
    (b : Bindings α) : g'.realize f D b = g.realize f D b := by
  unfold Graph.realize
  rw [grows.schedule contained]
  refine bind_congr_ok fun s order => ?_
  have order := mapError_eq_ok.mp order
  obtain ⟨ordered, mem⟩ := ordered_schedule order
  rw [grows.inferRegions order]
  refine bind_congr_ok fun regions _ => ?_
  have call : (⟨g', b, regions⟩ : Job κ α).call (s.funcs.length + 1) f =
      (⟨g, b, regions⟩ : Job κ α).call (s.funcs.length + 1) f := by
    apply Job.call_grown (S := (· ∈ s.funcs)) grows _ _ _ mem
    · exact fun h listed => index_lt_of_init (ordered.defined h listed)
    · exact fun h stage k listed reads => ordered.lists listed reads
  dsimp only
  rw [call, grows.func (index_lt_of_init (ordered.defined f mem))]

/-- What a graph that has grown keeps of the old one: its funcs, buffers and params, and everything that can be computed
for a func whose calls name funcs of the old graph. -/
structure Preserves (g g' : Graph κ) : Prop where
  grows : g.GrowsTo g'
  schedule (f : FuncId) : g.Contains f → g'.schedule f = g.schedule f
  regions (f : FuncId) (s : Schedule) (D : Domain) : g.schedule f = .ok s →
    g'.inferRegions s f D = g.inferRegions s f D
  realize {α : Type} [Scalar α] [Embed κ α] (f : FuncId) (D : Domain) (b : Bindings α) : g.Contains f →
    g'.realize f D b = g.realize f D b

theorem GrowsTo.preserves (grows : g.GrowsTo g') : g.Preserves g' :=
  ⟨grows, fun _ => grows.schedule, fun f _ D order => grows.inferRegions order f D,
    fun _ D b contained => grows.realize contained D b⟩

/-! ### Differentiation -/

theorem grows_of_tangents {output : FuncId} {directions : List (Name × FuncId)} {t : Tangents κ}
    (run : g.tangents output directions = .ok t) : g.GrowsTo t.graph :=
  (extends_of_tangents run).grows

/-- Differentiation only adds funcs to a graph, and what could be computed before is computed as before. -/
theorem derivatives_preserve (g : Graph κ) (output : FuncId) :
    (∀ seed a, g.adjoints output seed = .ok a → g.Preserves a.graph) ∧
    ∀ directions t, g.tangents output directions = .ok t → g.Preserves t.graph := by
  constructor
  · intro seed a run
    obtain ⟨s, x, -, allocated, rfl⟩ := allocated_of_adjoints run
    exact allocated.grows.preserves
  · intro directions t run
    exact (grows_of_tangents run).preserves

end Graph

theorem weighing.preserved : ∃ a t, weighing.adjoints ⟨0⟩ .unit = .ok a ∧
    weighing.tangents ⟨0⟩ [("weight", ⟨0⟩)] = .ok t ∧ weighing.Preserves a.graph ∧ weighing.Preserves t.graph ∧
    ∀ b : Bindings ℚ, a.graph.realize ⟨0⟩ .scalar b = weighing.realize ⟨0⟩ .scalar b ∧
      t.graph.realize ⟨0⟩ .scalar b = weighing.realize ⟨0⟩ .scalar b := by
  have backward : (weighing.adjoints ⟨0⟩ .unit).toOption.isSome := by decide +kernel
  have forward : (weighing.tangents ⟨0⟩ [("weight", ⟨0⟩)]).toOption.isSome := by decide +kernel
  have order : (weighing.schedule ⟨0⟩).toOption.isSome := by decide +kernel
  obtain ⟨a, made⟩ := Option.isSome_iff_exists.mp backward
  obtain ⟨t, moved⟩ := Option.isSome_iff_exists.mp forward
  obtain ⟨s, order⟩ := Option.isSome_iff_exists.mp order
  obtain ⟨adjoints, tangents⟩ := Graph.derivatives_preserve weighing ⟨0⟩
  have first := adjoints .unit a (toOption_eq_some.mp made)
  have second := tangents _ t (toOption_eq_some.mp moved)
  have contained := Graph.contains_of_schedule (toOption_eq_some.mp order)
  exact ⟨a, t, toOption_eq_some.mp made, toOption_eq_some.mp moved, first, second,
    fun b => ⟨first.realize ⟨0⟩ .scalar b contained, second.realize ⟨0⟩ .scalar b contained⟩⟩

end ArrayDiff
