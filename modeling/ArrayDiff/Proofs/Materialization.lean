import Mathlib.Data.List.TakeWhile
import ArrayDiff.Proofs.Building
import ArrayDiff.Proofs.Demand
import ArrayDiff.Proofs.Slots

/-!
# Realizing materialized terms

`Site.materialize` turns a list of terms into funcs. Whenever these can be realized, they hold what the terms make of an
array of zeros in their order (`Site.realize_materialize`).

No expression of a term has to have a value everywhere for that, since a realization that succeeds has evaluated all
that it stored. The values of the graph, with what the terms add up to in place of the values of the new funcs, solve
the equations of all funcs, and a realization gives the values of every such solution (`Graph.realize_eq_of_solves`).
-/

open ArrayDiff.Expr

namespace ArrayDiff

/-! ### Solutions -/

section Solutions

variable {κ α : Type} [Extended κ] [Scalar α] [Embed κ α]

open Classical in
/-- The answers of `ρ`, as far as calls have the values `C`. -/
noncomputable def Valuation.agreeing (ρ : Valuation α) (C : FuncId → List Int → α) : Answers α :=
  { ρ.answers with call := fun f p => if ρ.call f p = C f p then some (C f p) else none }

omit [Scalar α] in
theorem Valuation.extendedBy_agreeing (ρ : Valuation α) (C : FuncId → List Int → α) :
    (ρ.agreeing C).ExtendedBy ρ ∧ (ρ.agreeing C).ExtendedBy { ρ with call := C } := by
  have agreed {f : FuncId} {p : List Int} {v : α} (answer : (ρ.agreeing C).call f p = some v) :
      ρ.call f p = C f p ∧ C f p = v :=
    (Option.ite_none_right_eq_some.mp answer).imp_right Option.some.inj
  exact ⟨⟨fun answer => (agreed answer).1.trans (agreed answer).2, Option.some.inj, Option.some.inj⟩,
    ⟨fun answer => (agreed answer).2, Option.some.inj, Option.some.inj⟩⟩

/-- A realization gives the values `C` if, wherever they are not those of the graph, they are what funcs hold that read
the values `C`. -/
theorem Graph.realize_eq_of_solves [ExactIndex κ α] {g : Graph κ} {b : Bindings α} {f : FuncId} {D : Domain}
    {t : Tensor α} {C : FuncId → List Int → α} (distinct : g.DistinctUpdates fun _ => True)
    (solves : ∀ h p, C h p = (g.values b).call h p ∨
      ∀ v, (g.func h).Holds ({ g.values b with call := C } : Valuation α).answers h p v → v = C h p)
    (run : g.realize f D b = .ok t) : t = ⟨D.shape, (D.points.map (C f)).toArray⟩ := by
  obtain ⟨s, scheduled, -⟩ := bind_eq_ok.mp run
  have order := mapError_eq_ok.mp scheduled
  let ρ := g.values b
  obtain ⟨own, other⟩ := ρ.extendedBy_agreeing C
  have sound : (ρ.agreeing C).Sound g b (· ∈ s.funcs) := by
    refine ⟨fun found => congrArg some (values_load found), fun found => congrArg some (values_param found),
      fun {h p v} mem held => ?_⟩
    have meant : ρ.call h p = v := meaning_settles (ordered_schedule order).1.layered mem (distinct h trivial) p v
      (held.follow own.follows fun _ _ _ _ => trivial)
    have solved : C h p = v := by
      rcases solves h p with same | all
      · exact same.trans meant
      · exact (all v (held.follow other.follows fun _ _ _ _ => trivial)).symm
    exact (if_pos (meant.trans solved.symm)).trans (congrArg some solved)
  obtain ⟨shape, held⟩ := realize_sound order sound run
  rw [← eq_map_of_forall₂ (held.imp fun p v answer => other.call answer), ← shape]

end Solutions

variable {K : Type} [Field K] [LinearOrder K] [FloorRing K] [Transcendental K]

/-! ### Expressions that do not call new funcs -/

section Avoiding

variable {κ : Type} {new : FuncId → Prop}

/-- No func of `new` is called. -/
def Expr.Avoids (new : FuncId → Prop) (e : Expr κ) : Prop := ∀ r ∈ e.reads, ∀ f, r.target = .func f → ¬new f

/-- The expressions of a term, the position first. -/
def Term.exprs : Term κ → List (Expr κ)
  | gather value => [value]
  | scatter lhs value _ => lhs ++ [value]
  | mask lhs _ => lhs

variable {ρ ρ' : Valuation K} {env : Env K} {e : Expr (Exact K)} {es : List (Expr (Exact K))}

/-- Valuations that differ in the calls of new funcs only. -/
structure Valuation.Apart (ρ ρ' : Valuation K) (new : FuncId → Prop) : Prop where
  call {f : FuncId} : ¬new f → ρ.call f = ρ'.call f
  load : ρ.load = ρ'.load
  param : ρ.param = ρ'.param

theorem Expr.Avoids.value_eq (h : ρ.Apart ρ' new) (avoids : e.Avoids new) : e.value ρ env = e.value ρ' env := by
  refine value_congr (fun f args mem => ?_) (fun b args _ => by rw [h.load]) fun i _ => by rw [h.param]
  rw [h.call (avoids _ (mem_reads_of_call mem) f rfl)]

theorem Expr.Avoids.position_eq (h : ρ.Apart ρ' new) (avoids : ∀ e ∈ es, e.Avoids new) :
    position ρ env es = position ρ' env es :=
  List.map_congr_left fun e mem => congrArg Scalar.index ((avoids e mem).value_eq h)

omit [Field K] [LinearOrder K] [FloorRing K] [Transcendental K] in
theorem Valuation.apart_set {f : FuncId} (own : new f) (A : List Int → K) : (ρ.set f A).Apart ρ new where
  call old := ρ.set_of_ne A fun same => old (same ▸ own)
  load := rfl
  param := rfl

theorem Term.run_congr (h : ρ.Apart ρ' new) {t : Term (Exact K)} (avoids : ∀ e ∈ t.exprs, e.Avoids new)
    (args : List Name) (F : List Int → K) : Term.run ρ args F t = Term.run ρ' args F t := by
  funext q
  cases t with
  | gather v => exact congrArg (F q + ·) ((avoids v List.mem_cons_self).value_eq h)
  | scatter lhs v rdom =>
    obtain ⟨position, value⟩ := List.forall_mem_append.mp avoids
    unfold Term.run
    simp only [Expr.Avoids.position_eq h position, (value v List.mem_cons_self).value_eq h]
  | mask lhs rdom =>
    have position : ∀ e ∈ lhs, e.Avoids new := avoids
    unfold Term.run
    simp only [Expr.Avoids.position_eq h position]

theorem foldl_run_congr (h : ρ.Apart ρ' new) {ts : List (Term (Exact K))}
    (avoids : ∀ t ∈ ts, ∀ e ∈ t.exprs, e.Avoids new) (args : List Name) (F : List Int → K) :
    ts.foldl (Term.run ρ args) F = ts.foldl (Term.run ρ' args) F :=
  List.foldl_ext _ _ _ fun F t mem => Term.run_congr h (avoids t mem) args F

end Avoiding

/-! ### Updates that have run -/

section Runs

variable {σ : Valuation K} {acc : FuncId} {new : FuncId → Prop} {R : Domain} {F G : List Int → K} {A B : Contents K}
  {env : Env K} {d : Definition (Exact K)} {args : List Name} {t : Term (Exact K)}

omit [Field K] [LinearOrder K] [FloorRing K] [Transcendental K] in
theorem Contents.extendedBy_set : (σ.answers.set acc (within R G)).ExtendedBy (σ.set acc G) := by
  refine ⟨fun {f p v} answer => ?_, Option.some.inj, Option.some.inj⟩
  by_cases own : f = acc
  · rw [own, Answers.set_self] at answer
    rw [own, Valuation.set_self]
    exact Option.some.inj (Option.ite_none_right_eq_some.mp answer).2
  · rw [Answers.set_of_ne _ _ own] at answer
    rw [Valuation.set_of_ne _ _ own]
    exact Option.some.inj answer

omit [Field K] [LinearOrder K] [FloorRing K] [Transcendental K] in
theorem Contents.eq_within_of_foldlM {X : Type} {f : Contents K → X → Option (Contents K)}
    {g : (List Int → K) → X → List Int → K} {l : List X}
    (step : ∀ x ∈ l, ∀ G B, f (within R G) x = some B → B = within R (g G x))
    (run : l.foldlM f (within R F) = some B) : B = within R (l.foldl g F) := by
  induction l generalizing F with
  | nil => exact (Option.some.inj run).symm
  | cons x l ih =>
    obtain ⟨C, first, rest⟩ := Option.bind_eq_some_iff.mp run
    rw [step x List.mem_cons_self F C first] at rest
    exact ih (fun y mem => step y (List.mem_cons_of_mem _ mem)) rest

theorem Func.eq_within_of_start? {func : Func (Exact K)} (init : func.init = some d)
    (begun : func.start? σ.answers R = some A) :
    A = .within R fun p => d.value.value σ ⟨coordinates (Exact K) func.args p, []⟩ := by
  obtain ⟨d', found, all, rfl⟩ := Func.start?_eq_some.mp begun
  obtain rfl := Option.some.inj (init.symm.trans found)
  funext p
  by_cases inside : p ∈ R.points
  · obtain ⟨v, value⟩ := Option.isSome_iff_exists.mp (all p inside)
    rw [Contents.within_of_mem inside]
    refine value.trans (congrArg some ?_)
    exact (value_of_value? σ.extendedBy_answers ((if_pos inside).symm.trans value)).symm
  · rw [if_neg inside, Contents.within_of_not_mem inside]

/-- An iteration that has run has stored a value, for which an update with a reduction domain has read what was there
before the iteration, and one without what was there before the update. -/
theorem Definition.eq_within_of_step? (own : new acc) (avoids : ∀ e ∈ d.lhs, e.Avoids new)
    (step : d.step? σ.answers acc (.within R F) (.within R G) env = some B) :
    B = .within R (Function.update G (position σ env d.lhs)
      (d.value.value (σ.set acc (if d.rdom.isSome then G else F)) env)) := by
  obtain ⟨q, w, index, value, stored⟩ := Definition.step?_eq_some.mp step
  rw [← apply_ite (Contents.within R)] at index value
  have at' : position σ env d.lhs = q :=
    (Expr.Avoids.position_eq (Valuation.apart_set own _) avoids).symm.trans
      (position_of_position? Contents.extendedBy_set index)
  rw [at', value_of_value? Contents.extendedBy_set value]
  obtain ⟨inside, -⟩ := Contents.store?_eq_some.mp stored
  have mem : q ∈ R.points := by
    by_contra outside
    rw [Contents.within_of_not_mem outside] at inside
    cases inside
  exact (Option.some.inj ((Contents.store?_within mem w).symm.trans stored)).symm

theorem value_add_call_set (own : new acc) {lhs : List (Expr (Exact K))} {v : Expr (Exact K)}
    (plain : ∀ e ∈ v :: lhs, e.Plain (σ.set acc F) env fun _ => True) (avoids : ∀ e ∈ v :: lhs, e.Avoids new) :
    (Smart.add (.call acc lhs) v).value (σ.set acc F) env = F (position σ env lhs) + v.value σ env := by
  obtain ⟨plainValue, plainPosition⟩ := List.forall_mem_cons.mp plain
  obtain ⟨value, at'⟩ := List.forall_mem_cons.mp avoids
  have call : (Expr.call acc lhs).Represents (σ.set acc F) env (fun _ => True) (F (position σ env lhs)) := by
    refine ⟨(plain_call _ _ _ _ _).mpr ⟨trivial, plainPosition⟩, ?_⟩
    rw [value_call, Valuation.set_self, Expr.Avoids.position_eq (Valuation.apart_set own F) at']
  rw [(Smart.represents_add call (Represents.of_plain plainValue)).value, value.value_eq (Valuation.apart_set own F)]

/-- Constants are numbers, no func of `new` is called, and pure variables stand where they may in a position. -/
structure Term.Materializable (args : List Name) (new : FuncId → Prop) (t : Term (Exact K)) : Prop where
  numbers : ∀ e ∈ t.exprs, ∀ c, .const c ∈ e.nodes → c.isNumber
  avoids : ∀ e ∈ t.exprs, e.Avoids new
  stands : t.Stands args

theorem Term.Materializable.plain (h : t.Materializable args new) (ρ : Valuation K) (env : Env K) :
    ∀ e ∈ t.exprs, e.Plain ρ env fun _ => True := fun e mem => plain_of_constants (h.numbers e mem)

variable (own : new acc)

include own

variable [IsStrictOrderedRing K] in
theorem eq_within_of_gather {v : Expr (Exact K)} (h : (Term.gather v).Materializable args new)
    (distinct : args.Nodup) (dims : R.dims = args.length) :
    let d := Term.toUpdate acc (args.map .var) (.gather v)
    d.run? σ.answers acc (d.iterations R) (.within R F) = some B → B = .within R (Term.run σ args F (.gather v)) := by
  intro d run
  have iterations : d.iterations R = R.points.map fun p => (⟨coordinates (Exact K) args p, []⟩ : Env K) :=
    iterations_args rfl rfl dims
  rw [iterations, Definition.run?, List.foldlM_map] at run
  have vars : ∀ e ∈ args.map (.var : Name → Expr (Exact K)), ∃ x, e = .var x := fun e mem =>
    (List.mem_map.mp mem).imp fun _ found => found.2.symm
  have avoids : ∀ e ∈ v :: args.map (.var : Name → Expr (Exact K)), e.Avoids new := by
    refine List.forall_mem_cons.mpr ⟨h.avoids v List.mem_cons_self, fun e mem => ?_⟩
    obtain ⟨x, rfl⟩ := vars e mem
    exact fun r read => nomatch read
  rw [Contents.eq_within_of_foldlM (g := fun G p => Function.update G p (Term.run σ args F (.gather v) p))
    (fun p mem G B step => ?_) run]
  · exact Contents.within_congr fun p mem => (foldl_assign _ _ _ _).trans (if_pos mem)
  have length : p.length = args.length := (Domain.length_of_mem_points mem).trans dims
  have at' : position σ ⟨coordinates (Exact K) args p, []⟩ (args.map (.var : Name → Expr (Exact K))) = p :=
    position_args distinct length []
  have plain : ∀ e ∈ v :: args.map (.var : Name → Expr (Exact K)),
      e.Plain (σ.set acc F) ⟨coordinates (Exact K) args p, []⟩ fun _ => True := by
    refine List.forall_mem_cons.mpr ⟨h.plain _ _ v List.mem_cons_self, fun e mem => ?_⟩
    obtain ⟨x, rfl⟩ := vars e mem
    exact (plain_var _ _ _ x).mpr trivial
  have stored := Definition.eq_within_of_step? own (fun e mem => avoids e (List.mem_cons_of_mem _ mem)) step
  have value := value_add_call_set own plain avoids
  rw [at'] at value
  rw [stored, show position σ _ d.lhs = p from at']
  exact congrArg (fun x => Contents.within R (Function.update G p x)) value

theorem eq_within_of_scatter {lhs : List (Expr (Exact K))} {v : Expr (Exact K)} {rdom : ReductionDomain}
    (h : (Term.scatter lhs v rdom).Materializable args new) :
    let d := Term.toUpdate acc (args.map .var) (.scatter lhs v rdom)
    d.run? σ.answers acc (d.iterations R) (.within R F) = some B →
      B = .within R (Term.run σ args F (.scatter lhs v rdom)) := by
  intro d run
  have closed : ∀ e ∈ d.lhs, e.varName? = none := h.stands
  rw [iterations_closed closed, Definition.run?, List.foldlM_map] at run
  let env (r : List Int) : Env K := ⟨[], coordinates (Exact K) rdom.names r⟩
  have parts : ∀ e ∈ v :: lhs, e ∈ (Term.scatter lhs v rdom).exprs := fun e mem =>
    List.mem_append.mpr ((List.mem_cons.mp mem).symm.imp_right List.mem_singleton.mpr)
  rw [Contents.eq_within_of_foldlM (g := fun G r =>
    Function.update G (position σ (env r) lhs) (G (position σ (env r) lhs) + v.value σ (env r)))
    (fun r mem G B step => ?_) run]
  · exact Contents.within_congr fun p mem => foldl_add _ _ _ _ _
  have stored := Definition.eq_within_of_step? own (fun e mem => h.avoids e (List.mem_append_left _ mem)) step
  have value : (Smart.add (.call acc lhs) v).value (σ.set acc G) (env r) = _ :=
    value_add_call_set own (fun e mem => h.plain _ _ e (parts e mem)) fun e mem => h.avoids e (parts e mem)
  exact stored.trans (congrArg (fun x => Contents.within R (Function.update G _ x)) value)

variable [IsStrictOrderedRing K] in
theorem eq_within_of_mask {lhs : List (Expr (Exact K))} {rdom : Option ReductionDomain}
    (h : (Term.mask lhs rdom).Materializable args new) (distinct : args.Nodup) (dims : R.dims = args.length) :
    let d := Term.toUpdate acc (args.map .var) (.mask lhs rdom)
    d.run? σ.answers acc (d.iterations R) (.within R F) = some B →
      B = .within R (Term.run σ args F (.mask lhs rdom)) := by
  intro d run
  have aligned : Aligned args d.lhs := h.stands
  rw [Contents.eq_within_of_foldlM (g := fun G env => Function.update G (position σ env lhs) 0)
    (fun env mem G B step => ?_) run]
  · refine Contents.within_congr fun p mem => (foldl_clear _ _ _ _).trans ?_
    exact (Term.run_mask (d := d) aligned distinct dims F mem).symm
  have zero : (Expr.zero : Expr (Exact K)).value (σ.set acc (if d.rdom.isSome then G else F)) env = 0 :=
    (Represents.zero (Q := fun _ => True)).value
  exact (Definition.eq_within_of_step? own h.avoids step).trans
    (congrArg (fun x => Contents.within R (Function.update G _ x)) zero)

variable [IsStrictOrderedRing K] in
/-- An update made from a term has done to a region what the term does to an array without bounds. -/
theorem Term.eq_within_of_run? (h : t.Materializable args new) (distinct : args.Nodup) (dims : R.dims = args.length)
    (run : (t.toUpdate acc (args.map .var)).run? σ.answers acc ((t.toUpdate acc (args.map .var)).iterations R)
      (.within R F) = some B) : B = .within R (Term.run σ args F t) := by
  cases t with
  | gather v => exact eq_within_of_gather own h distinct dims run
  | scatter lhs v rdom => exact eq_within_of_scatter own h run
  | mask lhs rdom => exact eq_within_of_mask own h distinct dims run

end Runs

/-! ### The new funcs -/

section Sites

variable {σ : Valuation K} {acc id : FuncId} {new : FuncId → Prop} {site : Site} {ts : List (Term (Exact K))}
  {body init : Expr (Exact K)} {name : Name} {p : List Int} {v : K}

variable [IsStrictOrderedRing K] in
theorem Site.eq_of_holds_accumulator (h : ∀ t ∈ ts, t.Materializable site.args new) (own : new acc)
    (distinct : site.args.Nodup) (length : p.length = site.args.length)
    (held : Func.Holds σ.answers acc { site.accumulator acc init ts with name } p v) :
    v = ts.foldl (Term.run σ site.args) (fun p => init.value σ ⟨coordinates (Exact K) site.args p, []⟩) p := by
  obtain ⟨R, A, run, value⟩ := held
  have mem : p ∈ R.points := (Func.isSome_of_contents? run p).mp (Option.isSome_of_mem value)
  have dims : R.dims = site.args.length := (Domain.length_of_mem_points mem).symm.trans length
  obtain ⟨B, begun, run⟩ := Option.bind_eq_some_iff.mp run
  obtain rfl := Func.eq_within_of_start? rfl begun
  change (ts.map (Term.toUpdate acc site.argExprs)).foldlM _ _ = some A at run
  rw [List.foldlM_map] at run
  rw [Contents.eq_within_of_foldlM
    (fun t listed F B step => Term.eq_within_of_run? own (h t listed) distinct dims step) run,
    Contents.within_of_mem mem] at value
  exact (Option.some.inj value).symm

variable [IsStrictOrderedRing K] in
theorem Site.eq_of_holds_bounded
    (plain : body.Plain σ ⟨coordinates (Exact K) site.args p, []⟩ fun _ => True) (distinct : site.args.Nodup)
    (dims : site.region.dims = site.args.length) (length : p.length = site.args.length)
    (held : Func.Holds σ.answers id { site.bounded body with name } p v) :
    v = if p ∈ site.region.points then body.value σ ⟨coordinates (Exact K) site.args p, []⟩ else 0 := by
  have value := value_of_value? σ.extendedBy_answers (Func.value?_of_holds rfl rfl held)
  rw [← value]
  exact (site.represents_bounded distinct (fun _ _ => trivial) dims length (Represents.of_plain plain)).value

end Sites

/-- What materializing a list of terms adds to a graph: funcs that are named anew, under the ids of the slot. -/
inductive Site.Makes {κ : Type} [Extended κ] (site : Site) (g : Graph κ) (ts : List (Term κ)) : Slot → Graph κ → Prop where
  | pointwise {g' : Graph κ} {id : FuncId} (name : Name) : laterTerms ts = [] →
    (∀ h, g'.func h = if h = id then { site.bounded (leadingSum ts) with name } else g.func h) →
    Makes site g ts ⟨id, none⟩ g'
  | accumulated {g' : Graph κ} {acc id : FuncId} (name name' : Name) : laterTerms ts ≠ [] → acc ≠ id →
    (∀ h, g'.func h = if h = id then { site.bounded (.call acc site.argExprs) with name }
      else if h = acc then { site.accumulator acc (leadingSum ts) (laterTerms ts) with name := name' } else g.func h) →
    Makes site g ts ⟨id, some acc⟩ g'

theorem Extension.func_push {κ : Type} (x : Extension κ) (f : Func κ) :
    ∃ name, ∀ h, (x.push f).2.graph.func h = if h = x.nextId then { f with name } else x.graph.func h := by
  refine ⟨(x.graph.freshName f.name).1, fun h => ?_⟩
  refine (Graph.func_push (x.graph.freshName f.name).2 _ h).trans (if_congr ?_ rfl rfl)
  exact ⟨fun same => by cases h; exact congrArg FuncId.mk same, fun same => congrArg FuncId.index same⟩

theorem Site.makes_materialize {κ : Type} [Extended κ] (site : Site) (x : Extension κ) (ts : List (Term κ)) :
    site.Makes x.graph ts (site.materialize x ts).1 (site.materialize x ts).2.graph := by
  unfold materialize
  cases later : laterTerms ts with
  | nil =>
    obtain ⟨name, funcs⟩ := x.func_push (site.bounded (leadingSum ts))
    exact .pointwise name later funcs
  | cons t rest =>
    let accumulator := site.accumulator x.nextId (leadingSum ts) (t :: rest)
    obtain ⟨acc, size, -⟩ := x.push_spec accumulator
    obtain ⟨name', before⟩ := x.func_push accumulator
    obtain ⟨name, funcs⟩ := (x.push accumulator).2.func_push (site.bounded (.call x.nextId site.argExprs))
    have apart : x.nextId ≠ (x.push accumulator).2.nextId := fun same =>
      Nat.ne_of_lt (Nat.lt_succ_self _) ((congrArg FuncId.index same).trans size)
    have made : site.Makes x.graph ts ⟨(x.push accumulator).2.nextId, some x.nextId⟩
        ((x.push accumulator).2.push (site.bounded (.call x.nextId site.argExprs))).2.graph := by
      refine .accumulated name name' (later ▸ List.cons_ne_nil t rest) apart fun h => (funcs h).trans ?_
      rw [before h, later]
    exact made

/-- The funcs that have been made. -/
def Slot.Has (slot : Slot) (f : FuncId) : Prop := f = slot.bounded ∨ slot.unbounded = some f

section Realizing

variable {site : Site} {g g' : Graph (Exact K)} {ts : List (Term (Exact K))} {slot : Slot} {ρ : Valuation K}

theorem Site.Makes.distinctUpdates (made : site.Makes g ts slot g') (stands : ∀ t ∈ ts, t.Stands site.args)
    (distinct : site.args.Nodup) (named : g.DistinctUpdates fun _ => True) : g'.DistinctUpdates fun _ => True := by
  intro h _ d mem
  cases made with
  | pointwise name _ funcs =>
    rw [funcs] at mem
    split at mem
    · cases mem
    · exact named h trivial d mem
  | accumulated name name' _ _ funcs =>
    rw [funcs] at mem
    split at mem
    · cases mem
    split at mem
    · obtain ⟨t, listed, rfl⟩ := List.mem_map.mp mem
      exact Term.distinctFree_toUpdate (stands t (List.dropWhile_subset _ listed)) distinct
    · exact named h trivial d mem

theorem Site.Makes.apart (made : site.Makes g ts slot g') {acc : FuncId} (unbounded : slot.unbounded = some acc) :
    acc ≠ slot.bounded := by
  cases made with
  | pointwise => cases unbounded
  | accumulated _ _ _ other => exact Option.some.inj unbounded ▸ other

theorem Site.Makes.isSome_unbounded (made : site.Makes g ts slot g') :
    slot.unbounded.isSome ↔ ∃ t ∈ ts, t.gather? = none := by
  have pointwise : laterTerms ts = [] ↔ ¬∃ t ∈ ts, t.gather? = none := by
    unfold laterTerms
    rw [List.dropWhile_eq_nil_iff]
    simp [Option.isSome_iff_ne_none]
  cases made with
  | pointwise _ none => exact iff_of_false Bool.false_ne_true (pointwise.mp none)
  | accumulated _ _ some => exact iff_of_true rfl (not_not.mp fun none => some (pointwise.mpr none))

/-- The values `ρ`, with what the terms add up to in the new funcs. -/
def Site.solution (site : Site) (ρ : Valuation K) (ts : List (Term (Exact K))) (slot : Slot) (f : FuncId)
    (p : List Int) : K :=
  let total := ts.foldl (Term.run ρ site.args) fun _ => 0
  if p.length ≠ site.args.length then ρ.call f p
  else if f = slot.bounded then if site.region.contains p then total p else 0
  else if slot.unbounded = some f then total p
  else ρ.call f p

theorem Site.apart_solution : Valuation.Apart { ρ with call := site.solution ρ ts slot } ρ slot.Has where
  call {f} old := by
    obtain ⟨other, off⟩ := not_or.mp old
    funext p
    change site.solution ρ ts slot f p = ρ.call f p
    unfold solution
    simp only [if_neg other, if_neg off, ite_self]
  load := rfl
  param := rfl

theorem Site.solution_bounded {p : List Int} (length : p.length = site.args.length) :
    site.solution ρ ts slot slot.bounded p =
      if p ∈ site.region.points then ts.foldl (Term.run ρ site.args) (fun _ => 0) p else 0 :=
  (if_neg (not_not.mpr length)).trans ((if_pos rfl).trans (if_congr Domain.contains_eq_true rfl rfl))

theorem Site.solution_unbounded {acc : FuncId} {p : List Int} (length : p.length = site.args.length)
    (other : acc ≠ slot.bounded) (unbounded : slot.unbounded = some acc) :
    site.solution ρ ts slot acc p = ts.foldl (Term.run ρ site.args) (fun _ => 0) p :=
  (if_neg (not_not.mpr length)).trans ((if_neg other).trans (if_pos unbounded))

variable [IsStrictOrderedRing K] in
/-- What a new func holds among these values is its own one of them. -/
theorem Site.Makes.eq_of_holds (made : site.Makes g ts slot g') (h : ∀ t ∈ ts, t.Materializable site.args slot.Has)
    (distinct : site.args.Nodup) (dims : site.region.dims = site.args.length) {f : FuncId} (new : slot.Has f)
    {p : List Int} (length : p.length = site.args.length) {v : K}
    (held : (g'.func f).Holds ({ ρ with call := site.solution ρ ts slot } : Valuation K).answers f p v) :
    v = site.solution ρ ts slot f p := by
  let σ : Valuation K := { ρ with call := site.solution ρ ts slot }
  have plain (env : Env K) : ∀ t ∈ ts, ∀ e, t.gather? = some e → e.Plain σ env fun _ => True := by
    intro t mem e found
    obtain rfl := gather?_eq_some.mp found
    exact (h _ mem).plain σ env e List.mem_cons_self
  have total : ts.foldl (Term.run σ site.args) (fun _ => 0) = ts.foldl (Term.run ρ site.args) fun _ => 0 :=
    foldl_run_congr Site.apart_solution (fun t mem => (h t mem).avoids) _ _
  have split : ts.foldl (Term.run σ site.args) (fun _ => 0) = (laterTerms ts).foldl (Term.run σ site.args)
      fun p => (leadingSum ts).value σ ⟨coordinates (Exact K) site.args p, []⟩ := foldl_run_split plain
  cases made with
  | pointwise name none funcs =>
    obtain rfl := new.resolve_right fun found => nomatch found
    rw [funcs, if_pos rfl] at held
    rw [none] at split
    rw [Site.eq_of_holds_bounded (represents_leadingSum (plain _)).plain distinct dims length held,
      Site.solution_bounded length, ← total, split]
    rfl
  | @accumulated _ acc id name name' _ other funcs =>
    rw [funcs] at held
    rcases eq_or_ne f id with rfl | apart
    · rw [if_pos rfl] at held
      have call : (Expr.call acc site.argExprs : Expr (Exact K)).value σ ⟨coordinates (Exact K) site.args p, []⟩ =
          ts.foldl (Term.run ρ site.args) (fun _ => 0) p := by
        rw [value_call, Site.argExprs, position_args distinct length []]
        exact Site.solution_unbounded length other rfl
      have numbers : (Expr.call acc site.argExprs : Expr (Exact K)).Plain σ
          ⟨coordinates (Exact K) site.args p, []⟩ fun _ => True := by
        refine (plain_call _ _ _ _ _).mpr ⟨trivial, fun e mem => ?_⟩
        obtain ⟨x, -, rfl⟩ := List.mem_map.mp mem
        exact (plain_var _ _ _ x).mpr trivial
      rw [Site.solution_bounded length, ← call]
      exact Site.eq_of_holds_bounded numbers distinct dims length held
    · obtain rfl : acc = f := Option.some.inj (new.resolve_left apart)
      rw [if_neg apart, if_pos rfl] at held
      rw [Site.solution_unbounded length apart rfl, ← total, split]
      exact Site.eq_of_holds_accumulator (fun t mem => h t (List.dropWhile_subset _ mem)) (Or.inr rfl) distinct length held

/-- A key of a func whose arguments have different names, with terms as the sweep sends them: the position of a scatter
leaves no pure variable free, and the one of a mask is a position that the builder accepts (`Term.Stands`). The updates
of the graph are ones that the builder accepts. -/
structure Site.WellFormed (site : Site) (g : Graph (Exact K)) (ts : List (Term (Exact K))) : Prop where
  distinct : site.args.Nodup
  dims : site.region.dims = site.args.length
  updates : g.DistinctUpdates fun _ => True
  stands : ∀ t ∈ ts, t.Stands site.args

variable [IsStrictOrderedRing K] in
/-- What the funcs made from a list of terms hold, whenever they can be realized: the bounded one has, inside the region,
the value that the terms in their order make of an array of zeros, and is 0 outside. There is an unbounded one exactly if
some term is not added everywhere, and it has the same values without a region. -/
theorem Site.realize_materialize {x : Extension (Exact K)} (b : Bindings K) (wellFormed : site.WellFormed x.graph ts)
    (numbers : ∀ t ∈ ts, ∀ e ∈ t.exprs, ∀ c, .const c ∈ e.nodes → c.isNumber)
    (avoids : ∀ t ∈ ts, ∀ e ∈ t.exprs, e.Avoids (site.materialize x ts).1.Has) :
    let slot := (site.materialize x ts).1
    let g := (site.materialize x ts).2.graph
    let total := ts.foldl (Term.run (g.values b) site.args) fun _ => 0
    (slot.unbounded.isSome ↔ ∃ t ∈ ts, t.gather? = none) ∧ ∀ (D : Domain) (t : Tensor K), D.dims = site.args.length →
      (g.realize slot.bounded D b = .ok t →
        t = ⟨D.shape, (D.points.map fun p => if p ∈ site.region.points then total p else 0).toArray⟩) ∧
      ∀ acc, slot.unbounded = some acc → g.realize acc D b = .ok t → t = ⟨D.shape, (D.points.map total).toArray⟩ := by
  intro slot g total
  obtain ⟨distinct, dims, updates, stands⟩ := wellFormed
  have made : site.Makes x.graph ts slot g := site.makes_materialize x ts
  have materializable : ∀ t ∈ ts, t.Materializable site.args slot.Has := fun t mem =>
    ⟨numbers t mem, avoids t mem, stands t mem⟩
  refine ⟨made.isSome_unbounded, fun D t rank => ?_⟩
  have realized {f : FuncId} (run : g.realize f D b = .ok t) :
      t = ⟨D.shape, (D.points.map (site.solution (g.values b) ts slot f)).toArray⟩ := by
    refine Graph.realize_eq_of_solves (made.distinctUpdates stands distinct updates) (fun f p => ?_) run
    by_cases length : p.length = site.args.length
    · by_cases new : slot.Has f
      · exact Or.inr fun v held => made.eq_of_holds materializable distinct dims new length held
      · exact Or.inl (congrFun (Site.apart_solution.call new) p)
    · exact Or.inl (if_pos length)
  have length {p : List Int} (mem : p ∈ D.points) : p.length = site.args.length :=
    (Domain.length_of_mem_points mem).trans rank
  refine ⟨fun run => ?_, fun acc unbounded run => ?_⟩
  · rw [realized run, List.map_congr_left fun p mem => Site.solution_bounded (length mem)]
  · rw [realized run, List.map_congr_left fun p mem =>
      Site.solution_unbounded (length mem) (made.apart unbounded) unbounded]

end Realizing

/-! ### Two arguments of the same name -/

/-- A key of a func `g(x, x)`. -/
def doubled : Site := ⟨⟨.func ⟨0⟩, .initial⟩, "g_d", ["x", "x"], ⟨[⟨0, 0⟩, ⟨0, 0⟩]⟩⟩

/-- The guard of the region asks for the first argument twice, so that the second one is not limited by it. -/
theorem doubled.nonzero_outside :
    (doubled.materialize (⟨{}, {}⟩ : Extension (Exact ℚ)) [.gather .one]).1 = ⟨⟨0⟩, none⟩ ∧
    [0, 5] ∉ doubled.region.points ∧
    (doubled.materialize (⟨{}, {}⟩ : Extension (Exact ℚ)) [.gather .one]).2.graph.realize ⟨0⟩ ⟨[⟨0, 0⟩, ⟨5, 5⟩]⟩
      ({} : Bindings ℚ) = .ok ⟨[1, 1], #[1]⟩ := by
  decide +kernel

/-! ### An example -/

/-- `h(i) := 2 * i`. -/
def layered : Graph (Exact ℚ) where
  funcs := #[{ name := "h", args := ["i"], init := some ⟨[.var "i"], .binary .mul (.ofInt 2) (.var "i"), none⟩ }]

namespace layered

def site : Site := ⟨⟨.func ⟨0⟩, .initial⟩, "h_d", ["x"], ⟨[⟨0, 2⟩]⟩⟩

/-- Adds `h(x)`, then every `r` from 0 to 7 at the position `r / 2`, sets 1 to 0, and adds 10. -/
def terms : List (Term (Exact ℚ)) :=
  [.gather (.call ⟨0⟩ [.var "x"]),
    .scatter [.binary .div (.rvar "r") (.ofInt 2)] (.rvar "r") ⟨[("r", ⟨0, 7⟩)]⟩,
    .mask [.ofInt 1] none, .gather (.ofInt 10)]

def made : Slot × Extension (Exact ℚ) := site.materialize ⟨layered, {}⟩ terms

theorem materializable : ∀ t ∈ terms, t.Materializable site.args made.1.Has := by
  have numbers : ∀ t ∈ terms, ∀ e ∈ t.exprs, ∀ x ∈ e.nodes, x.const?.all Exact.isNumber = true := by decide +kernel
  have reads : ∀ t ∈ terms, ∀ e ∈ t.exprs, ∀ r ∈ e.reads, r.target = .func ⟨0⟩ := by decide +kernel
  have new : made.1 = ⟨⟨2⟩, some ⟨1⟩⟩ := by decide +kernel
  refine fun t mem => ⟨fun e own c node => numbers t mem e own _ node, fun e own r read f target => ?_, ?_⟩
  · obtain rfl := Target.func.inj (target.symm.trans (reads t mem e own r read))
    rw [new]
    simp [Slot.Has]
  · simp only [terms, List.mem_cons, List.not_mem_nil, or_false] at mem
    rcases mem with rfl | rfl | rfl | rfl
    · trivial
    · simp [Term.Stands, varName?]
    · exact .cons (Or.inr (by simp [Expr.ofInt, nodes])) .nil
    · trivial

theorem wellFormed : site.WellFormed layered terms where
  distinct := by decide
  dims := rfl
  updates := by
    rintro ⟨i⟩ _ d mem
    match i with
    | 0 | i + 1 => cases mem
  stands t mem := (materializable t mem).stands

/-- At 0 that is 0 + (0 + 1) + 10, at 1 only the last term is left, and at 2 it is 4 + (4 + 5) + 10. The position 3 is
written too, but lies outside of the region. -/
theorem terms_in_order : made.1 = ⟨⟨2⟩, some ⟨1⟩⟩ ∧
    made.2.graph.realize ⟨2⟩ ⟨[⟨-1, 3⟩]⟩ ({} : Bindings ℚ) = .ok ⟨[5], #[0, 11, 10, 23, 0]⟩ ∧
    made.2.graph.realize ⟨1⟩ ⟨[⟨0, 2⟩]⟩ ({} : Bindings ℚ) = .ok ⟨[3], #[11, 10, 23]⟩ ∧
    [[0], [1], [2]].map (terms.foldl (Term.run (made.2.graph.values {}) site.args) fun _ => 0) = [11, 10, 23] := by
  have new : made.1 = ⟨⟨2⟩, some ⟨1⟩⟩ := by decide +kernel
  have run : made.2.graph.realize ⟨1⟩ ⟨[⟨0, 2⟩]⟩ ({} : Bindings ℚ) = .ok ⟨[3], #[11, 10, 23]⟩ := by decide +kernel
  refine ⟨new, by decide +kernel, run, ?_⟩
  obtain ⟨-, realized⟩ := Site.realize_materialize (x := ⟨layered, {}⟩) {} wellFormed
    (fun t mem => (materializable t mem).numbers) fun t mem => (materializable t mem).avoids
  have values := (realized ⟨[⟨0, 2⟩]⟩ _ rfl).2 ⟨1⟩ (congrArg Slot.unbounded new) run
  have points : (⟨[⟨0, 2⟩]⟩ : Domain).points = [[0], [1], [2]] := by decide
  rw [points] at values
  exact (congrArg (fun t : Tensor ℚ => t.values.toList) values).symm

end layered

end ArrayDiff
