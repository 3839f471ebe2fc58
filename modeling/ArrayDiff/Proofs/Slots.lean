import ArrayDiff.Proofs.Growth
import ArrayDiff.Proofs.Terms

/-!
# The funcs made from a list of terms

`Site.materialize` adds one or two funcs. Inside the region the bounded one has the value that the terms add up to in
order, starting from 0; outside it is 0 (`Site.materialize_spec`).
-/

open ArrayDiff.Expr

namespace ArrayDiff

variable {K : Type} [Field K] [LinearOrder K] [FloorRing K] [Transcendental K]

section Conditions

variable {ρ : Valuation K} {env : Env K} {Q : Atom → Prop}

omit [LinearOrder K] [FloorRing K] [Transcendental K] in
theorem IsTruth.mul {x y : K} (hx : IsTruth x) (hy : IsTruth y) : IsTruth (x * y) := by
  rcases hx with rfl | rfl
  · exact Or.inl (zero_mul y)
  · rw [one_mul]
    exact hy

theorem Smart.represents_all {es : List (Expr (Exact K))} {vs : List K}
    (h : List.Forall₂ (fun e v => e.Represents ρ env Q v ∧ IsTruth v) es vs) :
    (Smart.all es).Represents ρ env Q vs.prod ∧ IsTruth vs.prod := by
  unfold Smart.all
  suffices general : ∀ (a : Expr (Exact K)) (x : K), a.Represents ρ env Q x → IsTruth x →
      (es.foldl Smart.and a).Represents ρ env Q (x * vs.prod) ∧ IsTruth (x * vs.prod) by
    have start := general .one 1 Represents.one (Or.inr rfl)
    rwa [one_mul] at start
  induction h with
  | nil =>
    intro a x ha truth
    rw [List.prod_nil, mul_one]
    exact ⟨ha, truth⟩
  | @cons e v es vs head tail ih =>
    intro a x ha truth
    rw [List.foldl_cons, List.prod_cons, ← mul_assoc]
    exact ih _ _ (Smart.represents_and ha head.1 truth head.2) (truth.mul head.2)

theorem Smart.plain_all {es : List (Expr (Exact K))} (loose : Q .logic) (plain : ∀ e ∈ es, e.Plain ρ env Q) :
    (Smart.all es).Plain ρ env Q := by
  unfold Smart.all
  suffices general : ∀ a : Expr (Exact K), a.Plain ρ env Q → (es.foldl Smart.and a).Plain ρ env Q from
    general _ Represents.one.plain
  induction es with
  | nil => exact fun a ha => ha
  | cons e es ih =>
    exact fun a ha => ih (fun e mem => plain e (List.mem_cons_of_mem _ mem)) _
      (Smart.plain_and loose ha (plain e List.mem_cons_self))

theorem plain_containsExpr {d : Domain} {args : List (Expr (Exact K))} (loose : Q .logic)
    (plain : ∀ a ∈ args, a.Plain ρ env Q) : (d.containsExpr args).Plain ρ env Q := by
  refine Smart.plain_all loose fun e mem => ?_
  rw [← List.map_uncurry_zip_eq_zipWith] at mem
  obtain ⟨⟨i, a⟩, listed, rfl⟩ := List.mem_map.mp mem
  have ha := Represents.of_plain (plain a (List.of_mem_zip listed).2)
  exact Smart.plain_and loose (Smart.represents_compare .ge ha (Represents.ofInt i.min)).plain
    (Smart.represents_compare .le ha (Represents.ofInt i.max)).plain

theorem Smart.represents_decided {op : Comparison} {a b : Expr (Exact K)} {x y : K} (ha : a.Represents ρ env Q x)
    (hb : b.Represents ρ env Q y) {c : Prop} [Decidable c] (same : op.holds x y = true ↔ c) :
    (Smart.compare op a b).Represents ρ env Q (if c then 1 else 0) := by
  have compared := Smart.represents_compare op ha hb
  rwa [if_congr same rfl rfl] at compared

variable [IsStrictOrderedRing K]

theorem represents_containsExpr {d : Domain} {args : List (Expr (Exact K))} {p : List Int}
    (values : List.Forall₂ (fun a (v : Int) => a.Represents ρ env Q (v : K)) args p) (dims : d.dims = args.length) :
    (d.containsExpr args).Represents ρ env Q (if p ∈ d.points then 1 else 0) := by
  obtain ⟨is⟩ := d
  change is.length = args.length at dims
  have all : ∃ vs : List K, List.Forall₂ (fun (e : Expr (Exact K)) v => e.Represents ρ env Q v ∧ IsTruth v)
      (is.zipWith (fun i a => Smart.and (Smart.compare .ge a (.ofInt i.min)) (Smart.compare .le a (.ofInt i.max))) args) vs ∧
      vs.prod = if Within is p then 1 else 0 := by
    induction values generalizing is with
    | nil =>
      obtain rfl := List.length_eq_zero_iff.mp dims
      exact ⟨[], List.Forall₂.nil, by simp⟩
    | @cons a v args p head tail ih =>
      cases is with
      | nil => cases dims
      | cons i is =>
        obtain ⟨vs, rest, product⟩ := ih is (Nat.succ.inj dims)
        have low : (Smart.compare .ge a (.ofInt i.min)).Represents ρ env Q (if i.min ≤ v then 1 else 0) :=
          Smart.represents_decided head (Represents.ofInt i.min) (decide_eq_true_iff.trans Int.cast_le)
        have high : (Smart.compare .le a (.ofInt i.max)).Represents ρ env Q (if v ≤ i.max then 1 else 0) :=
          Smart.represents_decided head (Represents.ofInt i.max) (decide_eq_true_iff.trans Int.cast_le)
        refine ⟨_ :: vs, List.Forall₂.cons ⟨Smart.represents_and low high (isTruth_ite _) (isTruth_ite _),
          (isTruth_ite _).mul (isTruth_ite _)⟩ rest, ?_⟩
        rw [List.prod_cons, product]
        by_cases above : i.min ≤ v <;> by_cases below : v ≤ i.max <;> simp [above, below]
  obtain ⟨vs, conditions, product⟩ := all
  have result := (Smart.represents_all conditions).1
  rw [product] at result
  rw [if_congr Domain.mem_points rfl rfl]
  exact result

end Conditions

section Sums

variable {ρ : Valuation K} {env : Env K} {Q : Atom → Prop}

/-- What a term adds everywhere; other terms count as 0. -/
def Term.constantPart (ρ : Valuation K) (env : Env K) (t : Term (Exact K)) : K := t.gather?.elim 0 (Expr.value ρ env)

theorem represents_sum {l : List (Term (Exact K))} (plain : ∀ t ∈ l, ∀ v, t.gather? = some v → v.Plain ρ env Q)
    {a : Expr (Exact K)} {x : K} (ha : a.Represents ρ env Q x) :
    (l.foldl (fun sum t => t.gather?.elim sum (Smart.add sum)) a).Represents ρ env Q
      (x + (l.map (Term.constantPart ρ env)).sum) := by
  induction l generalizing a x with
  | nil => simpa using ha
  | cons t l ih =>
    rw [List.foldl_cons, List.map_cons, List.sum_cons, ← add_assoc]
    refine ih (fun t mem => plain t (List.mem_cons_of_mem _ mem)) ?_
    unfold Term.constantPart
    cases found : t.gather? with
    | none => simpa using ha
    | some v => exact Smart.represents_add ha (Represents.of_plain (plain t List.mem_cons_self v found))

omit [Field K] [LinearOrder K] [FloorRing K] [Transcendental K] in
theorem gather?_eq_some {t : Term (Exact K)} {v : Expr (Exact K)} : t.gather? = some v ↔ t = .gather v := by
  cases t <;> simp [Term.gather?]

variable {args : List Name} {T : Target → Prop} {ts : List (Term (Exact K))}

theorem foldl_run_gathers {l : List (Term (Exact K))} (gathers : ∀ t ∈ l, t.gather?.isSome = true)
    (F : List Int → K) (q : List Int) : l.foldl (Term.run ρ args) F q =
      F q + (l.map (Term.constantPart ρ ⟨coordinates (Exact K) args q, []⟩)).sum := by
  induction l generalizing F with
  | nil => simp
  | cons t l ih =>
    rw [List.foldl_cons, ih (fun t mem => gathers t (List.mem_cons_of_mem _ mem)), List.map_cons, List.sum_cons,
      ← add_assoc]
    obtain ⟨v, found⟩ := Option.isSome_iff_exists.mp (gathers t List.mem_cons_self)
    obtain rfl := gather?_eq_some.mp found
    rfl

theorem Term.Neat.plain {t : Term (Exact K)} (neat : t.Neat args T) {v : Expr (Exact K)} (found : t.gather? = some v)
    (ρ : Valuation K) (env : Env K) : v.Plain ρ env (Atom.Among args [] T True) := by
  rw [gather?_eq_some.mp found] at neat
  exact (Expr.Neat.represents neat ρ env).plain

theorem neat_leadingSum (neat : ∀ t ∈ ts, t.Neat args T) : (leadingSum ts).Neat args [] T := fun ρ env =>
  (represents_sum (fun t mem _ found => (neat t (List.takeWhile_subset _ mem)).plain found ρ env) Represents.zero).plain

theorem represents_leadingSum {q : List Int}
    (plain : ∀ t ∈ ts, ∀ v, t.gather? = some v → v.Plain ρ ⟨coordinates (Exact K) args q, []⟩ Q) :
    (leadingSum ts).Represents ρ ⟨coordinates (Exact K) args q, []⟩ Q
      ((ts.takeWhile (·.gather?.isSome)).foldl (Term.run ρ args) (fun _ => 0) q) := by
  rw [foldl_run_gathers fun t mem => List.all_eq_true.mp List.all_takeWhile t mem]
  exact represents_sum (fun t mem => plain t (List.takeWhile_subset _ mem)) Represents.zero

theorem foldl_run_split (plain : ∀ env : Env K, ∀ t ∈ ts, ∀ v, t.gather? = some v → v.Plain ρ env Q) :
    ts.foldl (Term.run ρ args) (fun _ => 0) = (laterTerms ts).foldl (Term.run ρ args)
      fun p => (leadingSum ts).value ρ ⟨coordinates (Exact K) args p, []⟩ := by
  have split : ts.takeWhile (·.gather?.isSome) ++ laterTerms ts = ts := List.takeWhile_append_dropWhile
  have start : (ts.takeWhile (·.gather?.isSome)).foldl (Term.run ρ args) (fun _ => 0) =
      fun p => (leadingSum ts).value ρ ⟨coordinates (Exact K) args p, []⟩ :=
    funext fun p => (represents_leadingSum (plain _)).value.symm
  conv_lhs => rw [← split, List.foldl_append, start]

end Sums

theorem Expr.Neat.add {vars rvars : List Name} {T : Target → Prop} {a b : Expr (Exact K)} (ha : a.Neat vars rvars T)
    (hb : b.Neat vars rvars T) : (Smart.add a b).Neat vars rvars T :=
  fun ρ env => (Smart.represents_add (ha.represents ρ env) (hb.represents ρ env)).plain

theorem Expr.Neat.call {vars rvars : List Name} {T : Target → Prop} {f : FuncId} {args : List (Expr (Exact K))}
    (known : T (.func f)) (neat : ∀ a ∈ args, a.Neat vars rvars T) : (Expr.call f args).Neat vars rvars T :=
  fun ρ env => (plain_call ρ env _ f args).mpr ⟨known, fun a mem => neat a mem ρ env⟩

theorem Expr.neat_var {vars rvars : List Name} {T : Target → Prop} {x : Name} (mem : x ∈ vars) :
    (Expr.var x : Expr (Exact K)).Neat vars rvars T := fun ρ env => (plain_var ρ env _ x).mpr mem

theorem Expr.neat_zero {vars rvars : List Name} {T : Target → Prop} : (Expr.zero : Expr (Exact K)).Neat vars rvars T :=
  fun _ _ => Represents.zero.plain

theorem neat_argExprs {args rvars : List Name} {T : Target → Prop} :
    ∀ e ∈ args.map (Expr.var : Name → Expr (Exact K)), e.Neat args rvars T := by
  intro e mem
  obtain ⟨x, listed, rfl⟩ := List.mem_map.mp mem
  exact neat_var listed

theorem Expr.Neat.onArgs {vars : List Name} {T : Target → Prop} {e : Expr (Exact K)} (neat : e.Neat vars [] T) :
    e.OnArgs vars := by
  have plain := neat ⟨fun _ _ => 0, fun _ _ => 0, fun _ => 0⟩ ⟨[], []⟩
  exact ⟨fun mem => plain.var_mem mem, fun mem => absurd (plain.rvar_mem mem) List.not_mem_nil⟩

theorem Func.known_of_reads {f : Func (Exact K)} {T : Target → Prop} {value : Expr (Exact K)}
    {rdom : Option ReductionDomain} (pointwise : f.updates = []) (init : f.init = some ⟨f.argExprs, value, rdom⟩)
    (neat : value.Neat f.args [] T) {stage : Stage} {t : Target} (reads : f.Reads stage t) : T t := by
  obtain ⟨d, mem, r, read, rfl⟩ := reads
  rcases Func.of_mem_definitions mem with ⟨-, same⟩ | ⟨-, update⟩
  · obtain rfl := Option.some.inj (init.symm.trans same)
    obtain ⟨e, listed, inner⟩ := List.mem_flatMap.mp read
    rcases List.mem_append.mp listed with listed | listed
    · have variable' : e.Neat f.args [] T := neat_argExprs e listed
      exact variable'.target_of_read inner
    · obtain rfl := List.mem_singleton.mp listed
      exact neat.target_of_read inner
  · rw [pointwise] at update
    cases update

section Materialization

variable {args : List Name} {T : Target → Prop} {acc : FuncId} {t : Term (Exact K)}

theorem Term.neat_toUpdate (neat : t.Neat args T) :
    ∃ rnames, ∀ e ∈ (t.toUpdate acc (args.map .var)).exprs, e.Neat args rnames fun u => T u ∨ u = .func acc := by
  have widen {rnames : List Name} {vars : List Name} {e : Expr (Exact K)} (h : e.Neat vars rnames T)
      (sub : ∀ x ∈ vars, x ∈ args) : e.Neat args rnames fun u => T u ∨ u = .func acc :=
    h.mono sub (fun _ mem => mem) fun _ => Or.inl
  cases t with
  | gather v =>
    refine ⟨[], fun e mem => ?_⟩
    rcases List.mem_append.mp mem with mem | mem
    · exact neat_argExprs e mem
    · obtain rfl := List.mem_singleton.mp mem
      exact (Expr.Neat.call (Or.inr rfl) neat_argExprs).add (widen neat fun _ mem => mem)
  | scatter lhs v rdom =>
    obtain ⟨-, neatLhs, neatValue⟩ := neat
    have positions : ∀ e ∈ lhs, e.Neat args rdom.names fun u => T u ∨ u = .func acc :=
      fun e mem => widen (neatLhs e mem) (fun _ mem => absurd mem List.not_mem_nil)
    refine ⟨rdom.names, fun e mem => ?_⟩
    rcases List.mem_append.mp mem with mem | mem
    · exact positions e mem
    · obtain rfl := List.mem_singleton.mp mem
      exact (Expr.Neat.call (Or.inr rfl) positions).add (widen neatValue fun _ mem => absurd mem List.not_mem_nil)
  | mask lhs rdom =>
    refine ⟨namesOf rdom, fun e mem => ?_⟩
    rcases List.mem_append.mp mem with mem | mem
    · obtain ⟨i, less, rfl⟩ := List.mem_iff_getElem.mp mem
      have less : i < lhs.length := less
      have placed : Placed args (namesOf rdom) T lhs := neat
      rcases (List.forall₂_iff_get.mp placed).2 i (placed.length_eq ▸ less) less with same | closed
      · change (lhs[i]).Neat _ _ _
        rw [show lhs[i] = _ from same]
        exact neat_var (List.get_mem _ _)
      · exact widen closed fun _ mem => absurd mem List.not_mem_nil
    · obtain rfl := List.mem_singleton.mp mem
      exact neat_zero

theorem Term.distinctFree_toUpdate (stands : t.Stands args) (distinct : args.Nodup) :
    (t.toUpdate acc (args.map .var)).DistinctFree := by
  unfold Definition.DistinctFree
  cases t with
  | gather v =>
    change ((args.map Expr.var).filterMap Expr.varName?).Nodup
    rw [List.filterMap_map]
    change (args.filterMap some).Nodup
    rwa [List.filterMap_some]
  | scatter lhs v rdom =>
    have none : lhs.filterMap Expr.varName? = [] := List.filterMap_eq_nil_iff.mpr stands
    change (lhs.filterMap Expr.varName?).Nodup
    rw [none]
    exact List.nodup_nil
  | mask lhs rdom => exact (sublist_of_aligned stands).nodup distinct

variable [IsStrictOrderedRing K] {site : Site} {body : Expr (Exact K)} {ρ : Valuation K} {id : FuncId}

theorem Site.represents_bounded {p : List Int} {Q : Atom → Prop} {v : K} (distinct : site.args.Nodup)
    (args : ∀ x ∈ site.args, Q (.var x)) (dims : site.region.dims = site.args.length)
    (length : p.length = site.args.length)
    (plain : body.Represents ρ ⟨coordinates (Exact K) site.args p, []⟩ Q v) :
    (if body.isZero then body else Smart.select (site.region.containsExpr site.argExprs) body .zero).Represents ρ
      ⟨coordinates (Exact K) site.args p, []⟩ Q (if p ∈ site.region.points then v else 0) := by
  split
  · rename_i zero
    have vanishes := plain.of_isZero zero
    rw [vanishes] at plain ⊢
    rwa [ite_self]
  · have values : List.Forall₂ (fun (a : Expr (Exact K)) (v : Int) =>
        a.Represents ρ ⟨coordinates (Exact K) site.args p, []⟩ Q (v : K)) site.argExprs p := by
      unfold argExprs
      rw [List.forall₂_map_left_iff]
      refine List.forall₂_iff_get.mpr ⟨length.symm, fun i less lessP => ?_⟩
      refine ⟨(plain_var _ _ _ _).mpr (args _ (List.get_mem _ _)), ?_⟩
      rw [value_var, Env.var]
      have found : (coordinates (Exact K) site.args p : List (Name × K)).lookup site.args[i] = some ((p[i] : Int) : K) :=
        lookup_coordinates distinct (List.getElem?_eq_getElem less) (List.getElem?_eq_getElem lessP)
      rw [List.get_eq_getElem, found]
      rfl
    have selected := Smart.represents_select (represents_containsExpr values (dims.trans (List.length_map _).symm)) plain
      Represents.zero
    by_cases inside : p ∈ site.region.points
    · simpa [inside] using selected
    · simpa [inside] using selected

omit [IsStrictOrderedRing K] in
theorem Site.neat_bounded {T : Target → Prop} (neat : body.Neat site.args [] T) :
    (if body.isZero then body else Smart.select (site.region.containsExpr site.argExprs) body .zero).Neat
      site.args [] T := by
  split
  · exact neat
  · intro ρ env
    have inside : (site.region.containsExpr site.argExprs).Plain ρ env (Atom.Among site.args [] T True) :=
      plain_containsExpr trivial fun a mem => neat_argExprs a mem ρ env
    exact (Smart.represents_select (Represents.of_plain inside) (neat.represents ρ env) Represents.zero).plain

theorem Site.value_bounded {T : Target → Prop} {name : Name} (neat : body.Neat site.args [] T)
    (settles : ρ.Settles id { site.bounded body with name }) (distinct : site.args.Nodup)
    (dims : site.region.dims = site.args.length) {q : List Int} (length : q.length = site.args.length) :
    ρ.call id q = if q ∈ site.region.points then body.value ρ ⟨coordinates (Exact K) site.args q, []⟩ else 0 := by
  have whole := site.neat_bounded neat
  have equation := settles.call_eq rfl rfl distinct whole.onArgs length
  rw [equation]
  exact (site.represents_bounded distinct (fun x mem => mem) dims length (neat.represents ρ _)).value

end Materialization

/-- What materializing a list of terms gives. -/
structure Site.Materialized (site : Site) (x : Extension (Exact K)) (g : Graph (Exact K)) (S : FuncId → Prop)
    (ts : List (Term (Exact K))) (slot : Slot) (x' : Extension (Exact K)) : Prop where
  grows : x.graph.GrowsTo x'.graph
  ready : x'.Ready g S
  added : x'.Added g slot.bounded
  snapshots : x'.snapshots = x.snapshots
  value {ρ : Valuation K} {q : List Int} : x'.Settled g ρ → q.length = site.args.length →
    ρ.call slot.bounded q = if q ∈ site.region.points then ts.foldl (Term.run ρ site.args) (fun _ => 0) q else 0

/-- A func that has been added, with the values that it has over the arguments of the site. -/
structure Site.Holding (site : Site) (x : Extension (Exact K)) (g : Graph (Exact K)) (S : FuncId → Prop) (id : FuncId)
    (x' : Extension (Exact K)) (F : Valuation K → List Int → K) : Prop where
  grows : x.graph.GrowsTo x'.graph
  ready : x'.Ready g S
  added : x'.Added g id
  snapshots : x'.snapshots = x.snapshots
  value {ρ : Valuation K} {q : List Int} : x'.Settled g ρ → q.length = site.args.length → ρ.call id q = F ρ q

section Materialization

variable [IsStrictOrderedRing K] {site : Site} {x : Extension (Exact K)} {g : Graph (Exact K)} {S : FuncId → Prop}
  {ts : List (Term (Exact K))} {body init : Expr (Exact K)}

theorem Site.holding_bounded (ready : x.Ready g S) (below : ∀ f, S f → f.index < g.size)
    (neat : body.Neat site.args [] (x.Known g S)) (distinct : site.args.Nodup)
    (dims : site.region.dims = site.args.length) :
    site.Holding x g S (x.push (site.bounded body)).1 (x.push (site.bounded body)).2 fun ρ q =>
      if q ∈ site.region.points then body.value ρ ⟨coordinates (Exact K) site.args q, []⟩ else 0 := by
  obtain ⟨id, size, grows, ⟨name, func⟩, snapshots⟩ := x.push_spec (site.bounded body)
  have reads : ∀ stage h, (site.bounded body).Reads stage (.func h) →
      x.Known g S (.func h) ∨ h = x.nextId ∧ stage ≠ .initial :=
    fun stage h reads => Or.inl (Func.known_of_reads rfl rfl (site.neat_bounded neat) reads)
  have added : (x.push (site.bounded body)).2.Added g x.nextId := ⟨ready.grows.size, size ▸ Nat.lt_succ_self _⟩
  rw [id]
  refine ⟨grows, ready.push below rfl reads fun d mem => absurd mem List.not_mem_nil, added, snapshots,
    fun {ρ q} settled length => ?_⟩
  have settles := settled x.nextId added
  rw [func] at settles
  exact site.value_bounded neat settles distinct dims length

omit [IsStrictOrderedRing K] in
theorem Site.reads_accumulator {T : Target → Prop} {id : FuncId} (neatInit : init.Neat site.args [] T)
    (neat : ∀ t ∈ ts, t.Neat site.args T) {stage : Stage} {u : Target}
    (reads : (site.accumulator id init ts).Reads stage u) : T u ∨ u = .func id ∧ stage ≠ .initial := by
  obtain ⟨d, mem, r, read, rfl⟩ := reads
  obtain ⟨e, listed, inner⟩ := List.mem_flatMap.mp read
  rcases Func.of_mem_definitions mem with ⟨-, same⟩ | ⟨updating, update⟩
  · obtain rfl := Option.some.inj same
    left
    rcases List.mem_append.mp listed with listed | listed
    · have variable' : e.Neat site.args [] T := neat_argExprs e listed
      exact variable'.target_of_read inner
    · obtain rfl := List.mem_singleton.mp listed
      exact neatInit.target_of_read inner
  · obtain ⟨t, term, rfl⟩ := List.mem_map.mp update
    obtain ⟨rnames, exprs⟩ : ∃ rnames, ∀ e ∈ (t.toUpdate id site.argExprs).exprs,
        e.Neat site.args rnames fun u => T u ∨ u = .func id := Term.neat_toUpdate (neat t term)
    exact ((exprs e listed).target_of_read inner).imp_right fun self => ⟨self, updating⟩

theorem Site.holding_accumulator (ready : x.Ready g S) (below : ∀ f, S f → f.index < g.size)
    (neatInit : init.Neat site.args [] (x.Known g S)) (neat : ∀ t ∈ ts, t.Neat site.args (x.Known g S))
    (distinct : site.args.Nodup) :
    site.Holding x g S (x.push (site.accumulator x.nextId init ts)).1 (x.push (site.accumulator x.nextId init ts)).2
      fun ρ q => ts.foldl (Term.run ρ site.args)
        (fun p => init.value ρ ⟨coordinates (Exact K) site.args p, []⟩) q := by
  obtain ⟨id, size, grows, ⟨name, func⟩, snapshots⟩ := x.push_spec (site.accumulator x.nextId init ts)
  have off : ¬x.Known g S (.func x.nextId) := fun known => Nat.lt_irrefl _ (Extension.Known.old below ready known)
  have ready' : (x.push (site.accumulator x.nextId init ts)).2.Ready g S := by
    refine ready.push below rfl (fun stage h reads => ?_) fun d mem => ?_
    · exact (site.reads_accumulator neatInit neat reads).imp_right (And.imp_left Target.func.inj)
    · obtain ⟨t, term, rfl⟩ := List.mem_map.mp mem
      exact Term.distinctFree_toUpdate (neat t term).stands distinct
  have added : (x.push (site.accumulator x.nextId init ts)).2.Added g x.nextId :=
    ⟨ready.grows.size, size ▸ Nat.lt_succ_self _⟩
  rw [id]
  refine ⟨grows, ready', added, snapshots, fun {ρ q} settled length => ?_⟩
  have settles := settled x.nextId added
  rw [func] at settles
  exact site.value_accumulator settles neatInit neat distinct off length

theorem Site.materialize_spec (ready : x.Ready g S) (below : ∀ f, S f → f.index < g.size)
    (neat : ∀ t ∈ ts, t.Neat site.args (x.Known g S)) (distinct : site.args.Nodup)
    (dims : site.region.dims = site.args.length) :
    site.Materialized x g S ts (site.materialize x ts).1 (site.materialize x ts).2 := by
  have lead := neat_leadingSum neat
  unfold materialize
  cases later : laterTerms ts with
  | nil =>
    have bounded := site.holding_bounded ready below lead distinct dims
    refine ⟨bounded.grows, bounded.ready, bounded.added, bounded.snapshots, fun {ρ q} settled length => ?_⟩
    rw [foldl_run_split fun env t mem v found => (neat t mem).plain found ρ env, later]
    exact bounded.value settled length
  | cons t rest =>
    have neatLater : ∀ u ∈ t :: rest, u.Neat site.args (x.Known g S) := by
      intro u mem
      rw [← later] at mem
      exact neat u (List.dropWhile_subset _ mem)
    have acc := site.holding_accumulator ready below lead neatLater distinct
    simp only
    generalize x.push (site.accumulator x.nextId (leadingSum ts) (t :: rest)) = pushed at acc
    obtain ⟨id, x₁⟩ := pushed
    have body : (Expr.call id site.argExprs : Expr (Exact K)).Neat site.args [] (x₁.Known g S) :=
      Expr.Neat.call (Or.inr acc.added) neat_argExprs
    have bounded := site.holding_bounded acc.ready below body distinct dims
    refine ⟨acc.grows.trans bounded.grows, bounded.ready, bounded.added, bounded.snapshots.trans acc.snapshots,
      fun {ρ q} settled length => ?_⟩
    have at' : position ρ ⟨coordinates (Exact K) site.args q, []⟩ site.argExprs = q := position_args distinct length _
    rw [foldl_run_split fun env t mem v found => (neat t mem).plain found ρ env, later]
    refine (bounded.value settled length).trans ?_
    rw [value_call, at']
    exact if_congr Iff.rfl (acc.value (settled.before bounded.grows) length) rfl

end Materialization

end ArrayDiff
