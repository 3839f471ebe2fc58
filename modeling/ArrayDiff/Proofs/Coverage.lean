import ArrayDiff.Region
import ArrayDiff.Proofs.Overlap
import ArrayDiff.Proofs.Points
import ArrayDiff.Proofs.Schedule
import ArrayDiff.Proofs.Scope

/-!
# Regions cover every read

Regions are inferred from consumers to producers: what a func reads of another one is requested before the region of
that one is settled, and regions only grow. Every position that a func reads anywhere in its region therefore lies in
the region of the func that it reads (`Graph.covers_of_inferRegions`).
-/

namespace ArrayDiff

section Inference

variable {κ : Type} [Extended κ] {g : Graph κ} {f : FuncId} {region : Domain} {regions regions' regions'' : Regions}
  {d : Definition κ}

namespace Expr

theorem read_of_mem_accesses {e : Expr κ} {s : Scope κ} {access : Access κ} (mem : access ∈ e.accesses s) :
    access.read ∈ e.reads ∧ access.spans.length = access.read.args.length := by
  have inner {a e : Expr κ} (sub : ∀ x ∈ a.nodes, x ∈ e.nodes)
      (h : access.read ∈ a.reads ∧ access.spans.length = access.read.args.length) :
      access.read ∈ e.reads ∧ access.spans.length = access.read.args.length :=
    h.imp_left (mem_reads_of_subset sub)
  have self {e : Expr κ} {r : Read κ} (read : e.read? = some r) : r ∈ e.reads :=
    List.mem_filterMap.mpr ⟨e, mem_nodes_self e, read⟩
  induction e generalizing s with
  | const _ | var _ | rvar _ => cases mem
  | param p =>
    obtain rfl := List.mem_singleton.mp mem
    exact ⟨self rfl, rfl⟩
  | call f args ih | load b args ih =>
    rcases List.mem_cons.mp mem with rfl | mem
    · exact ⟨self rfl, List.length_map _⟩
    · rw [accessesList_eq_flatMap] at mem
      obtain ⟨a, listed, mem⟩ := List.mem_flatMap.mp mem
      exact inner (fun x hx => List.mem_cons_of_mem _ (mem_nodesList.mpr ⟨a, listed, hx⟩)) (ih a listed mem)
  | unary op a ih | not a ih => exact inner (by simp +contextual [nodes]) (ih mem)
  | binary op a b iha ihb | compare op a b iha ihb | and a b iha ihb | or a b iha ihb =>
    rcases List.mem_append.mp mem with mem | mem
    · exact inner (by simp +contextual [nodes]) (iha mem)
    · exact inner (by simp +contextual [nodes]) (ihb mem)
  | select c t f ihc iht ihf =>
    unfold accesses at mem
    simp only at mem
    rcases List.mem_append.mp mem with mem | mem
    · exact inner (by simp +contextual [nodes]) (ihc mem)
    rcases List.mem_append.mp mem with mem | mem
    · split at mem
      · exact inner (by simp +contextual [nodes]) (iht mem)
      · cases mem
    · split at mem
      · exact inner (by simp +contextual [nodes]) (ihf mem)
      · cases mem

end Expr

namespace Regions

/-- Every region has the dimensions of its func. -/
def Shaped (r : Regions) (g : Graph κ) : Prop := ∀ f d, r.get? f = some d → d.dims = (g.func f).dims

/-- No region loses a point. -/
def Grows (r r' : Regions) (g : Graph κ) : Prop := ∀ f p, p ∈ (r.of g f).points → p ∈ (r'.of g f).points

section

omit [Extended κ]

theorem Grows.refl (r : Regions) (g : Graph κ) : r.Grows r g := fun _ _ mem => mem

theorem Grows.trans (h : regions.Grows regions' g) (h' : regions'.Grows regions'' g) : regions.Grows regions'' g :=
  fun f p mem => h' f p (h f p mem)

theorem of_insert (r : Regions) (g : Graph κ) (f h : FuncId) (d : Domain) :
    Regions.of (r.insert f d) g h = if f = h then d else r.of g h := by
  unfold Regions.of
  rw [Table.get?_insert]
  split
  · rfl
  · rfl

theorem Shaped.dims_of (shaped : regions.Shaped g) (f : FuncId) : (regions.of g f).dims = (g.func f).dims := by
  unfold Regions.of
  cases found : regions.get? f with
  | none => exact List.length_replicate
  | some d => exact shaped f d found

theorem Shaped.insert (shaped : regions.Shaped g) (dims : region.dims = (g.func f).dims) :
    Regions.Shaped (regions.insert f region) g := by
  intro h d found
  rw [Table.get?_insert] at found
  split at found
  · rename_i same
    obtain rfl := Option.some.inj found
    rw [← same]
    exact dims
  · exact shaped h d found

theorem Grows.insert (wider : ∀ p ∈ (regions.of g f).points, p ∈ region.points) :
    regions.Grows (Table.insert regions f region) g := by
  intro h p mem
  rw [of_insert]
  split
  · rename_i same
    exact wider p (same ▸ mem)
  · exact mem

end

end Regions

namespace Graph

/-- Every read has as many arguments as its target has dimensions. -/
def ReadsFit (g : Graph κ) (f : FuncId) : Prop :=
  ∀ stage d, (stage, d) ∈ (g.func f).definitions → ∀ r ∈ d.reads, r.args.length = g.dimsOf r.target

theorem intervals_of_request {target : Target} {spans : List (Span κ)} {wanted : Domain}
    (run : g.request f target spans = .ok wanted) :
    List.Forall₂ (fun (s : Span κ) i => s.toInterval? = some i) spans wanted.intervals := by
  obtain ⟨intervals, mapped, run⟩ := bind_eq_ok.mp run
  obtain rfl := pure_eq_ok.mp run
  have found := mapM_eq_ok mapped
  have listed : spans = spans.zipIdx.map Prod.fst := (List.zipIdx_map_fst 0 spans).symm
  rw [listed, List.forall₂_map_left_iff]
  refine found.imp fun entry i found => ?_
  dsimp only at found
  cases interval : entry.1.toInterval? with
  | none =>
    rw [interval] at found
    cases found
  | some j =>
    rw [interval] at found
    exact congrArg some (pure_eq_ok.mp found)

/-- What one definition of `f` has passed on when `f` is computed over `region`. -/
structure Requested (g : Graph κ) (f : FuncId) (region : Domain) (d : Definition κ) (regions : Regions) : Prop where
  wanted {access : Access κ} {h : FuncId} : (Scope.ofDefinition (g.func f) d region).isReachable = true →
    access ∈ d.exprs.flatMap (Expr.accesses (Scope.ofDefinition (g.func f) d region)) →
    access.read.target = .func h → h ≠ f →
    ∃ wanted, g.request f (.func h) access.spans = .ok wanted ∧ ∀ p ∈ wanted.points, p ∈ (regions.of g h).points

theorem Requested.grow (requested : g.Requested f region d regions) (grows : regions.Grows regions' g) :
    g.Requested f region d regions' := by
  refine ⟨fun reachable mem target other => ?_⟩
  obtain ⟨wanted, request, inside⟩ := requested.wanted reachable mem target other
  exact ⟨wanted, request, fun p mem => grows _ p (inside p mem)⟩

/-- What passing on requests keeps. -/
structure Passed (g : Graph κ) (kept : FuncId → Prop) (regions regions' : Regions) : Prop where
  shaped : regions'.Shaped g
  grows : regions.Grows regions' g
  others {h : FuncId} : kept h → regions'.get? h = regions.get? h

variable {kept : FuncId → Prop}

omit [Extended κ] in
theorem Passed.refl (shaped : regions.Shaped g) : g.Passed kept regions regions :=
  ⟨shaped, Regions.Grows.refl _ _, fun _ => rfl⟩

omit [Extended κ] in
theorem Passed.trans (h : g.Passed kept regions regions') (h' : g.Passed kept regions' regions'') :
    g.Passed kept regions regions'' :=
  ⟨h'.shaped, h.grows.trans h'.grows, fun keep => (h'.others keep).trans (h.others keep)⟩

theorem passed_request {h : FuncId} {spans : List (Span κ)} {wanted : Domain} (shaped : regions.Shaped g)
    (request : g.request f (.func h) spans = .ok wanted) (fit : spans.length = (g.func h).dims) (moved : ¬kept h) :
    g.Passed kept regions (regions.insert h (((regions.get? h).map (·.union wanted)).getD wanted)) ∧
      ∀ p ∈ wanted.points,
        p ∈ (Regions.of (regions.insert h (((regions.get? h).map (·.union wanted)).getD wanted)) g h).points := by
  have dims : wanted.dims = (g.func h).dims := (intervals_of_request request).length_eq.symm.trans fit
  have settled : (((regions.get? h).map (·.union wanted)).getD wanted).dims = (g.func h).dims ∧
      ∀ p, p ∈ (regions.of g h).points ∨ p ∈ wanted.points →
        p ∈ (((regions.get? h).map (·.union wanted)).getD wanted).points := by
    unfold Regions.of
    cases found : regions.get? h with
    | none => exact ⟨dims, fun p mem => mem.elim (fun mem => Domain.mem_of_mem_empty mem dims) id⟩
    | some old =>
      have same : old.dims = wanted.dims := (shaped h old found).trans dims.symm
      exact ⟨(Domain.dims_union same).trans (shaped h old found), fun p mem => Domain.mem_union same mem⟩
  refine ⟨⟨shaped.insert settled.1, Regions.Grows.insert fun p mem => settled.2 p (Or.inl mem), ?_⟩, fun p mem => ?_⟩
  · intro k keep
    rw [Table.get?_insert, if_neg fun same : h = k => moved (same ▸ keep)]
  · rw [Regions.of_insert, if_pos rfl]
    exact settled.2 p (Or.inr mem)

theorem requested_of_requestReads (shaped : regions.Shaped g)
    (fit : ∀ r ∈ d.reads, r.args.length = g.dimsOf r.target)
    (moved : ∀ h, h ≠ f → (∃ r ∈ d.reads, r.target = .func h) → ¬kept h)
    (run : g.requestReads f region regions d = .ok regions') :
    g.Passed kept regions regions' ∧ g.Requested f region d regions' := by
  unfold requestReads at run
  simp only at run
  split at run
  · rename_i unreachable
    obtain rfl := pure_eq_ok.mp run
    refine ⟨Passed.refl shaped, ⟨fun reachable => ?_⟩⟩
    rw [reachable] at unreachable
    cases unreachable
  have passed := foldlM_invariant run
    (fun done regions' => g.Passed kept regions regions' ∧ ∀ access ∈ done, ∀ h, access.read.target = .func h → h ≠ f →
      ∃ wanted, g.request f (.func h) access.spans = .ok wanted ∧ ∀ p ∈ wanted.points, p ∈ (regions'.of g h).points)
    ⟨Passed.refl shaped, fun _ mem => absurd mem List.not_mem_nil⟩ ?_
  · exact ⟨passed.1, ⟨fun _ mem target other => passed.2 _ mem _ target other⟩⟩
  intro done access rest t t' split inv step
  obtain ⟨passed, wanted⟩ := inv
  have widen (more : g.Passed kept t t') (last : ∀ h, access.read.target = .func h → h ≠ f →
      ∃ wanted, g.request f (.func h) access.spans = .ok wanted ∧ ∀ p ∈ wanted.points, p ∈ (t'.of g h).points) :
      g.Passed kept regions t' ∧ ∀ a ∈ done ++ [access], ∀ h, a.read.target = .func h → h ≠ f →
        ∃ wanted, g.request f (.func h) a.spans = .ok wanted ∧ ∀ p ∈ wanted.points, p ∈ (t'.of g h).points := by
    refine ⟨passed.trans more, fun a mem h target other => ?_⟩
    rcases List.mem_append.mp mem with mem | mem
    · obtain ⟨w, request, inside⟩ := wanted a mem h target other
      exact ⟨w, request, fun p mem => more.grows _ p (inside p mem)⟩
    · obtain rfl := List.mem_singleton.mp mem
      exact last h target other
  have listed : access ∈ d.exprs.flatMap (Expr.accesses (Scope.ofDefinition (g.func f) d region)) := by
    rw [split]
    exact List.mem_append_right _ List.mem_cons_self
  obtain ⟨e, mem, listed⟩ := List.mem_flatMap.mp listed
  obtain ⟨read, length⟩ := Expr.read_of_mem_accesses listed
  have read : access.read ∈ d.reads := List.mem_flatMap.mpr ⟨e, mem, read⟩
  cases target : access.read.target with
  | func h =>
    rw [target] at step
    simp only at step
    split at step
    · rename_i same
      obtain rfl := pure_eq_ok.mp step
      exact widen (Passed.refl passed.shaped) fun k target' other => absurd (by simp_all) other
    · rename_i other
      obtain ⟨w, request, step⟩ := bind_eq_ok.mp step
      obtain rfl := pure_eq_ok.mp step
      have dims : access.spans.length = (g.func h).dims := by
        rw [length, fit _ read, target]
        rfl
      obtain ⟨more, inside⟩ := passed_request passed.shaped request dims (moved h other ⟨_, read, target⟩)
      refine widen more fun k target' _ => ?_
      obtain rfl : h = k := by simp_all
      exact ⟨w, request, inside⟩
  | buffer b =>
    rw [target] at step
    obtain rfl := pure_eq_ok.mp step
    exact widen (Passed.refl passed.shaped) fun k target' => by simp_all
  | param p =>
    rw [target] at step
    obtain rfl := pure_eq_ok.mp step
    exact widen (Passed.refl passed.shaped) fun k target' => by simp_all

/-- Every update writes positions of its func. -/
def WritesFit (g : Graph κ) (f : FuncId) : Prop := ∀ d ∈ (g.func f).updates, d.lhs.length = (g.func f).dims

/-- What an update of `f` writes and reads of `f` itself over `region` is inside `grown`. -/
structure Widened (g : Graph κ) (f : FuncId) (region : Domain) (d : Definition κ) (grown : Domain) : Prop where
  written : (Scope.ofDefinition (g.func f) d region).isReachable = true →
    ∃ wanted, g.request f (.func f) (d.lhs.map (·.span (Scope.ofDefinition (g.func f) d region))) = .ok wanted ∧
      ∀ p ∈ wanted.points, p ∈ grown.points
  reread {access : Access κ} : (Scope.ofDefinition (g.func f) d region).isReachable = true →
    access ∈ d.value.accesses (Scope.ofDefinition (g.func f) d region) → access.read.target = .func f →
    ∃ wanted, g.request f (.func f) access.spans = .ok wanted ∧ ∀ p ∈ wanted.points, p ∈ grown.points

theorem Widened.grow {grown grown' : Domain} (widened : g.Widened f region d grown)
    (wider : ∀ p ∈ grown.points, p ∈ grown'.points) : g.Widened f region d grown' := by
  refine ⟨fun reachable => ?_, fun reachable listed target => ?_⟩
  · obtain ⟨wanted, request, inside⟩ := widened.written reachable
    exact ⟨wanted, request, fun p mem => wider p (inside p mem)⟩
  · obtain ⟨wanted, request, inside⟩ := widened.reread reachable listed target
    exact ⟨wanted, request, fun p mem => wider p (inside p mem)⟩

theorem widened_of_growByUpdate {extra extra' : Domain} (reads : ∀ r ∈ d.reads, r.args.length = g.dimsOf r.target)
    (writes : d.lhs.length = (g.func f).dims) (dims : extra.dims = (g.func f).dims)
    (run : g.growByUpdate f region extra d = .ok extra') :
    extra'.dims = (g.func f).dims ∧ (∀ p ∈ extra.points, p ∈ extra'.points) ∧ g.Widened f region d extra' := by
  unfold growByUpdate at run
  simp only at run
  split at run
  · rename_i unreachable
    obtain rfl := pure_eq_ok.mp run
    have never : ¬(Scope.ofDefinition (g.func f) d region).isReachable = true := by
      intro reachable
      rw [reachable] at unreachable
      cases unreachable
    exact ⟨dims, fun _ mem => mem, fun reachable => absurd reachable never, fun reachable => absurd reachable never⟩
  obtain ⟨written, request, run⟩ := bind_eq_ok.mp run
  have writtenDims : written.dims = (g.func f).dims := by
    rw [← writes]
    exact (intervals_of_request request).length_eq.symm.trans (List.length_map _)
  have same : extra.dims = written.dims := dims.trans writtenDims.symm
  have kept := foldlM_invariant run (fun (done : List (Access κ)) (grown : Domain) => grown.dims = (g.func f).dims ∧
      (∀ p ∈ (extra.union written).points, p ∈ grown.points) ∧ ∀ access ∈ done, access.read.target = .func f →
        ∃ wanted, g.request f (.func f) access.spans = .ok wanted ∧ ∀ p ∈ wanted.points, p ∈ grown.points)
    ⟨(Domain.dims_union same).trans dims, fun _ mem => mem, fun _ mem => absurd mem List.not_mem_nil⟩ ?_
  · obtain ⟨grownDims, wider, reread⟩ := kept
    exact ⟨grownDims, fun p mem => wider p (Domain.mem_union same (Or.inl mem)),
      fun _ => ⟨written, request, fun p mem => wider p (Domain.mem_union same (Or.inr mem))⟩,
      fun _ listed target => reread _ listed target⟩
  intro done access rest t t' parts inv step
  obtain ⟨dims, wider, reread⟩ := inv
  split at step
  · rename_i self
    obtain ⟨w, request, step⟩ := bind_eq_ok.mp step
    obtain rfl := pure_eq_ok.mp step
    have listed : access ∈ d.value.accesses (Scope.ofDefinition (g.func f) d region) := by
      rw [parts]
      exact List.mem_append_right _ List.mem_cons_self
    obtain ⟨read, length⟩ := Expr.read_of_mem_accesses listed
    have read : access.read ∈ d.reads :=
      List.mem_flatMap.mpr ⟨d.value, List.mem_append_right _ (List.mem_singleton_self _), read⟩
    have wDims : w.dims = (g.func f).dims := by
      rw [← show access.spans.length = w.dims from (intervals_of_request request).length_eq, length, reads _ read, self]
      rfl
    have same : t.dims = w.dims := dims.trans wDims.symm
    refine ⟨(Domain.dims_union same).trans dims, fun p mem => Domain.mem_union same (Or.inl (wider p mem)),
      fun a mem target => ?_⟩
    rcases List.mem_append.mp mem with mem | mem
    · obtain ⟨wanted, request, inside⟩ := reread a mem target
      exact ⟨wanted, request, fun p mem => Domain.mem_union same (Or.inl (inside p mem))⟩
    · obtain rfl := List.mem_singleton.mp mem
      exact ⟨w, request, fun p mem => Domain.mem_union same (Or.inr mem)⟩
  · rename_i other
    obtain rfl := pure_eq_ok.mp step
    refine ⟨dims, wider, fun a mem target => ?_⟩
    rcases List.mem_append.mp mem with mem | mem
    · exact reread a mem target
    · obtain rfl := List.mem_singleton.mp mem
      exact absurd target other

/-- The region of a func with updates contains what was wanted of it, and what the updates write and read over that. -/
theorem widened_of_grownRegion {region' : Domain} (reads : g.ReadsFit f) (writes : g.WritesFit f)
    (dims : region.dims = (g.func f).dims) (run : g.grownRegion f region = .ok region') :
    region'.dims = (g.func f).dims ∧ (∀ p ∈ region.points, p ∈ region'.points) ∧
      (region.isEmpty = false → ∀ d ∈ (g.func f).updates, g.Widened f region d region') := by
  unfold grownRegion at run
  split at run
  · rename_i empty
    obtain rfl := pure_eq_ok.mp run
    refine ⟨dims, fun _ mem => mem, fun nonempty => ?_⟩
    rw [nonempty] at empty
    cases empty
  obtain ⟨extra, grown, run⟩ := bind_eq_ok.mp run
  obtain rfl := pure_eq_ok.mp run
  have kept := foldlM_invariant grown (fun (done : List (Definition κ)) (extra : Domain) => extra.dims = (g.func f).dims ∧
      ∀ d ∈ done, g.Widened f region d extra)
    ⟨List.length_replicate, fun _ mem => absurd mem List.not_mem_nil⟩ ?_
  · obtain ⟨extraDims, widened⟩ := kept
    have same : region.dims = extra.dims := dims.trans extraDims.symm
    exact ⟨(Domain.dims_union same).trans dims, fun p mem => Domain.mem_union same (Or.inl mem),
      fun _ d mem => (widened d mem).grow fun p mem => Domain.mem_union same (Or.inr mem)⟩
  intro done d rest t t' parts inv step
  obtain ⟨dims, widened⟩ := inv
  have update : d ∈ (g.func f).updates := by
    rw [parts]
    exact List.mem_append_right _ List.mem_cons_self
  obtain ⟨i, listed⟩ := Func.mem_definitions_update update
  obtain ⟨dims', wider, last⟩ := widened_of_growByUpdate (reads _ d listed) (writes d update) dims step
  refine ⟨dims', fun d' mem => ?_⟩
  rcases List.mem_append.mp mem with mem | mem
  · exact (widened d' mem).grow wider
  · obtain rfl := List.mem_singleton.mp mem
    exact last

theorem requested_of_inferRegion (shaped : regions.Shaped g) (reads : g.ReadsFit f) (writes : g.WritesFit f)
    (moved : ∀ stage h, (g.func f).Reads stage (.func h) → h ≠ f → ¬kept h)
    (run : g.inferRegion regions f = .ok regions') :
    regions'.Shaped g ∧ regions.Grows regions' g ∧ (∀ h, kept h → h ≠ f → regions'.get? h = regions.get? h) ∧
      ∀ stage d, (stage, d) ∈ (g.func f).definitions → g.Requested f (regions'.of g f) d regions' := by
  obtain ⟨region, grown, run⟩ := bind_eq_ok.mp run
  obtain ⟨dims, wider, -⟩ := widened_of_grownRegion reads writes (shaped.dims_of f) grown
  have start : Regions.Shaped (regions.insert f region) g := shaped.insert dims
  have passed := foldlM_invariant run
    (fun done regions' => g.Passed (fun h => kept h ∨ h = f) (regions.insert f region) regions' ∧
      ∀ entry ∈ done, g.Requested f region entry.2 regions')
    ⟨Passed.refl start, fun _ mem => absurd mem List.not_mem_nil⟩ ?_
  · obtain ⟨passed, requested⟩ := passed
    have own : regions'.of g f = region := by
      unfold Regions.of
      rw [passed.others (Or.inr rfl), Table.get?_insert, if_pos rfl]
      rfl
    refine ⟨passed.shaped, (Regions.Grows.insert wider).trans passed.grows, fun h keep other => ?_,
      fun stage d mem => ?_⟩
    · rw [passed.others (Or.inl keep), Table.get?_insert, if_neg other.symm]
    · rw [own]
      exact requested _ mem
  intro done entry rest t t' parts inv step
  obtain ⟨passed, requested⟩ := inv
  have listed : entry ∈ (g.func f).definitions := by
    rw [parts]
    exact List.mem_append_right _ List.mem_cons_self
  have apart : ∀ h, h ≠ f → (∃ r ∈ entry.2.reads, r.target = .func h) → ¬(kept h ∨ h = f) := by
    rintro h other ⟨r, mem, target⟩ (keep | same)
    · exact moved _ h ⟨entry.2, listed, r, mem, target⟩ other keep
    · exact other same
  obtain ⟨more, last⟩ := requested_of_requestReads passed.shaped (reads _ _ listed) apart step
  refine ⟨passed.trans more, fun a mem => ?_⟩
  rcases List.mem_append.mp mem with mem | mem
  · exact (requested a mem).grow more.grows
  · obtain rfl := List.mem_singleton.mp mem
    exact last

/-- The inferred regions contain what was asked for, and every scheduled func has passed its requests on. -/
theorem requested_of_inferRegions {s : Schedule} {root : FuncId} {domain : Domain} (ordered : s.Ordered g)
    (dims : domain.dims = (g.func root).dims) (reads : ∀ f ∈ s.funcs, g.ReadsFit f)
    (writes : ∀ f ∈ s.funcs, g.WritesFit f) (run : g.inferRegions s root domain = .ok regions) :
    regions.Shaped g ∧ (∀ p ∈ domain.points, p ∈ (regions.of g root).points) ∧
      ∀ f ∈ s.funcs, ∀ stage d, (stage, d) ∈ (g.func f).definitions → g.Requested f (regions.of g f) d regions := by
  let start : Regions := Table.empty.insert root domain
  have shaped : start.Shaped g := by
    refine Regions.Shaped.insert (fun f d found => ?_) dims
    rw [Table.get?_empty] at found
    cases found
  have passed := foldlM_invariant run (fun done regions => regions.Shaped g ∧ start.Grows regions g ∧
      ∀ f ∈ done, ∀ stage d, (stage, d) ∈ (g.func f).definitions → g.Requested f (regions.of g f) d regions)
    ⟨shaped, Regions.Grows.refl _ _, fun _ mem => absurd mem List.not_mem_nil⟩ ?_
  · obtain ⟨shaped, grows, requested⟩ := passed
    refine ⟨shaped, fun p mem => grows root p ?_, fun f mem => requested f (List.mem_reverse.mpr mem)⟩
    rw [Regions.of_insert, if_pos rfl]
    exact mem
  intro done f rest t t' parts inv step
  obtain ⟨shaped, grows, requested⟩ := inv
  have order : s.funcs = rest.reverse ++ f :: done.reverse := by
    rw [← List.reverse_reverse s.funcs, parts]
    simp
  have distinct := ordered.nodup
  rw [order] at distinct
  have listed : f ∈ s.funcs := by
    rw [order]
    exact List.mem_append_right _ List.mem_cons_self
  have fresh : f ∉ done := fun mem =>
    (List.nodup_cons.mp (List.nodup_append.mp distinct).2.1).1 (List.mem_reverse.mpr mem)
  have moved : ∀ stage h, (g.func f).Reads stage (.func h) → h ≠ f → ¬h ∈ done := by
    intro stage h read other mem
    rcases ordered.before _ f _ order stage _ read with before | ⟨same, -⟩
    · exact (List.nodup_append.mp distinct).2.2 h before h (List.mem_cons_of_mem _ (List.mem_reverse.mpr mem)) rfl
    · exact other same
  obtain ⟨shaped', grows', others, last⟩ :=
    requested_of_inferRegion shaped (reads f listed) (writes f listed) moved step
  have same {h : FuncId} (mem : h ∈ done) : t'.of g h = t.of g h := by
    unfold Regions.of
    rw [others h mem fun same => fresh (same ▸ mem)]
  refine ⟨shaped', grows.trans grows', fun h mem stage d defined => ?_⟩
  rcases List.mem_append.mp mem with mem | mem
  · rw [same mem]
    exact (requested h mem stage d defined).grow grows'
  · obtain rfl := List.mem_singleton.mp mem
    exact last stage d defined

end Graph

end Inference

/-! ### What is evaluated -/

variable {K : Type} [Field K] [LinearOrder K] [IsStrictOrderedRing K] [FloorRing K] [Transcendental K]

omit [IsStrictOrderedRing K] in
theorem bound_coordinates {names : List Name} (distinct : names.Nodup) {is : List Interval} {p : List Int}
    (inside : Within is p) {x : Name} {i : Interval} (mem : (x, i) ∈ names.zip is) :
    ∃ n : Int, (coordinates (Exact K) names p : List (Name × K)).lookup x = some (n : K) ∧ i.min ≤ n ∧ n ≤ i.max := by
  obtain ⟨k, at'⟩ := List.mem_iff_getElem?.mp mem
  rw [List.getElem?_zip_eq_some] at at'
  obtain ⟨name, interval⟩ := at'
  have less : k < is.length := (List.getElem?_eq_some_iff.mp interval).1
  have lessPoint : k < p.length := inside.length_eq ▸ less
  have value : p[k]? = some p[k] := List.getElem?_eq_getElem _
  refine ⟨_, lookup_coordinates distinct name value, ?_⟩
  have both := List.forall₂_iff_get.mp inside
  have same : is[k] = i := (List.getElem?_eq_some_iff.mp interval).2
  rw [← same]
  exact both.2 k less (inside.length_eq ▸ less)

theorem Scope.binds_ofDefinition {func : Func (Exact K)} {d : Definition (Exact K)} {region : Domain} {env : Env K}
    (vars : ∀ x i, (x, i) ∈ func.args.zip region.intervals → ∃ n : Int, env.var x = n ∧ i.min ≤ n ∧ n ≤ i.max)
    (rvars : ∀ r, d.rdom = some r → ∀ x i, (x, i) ∈ r.dims → ∃ n : Int, env.rvar x = n ∧ i.min ≤ n ∧ n ≤ i.max) :
    (Scope.ofDefinition func d region).Binds env := by
  have entered {x : Name} {r : Span (Exact K)} {t : Table Name (Span (Exact K))} {y : Name} {i : Interval}
      (mem : (x, r) ∈ (t.insert y (.ofInterval i)).entries) : (x, r) ∈ t.entries ∨ x = y ∧ r = .ofInterval i := by
    rcases List.mem_cons.mp mem with same | mem
    · exact Or.inr (Prod.mk.inj same)
    · exact Or.inl (List.mem_filter.mp mem).1
  have pure : ∀ (l : List (Name × Interval)) (s : Scope (Exact K)), s.Binds env →
      (∀ x i, (x, i) ∈ l → ∃ n : Int, env.var x = n ∧ i.min ≤ n ∧ n ≤ i.max) →
      (l.foldl (fun s e => s.bindVar e.1 e.2) s).Binds env := by
    intro l
    induction l with
    | nil => exact fun s binds _ => binds
    | cons entry l ih =>
      intro s binds inside
      refine ih _ ⟨fun {x r} mem => ?_, binds.rvars⟩ fun x i mem => inside x i (List.mem_cons_of_mem _ mem)
      rcases entered mem with mem | ⟨rfl, rfl⟩
      · exact binds.vars mem
      · obtain ⟨n, value, within⟩ := inside _ _ List.mem_cons_self
        exact ⟨n, value, Span.holds_ofInterval within⟩
  have reduction : ∀ (l : List (Name × Interval)) (s : Scope (Exact K)), s.Binds env →
      (∀ x i, (x, i) ∈ l → ∃ n : Int, env.rvar x = n ∧ i.min ≤ n ∧ n ≤ i.max) →
      (l.foldl (fun s e => s.bindRVar e.1 e.2) s).Binds env := by
    intro l
    induction l with
    | nil => exact fun s binds _ => binds
    | cons entry l ih =>
      intro s binds inside
      refine ih _ ⟨binds.vars, fun {x r} mem => ?_⟩ fun x i mem => inside x i (List.mem_cons_of_mem _ mem)
      rcases entered mem with mem | ⟨rfl, rfl⟩
      · exact binds.rvars mem
      · obtain ⟨n, value, within⟩ := inside _ _ List.mem_cons_self
        exact ⟨n, value, Span.holds_ofInterval within⟩
  have start := pure (func.args.zip region.intervals) {}
    ⟨fun mem => absurd mem List.not_mem_nil, fun mem => absurd mem List.not_mem_nil⟩ vars
  unfold Scope.ofDefinition
  cases domain : d.rdom with
  | none => exact start
  | some r => exact reduction r.dims _ start (rvars r domain)

theorem Scope.binds_of_mem {func : Func (Exact K)} {d : Definition (Exact K)} {region : Domain} {p : List Int}
    (distinct : func.args.Nodup) (rdom : d.rdom = none) (mem : p ∈ region.points) :
    (Scope.ofDefinition func d region).Binds (⟨coordinates (Exact K) func.args p, []⟩ : Env K) := by
  refine Scope.binds_ofDefinition (fun x i listed => ?_) fun r found => ?_
  · obtain ⟨n, value, within⟩ := bound_coordinates (K := K) distinct (Domain.mem_points.mp mem) listed
    refine ⟨n, ?_, within⟩
    unfold Env.var
    rw [value]
    rfl
  · rw [rdom] at found
    cases found

omit [IsStrictOrderedRing K] in
theorem Graph.mem_of_request {g : Graph (Exact K)} {f : FuncId} {target : Target} {spans : List (Span (Exact K))}
    {wanted : Domain} {ρ : Valuation K} {env : Env K} {args : List (Expr (Exact K))}
    (request : g.request f target spans = .ok wanted)
    (held : List.Forall₂ (fun (range : Span (Exact K)) a => range.Holds (a.value ρ env)) spans args) :
    Expr.position ρ env args ∈ wanted.points := by
  refine Domain.mem_points.mpr ?_
  unfold Within Expr.position
  rw [List.forall₂_map_right_iff]
  have intervals := (Graph.intervals_of_request request).flip
  refine List.forall₂_iff_get.mpr ⟨intervals.length_eq.trans held.length_eq, fun k hi ha => ?_⟩
  have less : k < spans.length := intervals.length_eq ▸ hi
  exact ((List.forall₂_iff_get.mp held).2 k less ha).toInterval? ((List.forall₂_iff_get.mp intervals).2 k hi less)

theorem Graph.Requested.covers {g : Graph (Exact K)} {f h : FuncId} {region : Domain} {d : Definition (Exact K)}
    {regions : Regions} {ρ : Valuation K} {env : Env K} {Q : Atom → Prop} {e x : Expr (Exact K)} {r : Read (Exact K)}
    (requested : g.Requested f region d regions) (binds : (Scope.ofDefinition (g.func f) d region).Binds env)
    (mem : e ∈ d.exprs) (plain : e.Plain ρ env Q) (other : h ≠ f) (visit : Expr.Visits ρ env e x)
    (read : x.read? = some r) (target : r.target = .func h) (regular : ∀ a ∈ r.args, a.Regular ρ env) :
    Expr.position ρ env r.args ∈ (regions.of g h).points := by
  obtain ⟨access, listed, same, held⟩ := Expr.covers_of_visits binds plain regular visit read
  have target' : access.read.target = .func h := by rw [same, target]
  obtain ⟨wanted, request, inside⟩ :=
    requested.wanted binds.isReachable (List.mem_flatMap.mpr ⟨e, mem, listed⟩) target' other
  exact inside _ (Graph.mem_of_request request held)

end ArrayDiff
