import ArrayDiff.Proofs.Contents
import ArrayDiff.Proofs.Extending
import ArrayDiff.Proofs.Fitting
import ArrayDiff.Proofs.Reachability

/-!
# Copies of funcs

A copy of a func lacks its later updates and calls itself where the func does (`Graph.Copies`). So it holds over a
region what the func holds there before these updates (`Graph.Copies.contents?`). Whatever differentiation marks as a
copy is one (`Graph.copies_of_adjoints`, `Graph.copies_of_tangents`).
-/

namespace ArrayDiff

variable {κ α : Type}

/-! ### Redirected calls -/

section Redirected

variable [Scalar α] [Embed κ α]

namespace Expr

section Reading

variable {m : Type → Type} [Monad m]

theorem evalIndex_map {reader reader' : Reader m α} {env : Env α} {k : Expr κ → Expr κ} {es : List (Expr κ)}
    (same : ∀ e ∈ es, (k e).eval reader env = e.eval reader' env) :
    evalIndex reader env (es.map k) = evalIndex reader' env es := by
  induction es with
  | nil => rfl
  | cons e es ih =>
    rw [List.map_cons, evalIndex, evalIndex, same e List.mem_cons_self,
      ih fun e mem => same e (List.mem_cons_of_mem _ mem)]

/-- Redirecting calls is evaluation with calls of `f` answered as calls of `g`. -/
theorem eval_redirect (reader : Reader m α) (env : Env α) (f g : FuncId) (e : Expr κ) :
    (e.redirect f g).eval reader env =
      e.eval { reader with call := fun h => reader.call (if h = f then g else h) } env := by
  induction e with
  | const _ | var _ | rvar _ | param _ => rfl
  | call h args ih | load b args ih => rw [redirect, redirectList_eq_map, eval, eval, evalIndex_map ih]
  | unary op a ih | not a ih => rw [redirect, eval, eval, ih]
  | binary op a b iha ihb | compare op a b iha ihb | and a b iha ihb | or a b iha ihb =>
    rw [redirect, eval, eval, iha, ihb]
  | select c t f ihc iht ihf => rw [redirect, eval, eval, ihc, iht, ihf]

end Reading

end Expr

namespace Answers

variable {P : Answers α} {A : Contents α} {f copy : FuncId}

/-- Calls of `f` are answered as calls of `copy`. -/
def redirect (P : Answers α) (f copy : FuncId) : Answers α :=
  { P with call := fun h => P.call (if h = f then copy else h) }

omit [Scalar α] in
theorem follows_redirect : P.Follows (P.redirect f copy) (· ≠ f) := by
  refine ⟨fun {h p v} other answer => ?_, id, id⟩
  unfold redirect
  dsimp only
  rwa [if_neg other]

omit [Scalar α] in
/-- What is answered for `f` while it is computed is answered for the copy while that one is computed. -/
theorem follows_redirect_set : (P.set f A).Follows ((P.set copy A).redirect f copy) (· ≠ copy) := by
  refine ⟨fun {h p v} other answer => ?_, id, id⟩
  unfold redirect
  dsimp only
  split
  · rename_i same
    rw [same, set_self] at answer
    rwa [set_self]
  · rename_i different
    rw [set_of_ne _ _ different] at answer
    rwa [set_of_ne _ _ other]

end Answers

namespace Expr

variable {P Q : Answers α} {T : FuncId → Prop} {env : Env α} {f copy : FuncId}

theorem value?_redirect (follows : P.Follows (Q.redirect f copy) T) {e : Expr κ}
    (within : ∀ r ∈ e.reads, ∀ h, r.target = .func h → T h) {v : α} (value : e.value? P env = some v) :
    (e.redirect f copy).value? Q env = some v := by
  unfold value?
  rw [eval_redirect]
  exact value?_follow follows within value

theorem position?_redirect (follows : P.Follows (Q.redirect f copy) T) {es : List (Expr κ)}
    (within : ∀ e ∈ es, ∀ r ∈ e.reads, ∀ h, r.target = .func h → T h) {p : List Int}
    (position : position? P env es = some p) : position? Q env (es.map (·.redirect f copy)) = some p := by
  unfold position?
  rw [evalIndex_map fun e _ => eval_redirect Q.reader env f copy e]
  exact position?_follow follows within position

end Expr

end Redirected

/-! ### Definitions -/

namespace Expr

variable {f copy : FuncId}

theorem varName?_redirect (e : Expr κ) : (e.redirect f copy).varName? = e.varName? := by
  cases e <;> rfl

theorem filterMap_varName?_redirect (es : List (Expr κ)) :
    (es.map (·.redirect f copy)).filterMap varName? = es.filterMap varName? := by
  rw [List.filterMap_map]
  exact congrArg (List.filterMap · es) (funext varName?_redirect)

theorem filterMap_zip_redirect {X Y : Type} {k : Expr κ × X → Option Y}
    (same : ∀ e x, k (e.redirect f copy, x) = k (e, x)) (es : List (Expr κ)) (xs : List X) :
    ((es.map (·.redirect f copy)).zip xs).filterMap k = (es.zip xs).filterMap k := by
  rw [List.zip_map_left, List.filterMap_map]
  exact congrArg (List.filterMap · _) (funext fun entry => same entry.1 entry.2)

end Expr

namespace Definition

variable [Scalar κ] [Scalar α] [Embed κ α] {d : Definition κ} {f copy : FuncId}

omit [Scalar α] in
theorem iterations_redirect (region : Domain) :
    ((d.map (·.redirect f copy)).iterations region : List (Env α)) = d.iterations region := by
  unfold iterations
  dsimp only [Definition.map]
  rw [Expr.filterMap_zip_redirect]
  intro e i
  dsimp only
  rw [Expr.varName?_redirect]

variable {P : Answers α} {A B : Contents α} {R : Domain}

theorem run?_redirect (unread : ∀ r ∈ d.reads, ∀ h, r.target = .func h → h ≠ copy)
    (run : d.run? P f (d.iterations R) A = some B) :
    (d.map (·.redirect f copy)).run? P copy ((d.map (·.redirect f copy)).iterations R) A = some B := by
  rw [iterations_redirect]
  refine foldlM_some_mono (fun env _ C D step => ?_) run
  obtain ⟨p, v, position, value, stored⟩ := step?_eq_some.mp step
  have inside : ∀ e ∈ d.exprs, ∀ r ∈ e.reads, ∀ h, r.target = .func h → h ≠ copy := fun e mem r read =>
    unread r (List.mem_flatMap.mpr ⟨e, mem, read⟩)
  refine step?_eq_some.mpr ⟨p, v, ?_, ?_, stored⟩
  · exact Expr.position?_redirect Answers.follows_redirect_set
      (fun e mem => inside e (List.mem_append_left _ mem)) position
  · exact Expr.value?_redirect Answers.follows_redirect_set (inside d.value (by simp [Definition.exprs])) value

end Definition

/-! ### Copies -/

namespace Graph

/-- `copy` is `f` without some later updates, namely those after `stage`, and calls itself where `f` does. -/
structure Copies (g : Graph κ) (copy f : FuncId) (stage : Stage) : Prop where
  early : stage.index < (g.func f).lastStage.index
  args : (g.func copy).args = (g.func f).args
  init : (g.func copy).init = (g.func f).init.map (·.map (·.redirect f copy))
  updates : (g.func copy).updates = ((g.func f).truncate stage).updates.map (·.map (·.redirect f copy))

end Graph

theorem Func.truncate_eq (f : Func κ) (stage : Stage) :
    f.truncate stage = { f with updates := (f.truncate stage).updates } := by
  cases stage <;> rfl

theorem Func.truncate_updates_prefix_self (f : Func κ) (stage : Stage) :
    (f.truncate stage).updates <+: f.updates := by
  cases stage with
  | initial => exact List.nil_prefix
  | update i => exact List.take_prefix _ _

namespace Graph.Copies

variable {g g' : Graph κ} {copy f : FuncId} {stage st : Stage} {d : Definition κ} {t : Target}

theorem updates_ne_nil (copies : g.Copies copy f stage) : (g.func f).updates ≠ [] := by
  intro none
  have early := copies.early
  rw [Func.lastStage, none] at early
  cases stage with
  | initial => exact lt_irrefl _ early
  | update i => cases early

theorem definitions (copies : g.Copies copy f stage) (listed : (st, d) ∈ (g.func copy).definitions) :
    ∃ d', (st, d') ∈ (g.func f).definitions ∧ d = d'.map (·.redirect f copy) := by
  rw [Func.mem_definitions] at listed
  cases st with
  | initial =>
    change (g.func copy).init = some d at listed
    rw [copies.init] at listed
    obtain ⟨d', init, rfl⟩ := Option.map_eq_some_iff.mp listed
    exact ⟨d', Func.mem_definitions_init init, rfl⟩
  | update i =>
    change (g.func copy).updates[i]? = some d at listed
    rw [copies.updates, List.getElem?_map] at listed
    obtain ⟨d', update, rfl⟩ := Option.map_eq_some_iff.mp listed
    obtain ⟨rest, split⟩ := (g.func f).truncate_updates_prefix_self stage
    refine ⟨d', Func.mem_definitions.mpr ?_, rfl⟩
    change (g.func f).updates[i]? = some d'
    rw [← split, List.getElem?_append_left (List.getElem?_eq_some_iff.mp update).1]
    exact update

theorem reads (copies : g.Copies copy f stage) (layered : ¬(g.func f).Reads .initial (.func f))
    (reads : (g.func copy).Reads st t) : t = .func copy ∧ st ≠ .initial ∨ (g.func f).Reads st t := by
  obtain ⟨d, listed, r, read, rfl⟩ := reads
  obtain ⟨d', own, rfl⟩ := copies.definitions listed
  obtain ⟨e, mem, read⟩ := List.mem_flatMap.mp read
  rw [show (d'.map (·.redirect f copy)).exprs = d'.exprs.map (·.redirect f copy) by
    simp [Definition.exprs, Definition.map]] at mem
  obtain ⟨e', inside, rfl⟩ := List.mem_map.mp mem
  have fits : e'.Fits (fun _ => True) fun t _ => t = .func copy ∧ st ≠ .initial ∨ (g.func f).Reads st t :=
    Expr.fits_iff.mpr ⟨fun _ _ => trivial, fun r read =>
      Or.inr ⟨d', own, r, List.mem_flatMap.mpr ⟨e', inside, read⟩, rfl⟩⟩
  refine (fits.redirect fun _ either => Or.inl ⟨rfl, ?_⟩).reads read
  rcases either with ⟨-, later⟩ | self
  · exact later
  · rintro rfl
    exact layered self

theorem grow (copies : g.Copies copy f stage) (grows : g.GrowsTo g') (inside : copy.index < g.size)
    (inside' : f.index < g.size) : g'.Copies copy f stage := by
  refine ⟨?_, ?_, ?_, ?_⟩ <;> rw [grows.func inside']
  · exact copies.early
  · rw [grows.func inside, copies.args]
  · rw [grows.func inside, copies.init]
  · rw [grows.func inside, copies.updates]

section Contents

variable [Scalar κ] [Scalar α] [Embed κ α] {P : Answers α} {A : Contents α} {R : Domain}

/-- Over one region the copy holds what `f` holds before the updates that are left out. -/
theorem contents? (copies : g.Copies copy f stage) (layered : ¬(g.func f).Reads .initial (.func f))
    (unread : ∀ st, ¬(g.func f).Reads st (.func copy))
    (run : ((g.func f).truncate stage).contents? P f R = some A) : (g.func copy).contents? P copy R = some A := by
  rw [Func.truncate_eq] at run
  obtain ⟨B, begun, run⟩ := Option.bind_eq_some_iff.mp run
  obtain ⟨d, init, all, rfl⟩ := Func.start?_eq_some.mp begun
  have init : (g.func f).init = some d := init
  refine Option.bind_eq_some_iff.mpr ⟨_, Func.start?_eq_some.mpr ⟨d.map (·.redirect f copy), ?_, all, ?_⟩, ?_⟩
  · rw [copies.init, init]
    rfl
  · funext p
    by_cases inside : p ∈ R.points
    · have held := all p inside
      simp only [inside, if_true] at held ⊢
      obtain ⟨v, value⟩ := Option.isSome_iff_exists.mp held
      have own : ∀ r ∈ d.value.reads, ∀ h, r.target = .func h → h ≠ f := by
        rintro r read _ target rfl
        exact layered (target ▸ Func.reads_initial init read)
      rw [copies.args, value]
      exact (Expr.value?_redirect Answers.follows_redirect own value).symm
    · simp only [inside, if_false]
  · rw [copies.updates, List.foldlM_map]
    refine foldlM_some_mono (fun d mem B C step => Definition.run?_redirect ?_ step) run
    rintro r read _ target rfl
    obtain ⟨i, listed⟩ := Func.mem_definitions_update ((Func.truncate_updates_prefix_self _ _).subset mem)
    exact unread _ ⟨d, listed, r, read, target⟩

end Contents

end Graph.Copies

/-! ### Differentiation -/

/-- Every new func that is marked as a copy is one, of a func that can be scheduled. -/
structure Extension.Marked (g : Graph κ) (x : Extension κ) : Prop where
  grows : g.GrowsTo x.graph
  copies {copy f : FuncId} {stage : Stage} : g.size ≤ copy.index →
    (x.graph.func copy).origin = .primal f stage → g.Scheduled f ∧ x.graph.Copies copy f stage

theorem Graph.index_lt_of_origin {g : Graph κ} {f : FuncId} (made : (g.func f).origin ≠ .user) : f.index < g.size := by
  by_contra unknown
  refine made ?_
  rw [func_of_unknown unknown]
  rfl

theorem Graph.origin_modifyFunc {change : Func κ → Func κ} (kept : ∀ func, (change func).origin = func.origin)
    (g : Graph κ) (id k : FuncId) : ((g.modifyFunc id change).func k).origin = (g.func k).origin := by
  rw [func_modifyFunc]
  split
  · exact kept _
  · rfl

namespace Extension.Marked

variable {g : Graph κ} {x : Extension κ} {f id : FuncId} {func : Func κ}

theorem start (g : Graph κ) : Marked g { graph := g } := by
  refine ⟨.refl g, fun new made => ?_⟩
  have inside := Graph.index_lt_of_origin (made.trans_ne Origin.noConfusion)
  exact absurd inside (Nat.not_lt.mpr new)

theorem pushed (h : x.Marked g) (own : ∀ f stage, func.origin = .primal f stage →
    g.Scheduled f ∧ (x.push func).2.graph.Copies x.nextId f stage) : (x.push func).2.Marked g := by
  obtain ⟨-, size, grows, ⟨name, made⟩, -⟩ := x.push_spec func
  refine ⟨h.grows.trans grows, fun {copy f stage} new marked => ?_⟩
  have inside := Graph.index_lt_of_origin (marked.trans_ne Origin.noConfusion)
  rw [size] at inside
  rcases (Nat.lt_succ_iff.mp inside).lt_or_eq with old | last
  · rw [grows.func old] at marked
    obtain ⟨scheduled, copies⟩ := h.copies new marked
    exact ⟨scheduled, copies.grow grows old (scheduled.index_lt.trans_le h.grows.size)⟩
  · obtain rfl : copy = x.nextId := by
      cases copy
      exact congrArg FuncId.mk last
    rw [made] at marked
    exact own f stage marked

theorem push (h : x.Marked g) (made : func.origin.isDerivative = true) : (x.push func).2.Marked g := by
  refine h.pushed fun f stage marked => ?_
  rw [marked] at made
  cases made

theorem snapshot (h : x.Marked g) (scheduled : g.Scheduled f) (stage : Stage) : (x.snapshot f stage).2.Marked g := by
  unfold Extension.snapshot
  dsimp only
  split
  · exact h
  rename_i early
  split
  · exact h
  generalize made : ({ ((x.graph.func f).truncate stage).mapExprs (·.redirect f x.nextId) with
    name := snapshotName (x.graph.func f).name stage, origin := .primal f stage } : Func κ) = copy
  suffices marked : (x.push copy).2.Marked g from ⟨marked.grows, marked.copies⟩
  refine h.pushed fun f' stage' origin => ?_
  obtain ⟨-, -, grows, ⟨name, own⟩, -⟩ := x.push_spec copy
  subst made
  obtain ⟨rfl, rfl⟩ := Origin.primal.inj origin
  refine ⟨scheduled, ?_, ?_, ?_, ?_⟩ <;> rw [grows.func (scheduled.index_lt.trans_le h.grows.size)]
  · exact Int.not_le.mp early
  all_goals
    rw [own]
    cases stage <;> rfl

theorem modify (h : x.Marked g) (new : g.size ≤ id.index) (tangent : ∃ t, (x.graph.func id).origin = .tangent t)
    {change : Func κ → Func κ} (kept : ∀ func, (change func).origin = func.origin) : (x.modify id change).Marked g := by
  obtain ⟨t, tangent⟩ := tangent
  refine ⟨h.grows.modifyFunc new change, fun {copy f stage} later marked => ?_⟩
  have other (k : FuncId) (apart : k ≠ id) : (x.modify id change).graph.func k = x.graph.func k :=
    (Graph.func_modifyFunc ..).trans (if_neg fun same => apart same.1.symm)
  rw [show (x.modify id change).graph = x.graph.modifyFunc id change from rfl, Graph.origin_modifyFunc kept] at marked
  obtain ⟨scheduled, copies⟩ := h.copies later marked
  have apart : copy ≠ id := by
    rintro rfl
    cases marked.symm.trans tangent
  have apart' : f ≠ id := by
    rintro rfl
    exact absurd scheduled.index_lt (Nat.not_lt.mpr new)
  refine ⟨scheduled, ?_, ?_, ?_, ?_⟩ <;> rw [other f apart']
  · exact copies.early
  · rw [other copy apart, copies.args]
  · rw [other copy apart, copies.init]
  · rw [other copy apart, copies.updates]

end Extension.Marked

section Derivatives

variable [Extended κ] {g : Graph κ} {f id output : FuncId} {stage : Stage} {d : Definition κ}

namespace Extension.Marked

omit [Extended κ] in
theorem steps {x y : Sweep κ} (h : x.extension.Marked g) (scheduled : g.Scheduled f) (steps : x.Steps f y) :
    y.extension.Marked g := by
  induction steps with
  | refl => exact h
  | addTerm _ key term ih => exact ih
  | snapshot _ stage ih => exact ih.snapshot scheduled stage
  | push _ v made ih => exact ih.push made

theorem settle {x : Sweep κ} (h : x.extension.Marked g) (key : Key) : (x.settle key).2.extension.Marked g := by
  change ((x.site key).materialize x.extension ((x.terms.get? key).getD [])).2.Marked g
  unfold Site.materialize
  dsimp only
  split
  · exact h.push rfl
  · exact (h.push rfl).push rfl

theorem addDefinition {x y : Tangents.State κ} (h : x.extension.Marked g) (scheduled : g.Scheduled f)
    (new : g.size ≤ id.index) (tangent : ∃ t, (x.extension.graph.func id).origin = .tangent t)
    (run : Tangents.addDefinition g f id x stage d = .ok y) :
    y.extension.Marked g ∧ ∃ t, (y.extension.graph.func id).origin = .tangent t := by
  have change {ext : Extension κ} (marked : ext.Marked g) (grows : x.extension.graph.GrowsTo ext.graph)
      (value : Expr κ) : let add (t : Func κ) : Func κ :=
          if stage = .initial then t.withInit value else t.addUpdate ⟨d.lhs, value, d.rdom⟩
        (ext.modify id add).Marked g ∧ ∃ t, ((ext.modify id add).graph.func id).origin = .tangent t := by
    intro add
    have kept (func : Func κ) : (add func).origin = func.origin := by
      unfold add
      split <;> rfl
    obtain ⟨t, tangent⟩ := tangent
    have inside := Graph.index_lt_of_origin (tangent.trans_ne Origin.noConfusion)
    have own : (ext.graph.func id).origin = .tangent t := by rw [grows.func inside, tangent]
    refine ⟨marked.modify new ⟨t, own⟩ kept, t, ?_⟩
    change ((ext.graph.modifyFunc id add).func id).origin = _
    rw [Graph.func_modifyFunc, if_pos ⟨rfl, inside.trans_le grows.size⟩, kept, own]
  unfold Tangents.addDefinition at run
  obtain ⟨valueStage, -, run⟩ := bind_eq_ok.mp run
  obtain rfl := pure_eq_ok.mp run
  cases valueStage with
  | none => exact change h (.refl _) _
  | some valueAt =>
    by_cases reads : (x.tangentOf d.value).readsTarget (.func f)
    · simp only [if_pos reads]
      exact change (h.snapshot scheduled valueAt) (Graph.ExtendsTo.refl.snapshot f valueAt).grows _
    · simp only [if_neg reads]
      exact change h (.refl _) _

theorem addFunc {x y : Tangents.State κ} (h : x.extension.Marked g) (scheduled : g.Scheduled f)
    (run : Tangents.addFunc g x f = .ok y) : y.extension.Marked g := by
  unfold Tangents.addFunc at run
  dsimp only at run
  split at run
  · rwa [← pure_eq_ok.mp run]
  obtain ⟨id, -, -, ⟨name, made⟩, -⟩ := x.extension.push_spec (Tangents.tangentFunc g f)
  have start : ∃ t, ((x.extension.push (Tangents.tangentFunc g f)).2.graph.func
      (x.extension.push (Tangents.tangentFunc g f)).1).origin = .tangent t := by
    rw [id, made]
    exact ⟨_, rfl⟩
  have new : g.size ≤ (x.extension.push (Tangents.tangentFunc g f)).1.index := by
    rw [id]
    exact h.grows.size
  exact (foldlM_preserves run (fun y => y.extension.Marked g ∧ ∃ t, (y.extension.graph.func _).origin = .tangent t)
    ⟨h.push rfl, start⟩ fun _ _ _ _ before step => before.1.addDefinition scheduled new before.2 step).1

end Extension.Marked

namespace Graph

/-- Every func of `g'` behind those of `g` that is marked as a copy is one, of a func that can be scheduled in `g`. -/
def MarksCopies (g g' : Graph κ) : Prop :=
  ∀ copy f stage, g.size ≤ copy.index → (g'.func copy).origin = .primal f stage →
    g.Scheduled f ∧ g'.Copies copy f stage

theorem copies_of_adjoints {seed : Seed κ} {a : Adjoints κ} (run : g.adjoints output seed = .ok a) :
    g.GrowsTo a.graph ∧ g.MarksCopies a.graph := by
  obtain ⟨s, regions, resolved, x, order, processed, y, settled, rfl⟩ := adjoints_eq_ok run
  have swept : x.extension.Marked g := by
    refine foldlM_preserves processed (fun x => x.extension.Marked g) (.start g) ?_
    rintro ⟨f, stage⟩ mem x y before step
    obtain ⟨progress, steps⟩ := Sweep.process_steps step
    have listed := List.mem_reverse.mp mem
    rw [(ordered_schedule order).1.stages] at listed
    obtain ⟨f', own, listed⟩ := List.mem_flatMap.mp listed
    obtain ⟨_, -, same⟩ := List.mem_map.mp listed
    obtain rfl : f' = f := (Prod.mk.inj same).1
    exact (before.settle (x := { x with progress }) ⟨.func f', stage⟩).steps ⟨output, s, order, own⟩ steps
  have leaves : ∀ (l : List Target) (x : Sweep κ), x.extension.Marked g →
      (l.foldl (fun x t => (x.settle ⟨t, .initial⟩).2) x).extension.Marked g := by
    intro l
    induction l with
    | nil => exact fun x before => before
    | cons t l ih => exact fun x before => ih _ (before.settle ⟨t, .initial⟩)
  rw [settled]
  have final := leaves s.leaves x swept
  exact ⟨final.grows, fun _ _ _ new marked => final.copies new marked⟩

theorem copies_of_tangents {directions : List (Name × FuncId)} {t : Tangents κ}
    (run : g.tangents output directions = .ok t) : g.GrowsTo t.graph ∧ g.MarksCopies t.graph := by
  obtain ⟨seeds, -, run⟩ := bind_eq_ok.mp run
  obtain ⟨s, order, run⟩ := bind_eq_ok.mp run
  obtain ⟨x, added, run⟩ := bind_eq_ok.mp run
  have final : x.extension.Marked g :=
    foldlM_preserves added (fun x => x.extension.Marked g) (.start g) fun f mem y y' before step =>
      before.addFunc ⟨output, s, mapError_eq_ok.mp order, mem⟩ step
  suffices marked : ∃ y : Extension κ, y.Marked g ∧ y.graph = t.graph by
    obtain ⟨y, marked, same⟩ := marked
    rw [← same]
    exact ⟨marked.grows, fun _ _ _ new => marked.copies new⟩
  split at run
  · rw [← pure_eq_ok.mp run]
    exact ⟨_, final, rfl⟩
  · rw [← pure_eq_ok.mp run]
    exact ⟨_, final.push rfl, rfl⟩

omit [Extended κ] in
/-- What can be scheduled in `g` does not reach what is added to `g`. -/
theorem Scheduled.not_reaches {g' : Graph κ} (scheduled : g.Scheduled f) (grows : g.GrowsTo g') {copy : FuncId}
    (new : g.size ≤ copy.index) : ¬g'.Reaches f (.func copy) := by
  obtain ⟨root, s, order, mem⟩ := scheduled
  have ordered := (ordered_schedule order).1
  have inside {h : FuncId} (listed : h ∈ s.funcs) : h.index < g.size := index_lt_of_init (ordered.defined h listed)
  intro reached
  have listed : s.Lists (.func copy) := by
    refine reached.closed (T := s.Lists) mem fun h stage t own reads => ?_
    rw [grows.func (inside own)] at reads
    exact ordered.lists own reads
  exact absurd (inside listed) (Nat.not_lt.mpr new)

end Graph

end Derivatives

end ArrayDiff
