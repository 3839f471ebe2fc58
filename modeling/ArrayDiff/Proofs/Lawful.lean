import ArrayDiff.Proofs.Fitting
import ArrayDiff.Proofs.Reachability

/-!
# Lawful funcs

A func is lawful when it has definitions as the building operations accept them, every read has the arity of its target
and no pure variable is used that does not stand in the position. A graph in which a set of funcs is lawful and can be
computed (`Graph.Closed`) stays so when a func is added that reads what is there, and itself in its updates.
-/

namespace ArrayDiff

variable {κ : Type}

/-- The pure variables that a definition may use: those of its position. -/
def Definition.Binds (d : Definition κ) (x : Name) : Prop := ∃ a ∈ d.lhs, x ∈ a.freeVars

namespace Func

/-- The initial definition stands at the arguments and updates at positions that the func accepts; reads satisfy `R`,
target and number of arguments, and pure variables occur in the position. -/
structure Lawful (R : Target → Nat → Prop) (f : Func κ) : Prop where
  init {d : Definition κ} : f.init = some d → d.lhs = f.argExprs
  update {d : Definition κ} : d ∈ f.updates → f.Accepts d.lhs
  reads {stage : Stage} {d : Definition κ} : (stage, d) ∈ f.definitions → ∀ r ∈ d.reads, R r.target r.args.length
  bound {stage : Stage} {d : Definition κ} : (stage, d) ∈ f.definitions → ∀ e ∈ d.exprs, ∀ x ∈ e.freeVars, d.Binds x

/-- `R`, and reads of the func `id` with `dims` arguments. -/
def OrSelf (R : Target → Nat → Prop) (id : FuncId) (dims : Nat) (t : Target) (n : Nat) : Prop :=
  R t n ∨ t = .func id ∧ n = dims

/-- What is there of a func that is to stand under `id`: it may read itself in its updates only. -/
structure Drafted (R : Target → Nat → Prop) (id : FuncId) (f : Func κ) : Prop where
  init {d : Definition κ} : f.init = some d → d.lhs = f.argExprs ∧ d.value.Fits (· ∈ f.args) R
  update {d : Definition κ} : d ∈ f.updates → f.Accepts d.lhs ∧ ∀ e ∈ d.exprs, e.Fits d.Binds (OrSelf R id f.dims)

variable {R R' : Target → Nat → Prop} {f f' : Func κ} {d : Definition κ} {stage : Stage} {x : Name} {id : FuncId}

theorem Lawful.mono (h : f.Lawful R) (wider : ∀ t n, R t n → R' t n) : f.Lawful R' :=
  ⟨h.init, h.update, fun listed r read => wider _ _ (h.reads listed r read), h.bound⟩

theorem Lawful.fits (h : f.Lawful R) (listed : (stage, d) ∈ f.definitions) : ∀ e ∈ d.exprs, e.Fits d.Binds R := by
  intro e own
  exact Expr.fits_iff.mpr ⟨fun x free => h.bound listed e own x free,
    fun r read => h.reads listed r (List.mem_flatMap.mpr ⟨e, own, read⟩)⟩

theorem Accepts.congr {lhs : List (Expr κ)} (h : f.Accepts lhs) (same : f'.args = f.args) : f'.Accepts lhs := by
  refine ⟨h.length.trans (congrArg List.length same).symm, fun at' free => ?_⟩
  unfold dimOf?
  rw [same]
  exact h.placed at' free

theorem Accepts.eq_var {lhs : List (Expr κ)} {e : Expr κ} (h : f.Accepts lhs) (mem : e ∈ lhs) (free : x ∈ e.freeVars) :
    e = .var x := by
  obtain ⟨i, at'⟩ := List.mem_iff_getElem?.mp mem
  exact (h.placed at' free).1

theorem Accepts.redirect {lhs : List (Expr κ)} {g : FuncId} (h : f.Accepts lhs) :
    f.Accepts (lhs.map (·.redirect g id)) := by
  refine ⟨(List.length_map _).trans h.length, fun {i e x} at' free => ?_⟩
  rw [List.getElem?_map] at at'
  obtain ⟨e, own, rfl⟩ := Option.map_eq_some_iff.mp at'
  have old : e.Fits (· ∈ e.freeVars) fun _ _ => True := Expr.fits_iff.mpr ⟨fun _ free => free, fun _ _ => trivial⟩
  obtain ⟨rfl, place⟩ := h.placed own ((old.redirect fun _ reads => reads).freeVars free)
  exact ⟨rfl, place⟩

theorem accepts_args (distinct : f.args.Nodup) : f.Accepts f.argExprs := by
  refine ⟨List.length_map _, fun {i e x} at' free => ?_⟩
  rw [argExprs, List.getElem?_map] at at'
  obtain ⟨y, named, rfl⟩ := Option.map_eq_some_iff.mp at'
  obtain rfl : x = y := Expr.var.inj (List.mem_singleton.mp (Expr.mem_freeVars.mp free))
  exact ⟨rfl, dimOf?_eq_some distinct named⟩

theorem accepts_of_closed {lhs : List (Expr κ)} (length : lhs.length = f.dims)
    (closed : ∀ e ∈ lhs, e.Fits (fun _ => False) R) : f.Accepts lhs :=
  ⟨length, fun at' free => ((closed _ (List.mem_of_getElem? at')).freeVars free).elim⟩

theorem lawful_default : (default : Func κ).Lawful R :=
  ⟨fun found => (nomatch found), fun mem => absurd mem List.not_mem_nil, fun listed => (nomatch listed),
    fun listed => (nomatch listed)⟩

theorem binds_args (position : d.lhs = f.argExprs) : d.Binds x ↔ x ∈ f.args := by
  unfold Definition.Binds argExprs at *
  rw [position]
  simp [Expr.freeVars, Expr.nodes, Expr.varName?]

theorem Drafted.mono (h : f.Drafted R id) (wider : ∀ t n, R t n → R' t n) : f.Drafted R' id := by
  refine ⟨fun found => (h.init found).imp_right fun fits => fits.mono (fun _ own => own) wider, fun mem => ?_⟩
  exact (h.update mem).imp_right fun fits e own =>
    (fits e own).mono (fun _ bound => bound) fun t n => Or.imp_left (wider t n)

theorem Drafted.fits_init (h : f.Drafted R id) (found : f.init = some d) : ∀ e ∈ d.exprs, e.Fits (· ∈ f.args) R := by
  obtain ⟨position, value⟩ := h.init found
  refine List.forall_mem_append.mpr ⟨?_, List.forall_mem_singleton.mpr value⟩
  rw [position]
  exact Expr.fits_vars fun x mem => mem

theorem Drafted.fits (h : f.Drafted R id) (listed : (stage, d) ∈ f.definitions) :
    ∀ e ∈ d.exprs, e.Fits d.Binds (OrSelf R id f.dims) := by
  intro e own
  rcases of_mem_definitions listed with ⟨-, found⟩ | ⟨-, mem⟩
  · exact (h.fits_init found e own).mono (fun x => (binds_args (h.init found).1).mpr) fun t n => Or.inl
  · exact (h.update mem).2 e own

theorem Drafted.lawful (h : f.Drafted R id) : f.Lawful (OrSelf R id f.dims) where
  init found := (h.init found).1
  update mem := (h.update mem).1
  reads listed r read := by
    obtain ⟨e, own, read⟩ := List.mem_flatMap.mp read
    exact (h.fits listed e own).reads read
  bound listed e own x free := (h.fits listed e own).freeVars free

theorem Lawful.fits_value {t : Target} (h : f.Lawful R) (apart : ¬f.Reads .initial t) (found : f.init = some d) :
    d.value.Fits (· ∈ f.args) fun t' n => R t' n ∧ t' ≠ t := by
  have plain := Expr.fits_iff.mp
    (h.fits (mem_definitions_init found) d.value (List.mem_append_right _ List.mem_cons_self))
  exact Expr.fits_iff.mpr ⟨fun x free => (binds_args (h.init found)).mp (plain.1 x free),
    fun r read => ⟨plain.2 r read, fun same => apart (same ▸ reads_initial found read)⟩⟩

/-- A copy whose calls of `g` are redirected to itself is a draft, if the initial definition does not read `g`. -/
theorem Lawful.drafted_copy {g : FuncId} (h : f.Lawful R) (arity : ∀ n, R (.func g) n → n = f.dims)
    (apart : ¬f.Reads .initial (.func g)) (args : f'.args = f.args)
    (init : f'.init = f.init.map (·.map (·.redirect g id)))
    (updates : ∀ d ∈ f'.updates, ∃ d' ∈ f.updates, d = d'.map (·.redirect g id)) : f'.Drafted R id := by
  refine ⟨fun {d} found => ?_, fun {d} mem => ?_⟩
  · rw [init] at found
    obtain ⟨d, own, rfl⟩ := Option.map_eq_some_iff.mp found
    have listed := mem_definitions_init own
    have position := h.init own
    constructor
    · change d.lhs.map (·.redirect g id) = _
      rw [position, argExprs, argExprs, args, List.map_map]
      rfl
    · rw [args]
      exact ((h.fits_value apart own).redirect fun n reads => absurd rfl reads.2).mono (fun _ free => free)
        fun t n => And.left
  · obtain ⟨d, own, rfl⟩ := updates d mem
    obtain ⟨i, listed⟩ := mem_definitions_update own
    refine ⟨(h.update own).redirect.congr args, ?_⟩
    have exprs : (d.map (·.redirect g id)).exprs = d.exprs.map (·.redirect g id) := by
      simp [Definition.exprs, Definition.map]
    rw [exprs]
    refine List.forall_mem_map.mpr fun e inside => ?_
    have bound (x : Name) (binds : d.Binds x) : (d.map (·.redirect g id)).Binds x := by
      obtain ⟨a, mem, free⟩ := binds
      obtain rfl := (h.update own).eq_var mem free
      exact ⟨.var x, List.mem_map.mpr ⟨.var x, mem, rfl⟩, free⟩
    have fits : e.Fits (d.map (·.redirect g id)).Binds (OrSelf R id f'.dims) :=
      (h.fits listed e inside).mono bound fun t n => Or.inl
    refine fits.redirect fun n reads => Or.inr ⟨rfl, ?_⟩
    have dims : f'.dims = f.dims := congrArg List.length args
    exact reads.elim (fun reads => (arity n reads).trans dims.symm) And.right

end Func

namespace Graph

/-- A read of the target with `n` arguments has its arity, and calls go to funcs of `T`. -/
def Admits (g : Graph κ) (T : FuncId → Prop) (t : Target) (n : Nat) : Prop := Based T t ∧ n = g.dimsOf t

/-- The funcs of `T` can be computed one after the other and are lawful. -/
structure Closed (g : Graph κ) (T : FuncId → Prop) : Prop where
  sorted : g.Sorted T
  lawful {f : FuncId} : T f → (g.func f).Lawful (g.Admits T)

variable {g g' : Graph κ} {T T' : FuncId → Prop} {f id : FuncId} {t : Target} {n : Nat}

theorem Admits.mono (h : g.Admits T t n) (wider : ∀ f, T f → T' f ∧ g'.func f = g.func f)
    (buffers : g'.buffers = g.buffers) : g'.Admits T' t n := by
  obtain ⟨based, rfl⟩ := h
  cases t with
  | func f => exact ⟨(wider f based).1, congrArg Func.dims (wider f based).2.symm⟩
  | buffer b => exact ⟨trivial, by unfold dimsOf buffer; rw [buffers]⟩
  | param p => exact ⟨trivial, rfl⟩

namespace Closed

theorem defined (h : g.Closed T) (mem : T f) : (g.func f).init.isSome := by
  obtain ⟨rank, -, layers, -⟩ := h.sorted
  exact layers.defined mem

theorem index_lt (h : g.Closed T) (mem : T f) : f.index < g.size := index_lt_of_init (h.defined mem)

theorem initial (h : g.Closed T) (mem : T f) : ¬(g.func f).Reads .initial (.func f) := by
  obtain ⟨rank, -, layers, -⟩ := h.sorted
  exact layers.initial mem

theorem congr (h : g.Closed T) (same : ∀ f, T f → g'.func f = g.func f) (buffers : g'.buffers = g.buffers) :
    g'.Closed T := by
  refine ⟨h.sorted.congr same, fun {f} mem => ?_⟩
  rw [same f mem]
  exact (h.lawful mem).mono fun t n admitted => admitted.mono (fun f mem => ⟨mem, same f mem⟩) buffers

theorem add (h : g.Closed T) (fresh : ¬T id) (defined : (g.func id).init.isSome)
    (drafted : (g.func id).Drafted (g.Admits T) id) : g.Closed fun f => T f ∨ f = id := by
  refine ⟨h.sorted.add defined ?_ fresh, fun {f} mem => ?_⟩
  · rintro stage k ⟨d, listed, r, read, target⟩
    obtain ⟨e, own, read⟩ := List.mem_flatMap.mp read
    rcases Func.of_mem_definitions listed with ⟨-, found⟩ | ⟨later, mem⟩
    · have known := ((drafted.fits_init found e own).reads read).1
      rw [target] at known
      exact Or.inl known
    · rcases ((drafted.update mem).2 e own).reads read with known | ⟨self, -⟩
      · rw [target] at known
        exact Or.inl known.1
      · exact Or.inr ⟨Target.func.inj (target.symm.trans self), later⟩
  · have wider (t : Target) (n : Nat) (admitted : g.Admits T t n) : g.Admits (fun f => T f ∨ f = id) t n :=
      admitted.mono (fun f mem => ⟨Or.inl mem, rfl⟩) rfl
    rcases mem with old | rfl
    · exact (h.lawful old).mono wider
    · refine drafted.lawful.mono fun t n either => either.elim (wider t n) ?_
      rintro ⟨rfl, rfl⟩
      exact ⟨Or.inr rfl, rfl⟩

end Closed

end Graph

namespace Extension

variable {x y z : Extension κ} {g : Graph κ} {T T' T'' : FuncId → Prop} {f : FuncId} {t : Target} {n : Nat}

/-- The funcs of `T` are lawful, among them those of `g` that can be scheduled, and copies, each with the arity of what
it is a copy of. -/
structure Lawful (x : Extension κ) (g : Graph κ) (T : FuncId → Prop) : Prop where
  grows : g.GrowsTo x.graph
  closed : x.graph.Closed T
  base {f : FuncId} : g.Scheduled f → T f
  copies {f copy : FuncId} {stage : Stage} : x.snapshots.get? (f, stage) = some copy →
    T copy ∧ (x.graph.func copy).dims = (g.func f).dims

/-- From `x` to `y`, funcs of `T` stay and new ones join them, among them every func that is added to `g`. -/
structure Widens (g : Graph κ) (x : Extension κ) (T : FuncId → Prop) (y : Extension κ) (T' : FuncId → Prop) : Prop where
  grows : x.graph.GrowsTo y.graph
  sub {f : FuncId} : T f → T' f
  fresh {f : FuncId} : T' f → T f ∨ x.graph.size ≤ f.index
  func {f : FuncId} : T f → y.graph.func f = x.graph.func f
  added {f : FuncId} : y.Added g f → x.Added g f ∨ T' f

theorem Widens.refl (x : Extension κ) : x.Widens g T x T := ⟨.refl _, id, Or.inl, fun _ => rfl, Or.inl⟩

theorem Widens.trans (h : x.Widens g T y T') (h' : y.Widens g T' z T'') : x.Widens g T z T'' where
  grows := h.grows.trans h'.grows
  sub mem := h'.sub (h.sub mem)
  fresh mem := (h'.fresh mem).elim h.fresh fun new => Or.inr (h.grows.size.trans new)
  func mem := (h'.func (h.sub mem)).trans (h.func mem)
  added added := (h'.added added).elim (fun before => (h.added before).imp_right h'.sub) Or.inr

theorem Widens.admits (h : x.Widens g T y T') (admitted : x.graph.Admits T t n) : y.graph.Admits T' t n :=
  admitted.mono (fun _ mem => ⟨h.sub mem, h.func mem⟩) h.grows.buffers

theorem Lawful.congr (h : x.Lawful g T) (grows : g.GrowsTo y.graph) (same : ∀ f, T f → y.graph.func f = x.graph.func f)
    (buffers : y.graph.buffers = x.graph.buffers) (snapshots : y.snapshots = x.snapshots) : y.Lawful g T := by
  refine ⟨grows, h.closed.congr same buffers, h.base, fun found => ?_⟩
  rw [snapshots] at found
  obtain ⟨mem, dims⟩ := h.copies found
  exact ⟨mem, by rw [same _ mem, dims]⟩

theorem Lawful.admits (h : x.Lawful g T) (scheduled : g.Scheduled f) :
    x.graph.Admits T (.func f) (g.func f).dims :=
  ⟨h.base scheduled, congrArg Func.dims (h.grows.func scheduled.index_lt).symm⟩

theorem Lawful.push (h : x.Lawful g T) {f : Func κ} (defined : f.init.isSome)
    (drafted : f.Drafted (x.graph.Admits T) x.nextId) :
    (x.push f).2.Lawful g (fun k => T k ∨ k = x.nextId) ∧
      x.Widens g T (x.push f).2 (fun k => T k ∨ k = x.nextId) ∧
      (x.push f).2.graph.Admits (fun k => T k ∨ k = x.nextId) (.func (x.push f).1) f.dims := by
  obtain ⟨id, size, grows, ⟨name, func⟩, snapshots⟩ := x.push_spec f
  have kept {k : FuncId} (mem : T k) : (x.push f).2.graph.func k = x.graph.func k := grows.func (h.closed.index_lt mem)
  have fresh : ¬T x.nextId := fun mem => Nat.lt_irrefl _ (h.closed.index_lt mem)
  have old := h.congr (h.grows.trans grows) (fun _ => kept) grows.buffers snapshots
  refine ⟨⟨old.grows, ?_, fun scheduled => Or.inl (h.base scheduled), fun found => (old.copies found).imp_left Or.inl⟩,
    ⟨grows, Or.inl, fun mem => mem.imp_right fun new => (congrArg FuncId.index new).ge, kept,
      fun added => ((x.added_push f h.grows.size).mp added).imp_right Or.inr⟩, Or.inr id, ?_⟩
  · apply old.closed.add fresh
    · rw [func]
      exact defined
    · rw [func]
      have wide := drafted.mono fun t n admitted => admitted.mono (fun k mem => ⟨mem, kept mem⟩) grows.buffers
      exact ⟨fun found => wide.init found, fun mem => (wide.update mem).imp_left fun accepted => accepted.congr rfl⟩
  · rw [id]
    change f.dims = ((x.push f).2.graph.func x.nextId).dims
    rw [func]
    rfl

/-- There is a copy of a func as it is after a stage, and it can be called like the func. -/
theorem Lawful.snapshot (h : x.Lawful g T) (scheduled : g.Scheduled f) (stage : Stage) :
    ∃ T', (x.snapshot f stage).2.Lawful g T' ∧ x.Widens g T (x.snapshot f stage).2 T' ∧
      (x.snapshot f stage).2.graph.Admits T' (.func (x.snapshot f stage).1) (g.func f).dims := by
  have own : x.graph.func f = g.func f := h.grows.func scheduled.index_lt
  unfold Extension.snapshot
  dsimp only
  split
  · exact ⟨T, h, Widens.refl x, h.admits scheduled⟩
  split
  · rename_i copy found
    obtain ⟨mem, dims⟩ := h.copies found
    exact ⟨T, h, Widens.refl x, mem, dims.symm⟩
  have init (func : Func κ) : (func.truncate stage).init = func.init := by cases stage <;> rfl
  have updates (func : Func κ) : (func.truncate stage).updates ⊆ func.updates := by
    cases stage with
    | initial => exact List.nil_subset _
    | update i => exact List.take_subset _ _
  have args (func : Func κ) : (func.truncate stage).args = func.args := by cases stage <;> rfl
  have defined := h.closed.defined (h.base scheduled)
  generalize made : ({ ((x.graph.func f).truncate stage).mapExprs (·.redirect f x.nextId) with
    name := snapshotName (x.graph.func f).name stage, origin := .primal f stage } : Func κ) = copy
  -- it reads itself where the func reads itself, which an initial definition does not
  have drafted : copy.Drafted (x.graph.Admits T) x.nextId := by
    rw [← made]
    refine (h.closed.lawful (h.base scheduled)).drafted_copy (fun n => And.right) (h.closed.initial (h.base scheduled))
      (args _) ?_ fun d mem => ?_
    · change Option.map _ ((x.graph.func f).truncate stage).init = _
      rw [init]
    · obtain ⟨d, own, rfl⟩ := List.mem_map.mp mem
      exact ⟨d, updates _ own, rfl⟩
  have dims : copy.dims = (g.func f).dims := by
    rw [← made, ← own]
    exact congrArg List.length (args _)
  have start : copy.init.isSome := by
    rw [← made]
    change (Option.map _ ((x.graph.func f).truncate stage).init).isSome
    rw [init, Option.isSome_map]
    exact defined
  obtain ⟨lawful, widens, admitted⟩ := h.push start drafted
  refine ⟨_, ⟨lawful.grows, lawful.closed, lawful.base, fun {k c st} found => ?_⟩,
    ⟨widens.grows, widens.sub, widens.fresh, widens.func, widens.added⟩, dims ▸ admitted⟩
  rw [Table.get?_insert] at found
  split at found
  · rename_i same
    obtain ⟨rfl, rfl⟩ := Prod.mk.inj same
    obtain rfl := Option.some.inj found
    exact ⟨admitted.1, admitted.2.symm.trans dims⟩
  · exact lawful.copies found

end Extension

end ArrayDiff
