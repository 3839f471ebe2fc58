import ArrayDiff.Tangent
import ArrayDiff.Proofs.Agreement
import ArrayDiff.Proofs.Demand

/-!
# Tangents of a graph without updates

Producers come first. When a func is reached, what it reads already has its tangents, and the tangent that is added for
it is the derivative of its value along them (`Tangents.Followed`).
-/

open ArrayDiff.Expr

namespace ArrayDiff

/-! ### Adding a func and completing it -/

theorem Graph.modifyFunc_pushFresh {κ : Type} (g : Graph κ) (f : Func κ) (change : Func κ → Func κ)
    (name : (change f).name = f.name) (keeps : ∀ name, change { f with name } = { change f with name }) :
    (g.pushFresh f).2.modifyFunc (g.pushFresh f).1 change = (g.pushFresh (change f)).2 := by
  have fresh : g.freshName (change f).name = g.freshName f.name := by rw [name]
  have funcs : (g.funcs.push { f with name := (g.freshName f.name).1 }).modify g.funcs.size change =
      g.funcs.push { change f with name := (g.freshName f.name).1 } := by
    refine Array.ext (by simp) fun i less _ => ?_
    rw [Array.getElem_modify]
    by_cases last : g.funcs.size = i
    · subst last
      rw [if_pos rfl, Array.getElem_push_eq, Array.getElem_push_eq, keeps]
    · have inside : i < g.funcs.size := by
        rw [Array.size_modify, Array.size_push] at less
        omega
      rw [if_neg last, Array.getElem_push_lt inside, Array.getElem_push_lt inside]
  unfold modifyFunc pushFresh
  rw [fresh]
  exact congrArg (fun funcs => { (g.freshName f.name).2 with funcs }) funcs

theorem Extension.modify_push {κ : Type} (x : Extension κ) (f : Func κ) (value : Expr κ) :
    (x.push f).2.modify (x.push f).1 (·.withInit value) = (x.push (f.withInit value)).2 :=
  congrArg (fun graph => { x with graph }) (x.graph.modifyFunc_pushFresh f (·.withInit value) rfl fun _ => rfl)

/-! ### One func -/

namespace Tangents

section Steps

variable {κ : Type} [Extended κ]

/-- Whether a value reads something that moves. -/
def State.Moves (x : State κ) (e : Expr κ) : Prop := ∃ r ∈ e.reads, (x.active.get? r.target).isSome

/-- A func without updates that is not seeded and reads nothing that moves gets no tangent; otherwise the tangent of its
value is added, unless it has a tangent already. -/
theorem addFunc_cases {g : Graph κ} {x x' : State κ} {f : FuncId} {d : Definition κ}
    (single : (g.func f).definitions = [(.initial, d)]) (run : addFunc g x f = .ok x') :
    ((x.active.get? (.func f)).isSome ∧ x' = x) ∨
    (x.active.get? (.func f) = none ∧ ¬x.Moves d.value ∧ x' = x) ∨
    (x.active.get? (.func f) = none ∧ ∃ value : Expr κ, x'.active = x.active.insert (.func f) x.extension.nextId ∧
      value = x'.tangentOf d.value ∧ x'.extension = (x.extension.push ((tangentFunc g f).withInit value)).2) := by
  unfold addFunc at run
  rw [single] at run
  by_cases active : (x.active.get? (.func f)).isSome
  · rw [if_pos (by rw [Bool.or_eq_true]; exact Or.inl active)] at run
    exact Or.inl ⟨active, (Except.ok.inj run).symm⟩
  have none : x.active.get? (.func f) = none := Option.not_isSome_iff_eq_none.mp active
  have any : ([(Stage.initial, d)].any fun e => e.2.value.reads.any fun r => x.active.contains r.target) = true ↔
      x.Moves d.value := by
    rw [List.any_cons, List.any_nil, Bool.or_false, List.any_eq_true]
    rfl
  have skipped : (x.active.contains (.func f) || !([(Stage.initial, d)].any fun e =>
      e.2.value.reads.any fun r => x.active.contains r.target)) = true ↔ ¬x.Moves d.value := by
    unfold Table.contains at any ⊢
    rw [none, ← any, Option.isSome_none, Bool.false_or, Bool.not_eq_true', Bool.not_eq_true]
  by_cases moves : x.Moves d.value
  · rw [if_neg fun skip => skipped.mp skip moves] at run
    obtain ⟨x₁, added, rest⟩ := bind_eq_ok.mp run
    obtain rfl := pure_eq_ok.mp rest
    obtain rfl := Except.ok.inj added
    exact Or.inr (Or.inr ⟨none, _, rfl, rfl, x.extension.modify_push (tangentFunc g f) _⟩)
  · rw [if_pos (skipped.mpr moves)] at run
    exact Or.inr (Or.inl ⟨none, moves, (Except.ok.inj run).symm⟩)

end Steps

end Tangents

theorem Schedule.Ordered.not_reads {κ : Type} {g : Graph κ} {s : Schedule} (h : s.Ordered g) {done rest : List FuncId}
    {f k : FuncId} (split : s.funcs = done ++ f :: rest) (mem : k ∈ done ++ [f]) :
    ¬(g.func k).Reads .initial (.func f) := by
  rcases List.mem_append.mp mem with early | last
  · exact h.not_reads_ahead split early .initial
  · obtain rfl := List.mem_singleton.mp last
    exact h.layered.initial (split ▸ List.mem_append_right _ List.mem_cons_self)

namespace Tangents

variable {K : Type} [Field K] [LinearOrder K] [FloorRing K] [Transcendental K]

/-- The tangents of the funcs of `done` have been added to `g`; what does not move has none. -/
structure Followed (g : Graph (Exact K)) (S : FuncId → Prop) (seeds : Table Target FuncId) (done : List FuncId)
    (x : State (Exact K)) : Prop where
  ready : x.extension.Ready g S
  known {t : Target} {id : FuncId} : x.active.get? t = some id → x.extension.Known g S (.func id)
  leaf {t : Target} : (∀ f, t ≠ .func f) → x.active.get? t = seeds.get? t
  later {f : FuncId} : f ∉ done → x.active.get? (.func f) = none
  moved {f id : FuncId} {d : Definition (Exact K)} : x.active.get? (.func f) = some id → (g.func f).init = some d →
    x.extension.Added g id ∧
      ∃ name, x.extension.graph.func id = { (tangentFunc g f).withInit (x.tangentOf d.value) with name }
  still {f : FuncId} {d : Definition (Exact K)} : f ∈ done → x.active.get? (.func f) = none →
    (g.func f).init = some d → ¬x.Moves d.value

namespace Followed

variable {g : Graph (Exact K)} {S : FuncId → Prop} {s : Schedule} {seeds : Table Target FuncId} {done : List FuncId}
  {x x' : State (Exact K)} {f id : FuncId} {d : Definition (Exact K)} {root : FuncId} {D : Domain}

theorem start (sorted : g.Sorted S) {table : Table Target FuncId} (known : ∀ t id, table.get? t = some id → S id)
    (leaves : ∀ f, table.get? (.func f) = none) : Followed g S table [] ⟨{ graph := g }, table⟩ := by
  refine ⟨Extension.Ready.start sorted, fun found => Or.inl (known _ _ found), fun _ => rfl, fun _ => leaves _,
    fun {f id d} found => ?_, fun mem => absurd mem List.not_mem_nil⟩
  have found : table.get? (.func f) = some id := found
  rw [leaves] at found
  cases found

theorem neat_tangentOf (h : Followed g S seeds done x) {args : List Name} {e : Expr (Exact K)} {T : Target → Prop}
    (neat : e.Neat args [] T) (sub : ∀ t, T t → x.extension.Known g S t) :
    (x.tangentOf e).Neat args [] (x.extension.Known g S) := by
  refine (neat.tangent sub fun r mem a found => ?_).simplify
  obtain ⟨id, active, rfl⟩ := Option.map_eq_some_iff.mp found
  exact Expr.Neat.call (h.known active) fun a inside =>
    (neat.of_mem_reads mem a inside).mono (fun _ m => m) (fun _ m => m) sub

theorem skip (h : Followed g S seeds done x) (init : (g.func f).init = some d) (unmoved : ¬x.Moves d.value) :
    Followed g S seeds (done ++ [f]) x := by
  refine ⟨h.ready, h.known, h.leaf, fun out => h.later fun m => out (List.mem_append_left _ m), h.moved, ?_⟩
  intro k d' inside still init'
  rcases List.mem_append.mp inside with early | last
  · exact h.still early still init'
  · obtain rfl := List.mem_singleton.mp last
    obtain rfl := Option.some.inj (init.symm.trans init')
    exact unmoved

theorem add (h : Followed g S seeds done x) (ordered : s.Ordered g) (pointwise : g.Pointwise s)
    (below : ∀ f, S f → f.index < g.size) (scheduled : ∀ f ∈ s.funcs, S f) {rest : List FuncId}
    (split : s.funcs = done ++ f :: rest) (init : (g.func f).init = some d) {value : Expr (Exact K)}
    (active : x'.active = x.active.insert (.func f) x.extension.nextId) (same : value = x'.tangentOf d.value)
    (pushed : x'.extension = (x.extension.push ((tangentFunc g f).withInit value)).2) :
    Followed g S seeds (done ++ [f]) x' := by
  have mem : f ∈ s.funcs := by
    rw [split]
    exact List.mem_append_right _ List.mem_cons_self
  obtain ⟨-, size, grows, ⟨name, func⟩, -⟩ := x.extension.push_spec ((tangentFunc g f).withInit value)
  rw [← pushed] at size grows func
  -- what has been added so far does not read `f`, so that its tangent has no part in the others
  have apart {k : FuncId} {e : Definition (Exact K)} (inside : k ∈ done ++ [f]) (init : (g.func k).init = some e)
      {r : Read (Exact K)} (read : r ∈ e.value.reads) : x'.active.get? r.target = x.active.get? r.target := by
    rw [active, Table.get?_insert, if_neg]
    intro self
    exact ordered.not_reads split inside (self ▸ Func.reads_initial init read)
  have tangent {k : FuncId} {e : Definition (Exact K)} (inside : k ∈ done ++ [f]) (init : (g.func k).init = some e) :
      x'.tangentOf e.value = x.tangentOf e.value :=
    congrArg simplify (tangent_congr fun r read => by rw [apart inside init read])
  have last : f ∈ done ++ [f] := List.mem_append_right _ (List.mem_singleton.mpr rfl)
  have neat : value.Neat (g.func f).args [] (x.extension.Known g S) := by
    rw [same, tangent last init]
    exact h.neat_tangentOf (pointwise.neat_lists ordered mem init) fun t listed =>
      Extension.Known.of_based (listed.based scheduled)
  have ready : x'.extension.Ready g S := by
    rw [pushed]
    refine h.ready.push below rfl (fun stage k reads => Or.inl ?_) fun d mem => absurd mem List.not_mem_nil
    exact Func.known_of_reads (f := (tangentFunc g f).withInit value) rfl rfl neat reads
  have added : x'.extension.Added g x.extension.nextId := ⟨h.ready.grows.size, size ▸ Nat.lt_succ_self _⟩
  refine ⟨ready, fun {t id} found => ?_, fun {t} other => ?_, fun {k} out => ?_, fun {k id e} found init' => ?_, ?_⟩
  · rw [active, Table.get?_insert] at found
    split at found
    · obtain rfl := Option.some.inj found
      exact Or.inr added
    · exact (h.known found).grow grows
  · rw [active, Table.get?_insert, if_neg (other f).symm]
    exact h.leaf other
  · rw [active, Table.get?_insert, if_neg]
    · exact h.later fun m => out (List.mem_append_left _ m)
    · rintro ⟨⟩
      exact out last
  · rw [active, Table.get?_insert] at found
    split at found
    · rename_i self
      obtain rfl := Target.func.inj self
      obtain rfl := Option.some.inj found
      obtain rfl := Option.some.inj (init.symm.trans init')
      exact ⟨added, name, same ▸ func⟩
    · have early : k ∈ done := by
        by_contra out
        rw [h.later out] at found
        cases found
      obtain ⟨old, name', func'⟩ := h.moved found init'
      refine ⟨old.grow grows, name', ?_⟩
      rw [grows.func old.2, func', tangent (List.mem_append_left _ early) init']
  · intro k e inside still init' moves
    obtain ⟨r, read, moving⟩ := moves
    rw [apart inside init' read] at moving
    rw [active, Table.get?_insert] at still
    split at still
    · cases still
    · rename_i other
      rcases List.mem_append.mp inside with early | last'
      · exact h.still early still init' ⟨r, read, moving⟩
      · exact other (congrArg Target.func (List.mem_singleton.mp last').symm)

theorem addFunc (h : Followed g S seeds done x) (ordered : s.Ordered g) (pointwise : g.Pointwise s)
    (below : ∀ f, S f → f.index < g.size) (scheduled : ∀ f ∈ s.funcs, S f) {rest : List FuncId}
    (split : s.funcs = done ++ f :: rest) (run : Tangents.addFunc g x f = .ok x') :
    Followed g S seeds (done ++ [f]) x' := by
  have mem : f ∈ s.funcs := by
    rw [split]
    exact List.mem_append_right _ List.mem_cons_self
  have distinct := ordered.nodup
  rw [split] at distinct
  have fresh : f ∉ done := fun early => (List.nodup_append.mp distinct).2.2 f early f List.mem_cons_self rfl
  obtain ⟨d, init⟩ := Option.isSome_iff_exists.mp (ordered.defined f mem)
  have single : (g.func f).definitions = [(.initial, d)] := by
    unfold Func.definitions
    rw [init, pointwise.updates mem]
    rfl
  rcases addFunc_cases single run with ⟨active, -⟩ | ⟨-, unmoved, rfl⟩ | ⟨-, value, active, same, pushed⟩
  · rw [h.later fresh] at active
    cases active
  · exact h.skip init unmoved
  · exact h.add ordered pointwise below scheduled split init active same pushed

theorem run (sorted : g.Sorted S) {table : Table Target FuncId} (known : ∀ t id, table.get? t = some id → S id)
    (leaves : ∀ f, table.get? (.func f) = none) (ordered : s.Ordered g) (pointwise : g.Pointwise s)
    (below : ∀ f, S f → f.index < g.size) (scheduled : ∀ f ∈ s.funcs, S f)
    (run : s.funcs.foldlM (Tangents.addFunc g) ⟨{ graph := g }, table⟩ = .ok x) : Followed g S table s.funcs x :=
  foldlM_invariant run (Followed g S table) (Followed.start sorted known leaves)
    fun _ _ _ _ _ split held step => held.addFunc ordered pointwise below scheduled split step

end Followed

/-! ### How everything moves -/

/-- The changes that the tangents stand for; what has no tangent does not change. -/
def motion (active : Table Target FuncId) (ρ : Valuation K) (t : Target) (q : List Int) : K :=
  (active.get? t).elim 0 fun id => ρ.call id q

theorem represents_motion {active : Table Target FuncId} {ρ : Valuation K} {env : Env K} {Q Q' : Atom → Prop}
    {r : Read (Exact K)} (wider : ∀ a, Q a → Q' a) (plain : ∀ a ∈ r.args, a.Plain ρ env Q)
    (known : ∀ id, active.get? r.target = some id → Q' (.target (.func id))) :
    (((active.get? r.target).map fun id => Expr.call id r.args).getD Expr.zero).Represents ρ env Q'
      (motion active ρ r.target (position ρ env r.args)) := by
  unfold motion
  cases found : active.get? r.target with
  | none => exact Represents.zero
  | some id => exact ⟨(plain_call ρ env Q' id r.args).mpr
      ⟨known id found, fun a inside => (plain a inside).mono wider⟩, value_call ρ env id r.args⟩

namespace Followed

variable {g : Graph (Exact K)} {S : FuncId → Prop} {s : Schedule} {seeds : Table Target FuncId} {x : State (Exact K)}
  {f id root : FuncId} {d : Definition (Exact K)} {D : Domain} {ρ base : Valuation K} {p : List Int}

/-- Where a func is demanded, its tangent is the derivative of its value along the tangents of what it reads. -/
theorem moves (h : Followed g S seeds s.funcs x) (settled : x.extension.Settled g ρ) (agree : ρ.Agree base (Based S))
    (order : g.schedule root = .ok s) (pointwise : g.Pointwise s) (scheduled : ∀ f ∈ s.funcs, S f)
    (sensible : g.Sensible base root D) (dims : D.dims = (g.func root).dims)
    (demanded : g.Demanded base root D (.func f) p) (init : (g.func f).init = some d) :
    motion x.active ρ (.func f) p =
      d.value.derivative base ⟨coordinates (Exact K) (g.func f).args p, []⟩ (motion x.active ρ) := by
  have ordered := (Graph.ordered_schedule order).1
  have mem : f ∈ s.funcs := demanded.lists order
  have length : p.length = (g.func f).args.length := demanded.length order pointwise dims
  have listed := pointwise.neat_lists ordered mem init
  have known : ∀ t, s.Lists t → x.extension.Known g S t := fun t inside =>
    Extension.Known.of_based (inside.based scheduled)
  have based : ρ.Agree base s.Lists := agree.mono fun t inside => inside.based scheduled
  cases active : x.active.get? (.func f) with
  | none =>
    have still : ∀ r ∈ d.value.reads, ∀ q, motion x.active ρ r.target q = 0 := by
      intro r read q
      have none : x.active.get? r.target = none :=
        Option.not_isSome_iff_eq_none.mp fun moving => h.still mem active init ⟨r, read, moving⟩
      unfold motion
      rw [none]
      rfl
    rw [derivative_eq_zero still]
    unfold motion
    rw [active]
    rfl
  | some id =>
    obtain ⟨added, name, func⟩ := h.moved active init
    have settles := settled id added
    rw [func] at settles
    have neat := h.neat_tangentOf listed known
    have equation := settles.call_eq rfl rfl (pointwise.distinct mem) neat.onArgs length
    let env : Env K := ⟨coordinates (Exact K) (g.func f).args p, []⟩
    have strict : d.value.Plain ρ env (Atom.Among (g.func f).args [] s.Lists False) :=
      plain_congr (listed.values_agree based.symm) (listed.strict (sensible.logical demanded init))
    let wide : Atom → Prop := Atom.Among (g.func f).args [] (x.extension.Known g S) False
    have wider : ∀ a, Atom.Among (g.func f).args [] s.Lists False a → wide a :=
      Atom.Among.mono (fun _ m => m) (fun _ m => m) known fun m => m
    have tangent : (d.value.tangent fun r => (x.active.get? r.target).map fun t => .call t r.args).Represents ρ env wide
        (d.value.derivative ρ env (motion x.active ρ)) :=
      represents_tangent (fun logic => logic) strict wider fun r _ plain =>
        represents_motion wider plain fun t found => h.known found
    unfold motion
    rw [active, Option.elim_some]
    refine equation.trans ((tangent.simplify fun logic => logic).value.trans ?_)
    exact derivative_congr (listed.values_agree based) fun _ _ => rfl

end Followed

/-! ### The whole walk -/

end Tangents

end ArrayDiff
