import ArrayDiff.Proofs.Overlap

/-!
# The meaning of a graph

Every func of a graph without cycles has values of its own: at each point the value that it holds over any region for
which it can be computed (`Valuation.Settles`). `Graph.meaning` gives all funcs their values at once; it depends only on
the definitions that can be reached.
-/

namespace ArrayDiff

variable {κ α : Type}

/-- The funcs of `S` are defined, and besides themselves they read only funcs of `S` of smaller rank. -/
structure Graph.Layered (g : Graph κ) (S : FuncId → Prop) (rank : FuncId → Nat) : Prop where
  defined {f : FuncId} : S f → (g.func f).init.isSome
  initial {f : FuncId} : S f → ¬(g.func f).Reads .initial (.func f)
  below {f h : FuncId} {stage : Stage} : S f → (g.func f).Reads stage (.func h) → h ≠ f → S h ∧ rank h < rank f

theorem Schedule.Ordered.layered {g : Graph κ} {s : Schedule} (h : s.Ordered g) :
    g.Layered (· ∈ s.funcs) s.funcs.idxOf := by
  refine ⟨fun {f} mem => h.defined f mem, ?_, ?_⟩
  · intro f mem reads
    obtain ⟨done, rest, split⟩ := List.append_of_mem mem
    have distinct := h.nodup
    rw [split] at distinct
    rcases h.before done f rest split .initial _ reads with earlier | ⟨-, later⟩
    · exact (List.nodup_append.mp distinct).2.2 f earlier f List.mem_cons_self rfl
    · exact later rfl
  · intro f k stage mem reads other
    obtain ⟨done, rest, split⟩ := List.append_of_mem mem
    have distinct := h.nodup
    rw [split] at distinct
    rcases h.before done f rest split stage _ reads with earlier | ⟨self, -⟩
    · have fresh : f ∉ done := fun mem => (List.nodup_append.mp distinct).2.2 f mem f List.mem_cons_self rfl
      refine ⟨split ▸ List.mem_append_left _ earlier, ?_⟩
      rw [split, List.idxOf_append_of_mem earlier, List.idxOf_append_of_notMem fresh, List.idxOf_cons_self]
      exact (List.idxOf_lt_length_of_mem earlier).trans_le (Nat.le_add_right _ _)
    · exact absurd self other

variable [Scalar κ] [Scalar α] [Embed κ α]

/-- The func holds the value at the point when it is computed over some region. -/
def Func.Holds (P : Answers α) (f : FuncId) (func : Func κ) (p : List Int) (v : α) : Prop :=
  ∃ R A, func.contents? P f R = some A ∧ A p = some v

/-- Over every region, `f` holds the values that `ρ` gives it. -/
def Valuation.Settles (ρ : Valuation α) (f : FuncId) (func : Func κ) : Prop :=
  ∀ p v, func.Holds ρ.answers f p v → ρ.call f p = v

theorem Func.Holds.follow {P P' : Answers α} {T : FuncId → Prop} {f : FuncId} {func : Func κ} {p : List Int} {v : α}
    (h : P.Follows P' T) (within : ∀ stage g, func.Reads stage (.func g) → g ≠ f ∨ stage = .initial → T g)
    (held : func.Holds P f p v) : func.Holds P' f p v := by
  obtain ⟨R, A, run, value⟩ := held
  exact ⟨R, A, Func.contents?_follow h within run, value⟩

theorem Func.Holds.unique [ExactIndex κ α] {P : Answers α} {f : FuncId} {func : Func κ} {p : List Int} {v w : α}
    (distinct : ∀ d ∈ func.updates, d.DistinctFree) (hv : func.Holds P f p v) (hw : func.Holds P f p w) : v = w := by
  obtain ⟨R, A, run, value⟩ := hv
  obtain ⟨R', A', run', value'⟩ := hw
  exact Func.contents?_agree distinct (fun _ => ⟨R.addressed, R'.addressed⟩) run run' p v w value value'

open Classical in
/-- Something with a property, if there is such a thing. -/
noncomputable def chosen {A : Type} (H : A → Prop) (otherwise : A) : A := if h : ∃ v, H v then h.choose else otherwise

theorem chosen_eq {A : Type} {H : A → Prop} {otherwise v : A} (held : H v) (unique : ∀ w, H w → w = v) :
    chosen H otherwise = v := by
  have some : ∃ v, H v := ⟨v, held⟩
  unfold chosen
  rw [dif_pos some]
  exact unique _ some.choose_spec

namespace Graph

variable (g : Graph κ) (leaves : Valuation α)

/-- The values of funcs whose calls are nested less deep than the first argument says. -/
noncomputable def approximation : Nat → Valuation α
  | 0 => leaves
  | depth + 1 =>
    { leaves with
      call := fun f p => chosen ((g.func f).Holds (approximation depth).answers f p) (leaves.call f p) }

open Classical in
/-- The values that the approximations settle on. -/
noncomputable def meaning : Valuation α :=
  { leaves with
    call := fun f =>
      if h : ∃ n, ∀ m, n ≤ m → (g.approximation leaves m).call f = (g.approximation leaves n).call f
      then (g.approximation leaves h.choose).call f else leaves.call f }

@[simp] theorem meaning_load : (g.meaning leaves).load = leaves.load := rfl

@[simp] theorem meaning_param : (g.meaning leaves).param = leaves.param := rfl

variable {g leaves} {S : FuncId → Prop} {rank : FuncId → Nat}

theorem approximation_load (n : Nat) : (g.approximation leaves n).load = leaves.load := by
  cases n <;> rfl

theorem approximation_param (n : Nat) : (g.approximation leaves n).param = leaves.param := by
  cases n <;> rfl

theorem holds_congr {func : Func κ} {f : FuncId} {ρ ρ' : Valuation α} (load : ρ.load = ρ'.load)
    (param : ρ.param = ρ'.param)
    (call : ∀ stage h, func.Reads stage (.func h) → h ≠ f ∨ stage = .initial → ρ.call h = ρ'.call h) :
    func.Holds ρ.answers f = func.Holds ρ'.answers f := by
  have one {ρ ρ' : Valuation α} (load : ρ.load = ρ'.load) (param : ρ.param = ρ'.param)
      (call : ∀ stage h, func.Reads stage (.func h) → h ≠ f ∨ stage = .initial → ρ.call h = ρ'.call h) (p : List Int)
      (v : α) (held : func.Holds ρ.answers f p v) : func.Holds ρ'.answers f p v := by
    have follows : ρ.answers.Follows ρ'.answers fun h => ρ.call h = ρ'.call h := by
      refine ⟨?_, ?_, ?_⟩
      · intro h q w same answer
        rw [← answer]
        exact congrArg some (congrFun same q).symm
      · intro b q w answer
        rw [← answer]
        exact congrArg some (by rw [load])
      · intro i w answer
        rw [← answer]
        exact congrArg some (by rw [param])
    exact held.follow follows call
  funext p v
  exact propext ⟨one load param call p v,
    one load.symm param.symm (fun stage h reads other => (call stage h reads other).symm) p v⟩

omit [Scalar κ] in
theorem Layered.reads_below (layers : g.Layered S rank) {f h : FuncId} {stage : Stage} (mem : S f)
    (reads : (g.func f).Reads stage (.func h)) (other : h ≠ f ∨ stage = .initial) : S h ∧ rank h < rank f := by
  refine layers.below mem reads (other.elim id ?_)
  rintro rfl rfl
  exact layers.initial mem reads

theorem approximation_stable (layers : g.Layered S rank) {f : FuncId} (mem : S f) {n m : Nat} (hn : rank f < n)
    (hm : rank f < m) : (g.approximation leaves n).call f = (g.approximation leaves m).call f := by
  induction n generalizing f m with
  | zero => omega
  | succ n ih =>
    cases m with
    | zero => omega
    | succ m =>
      have same : (g.func f).Holds (g.approximation leaves n).answers f =
          (g.func f).Holds (g.approximation leaves m).answers f := by
        refine holds_congr ?_ ?_ fun stage h reads other => ?_
        · rw [approximation_load, approximation_load]
        · rw [approximation_param, approximation_param]
        · obtain ⟨inside, less⟩ := layers.reads_below mem reads other
          exact ih inside (by omega) (by omega)
      funext p
      simp only [approximation, same]

theorem meaning_eq_approximation (layers : g.Layered S rank) {f : FuncId} (mem : S f) {n : Nat} (hn : rank f < n) :
    (g.meaning leaves).call f = (g.approximation leaves n).call f := by
  have settled : ∃ n, ∀ m, n ≤ m → (g.approximation leaves m).call f = (g.approximation leaves n).call f :=
    ⟨rank f + 1, fun m le => approximation_stable layers mem (by omega) (by omega)⟩
  have unfolded : (g.meaning leaves).call f = (g.approximation leaves settled.choose).call f := dif_pos settled
  rw [unfolded, ← settled.choose_spec (max settled.choose n) (le_max_left _ _)]
  exact approximation_stable layers mem (lt_of_lt_of_le hn (le_max_right _ _)) hn

/-- The meaning of a graph gives every func the values that it holds. -/
theorem meaning_settles [ExactIndex κ α] (layers : g.Layered S rank) {f : FuncId} (mem : S f)
    (distinct : ∀ d ∈ (g.func f).updates, d.DistinctFree) : (g.meaning leaves).Settles f (g.func f) := by
  intro p v held
  have same : (g.func f).Holds (g.meaning leaves).answers f =
      (g.func f).Holds (g.approximation leaves (rank f)).answers f := by
    refine holds_congr ?_ ?_ fun stage h reads other => ?_
    · rw [meaning_load, approximation_load]
    · rw [meaning_param, approximation_param]
    · obtain ⟨inside, less⟩ := layers.reads_below mem reads other
      exact meaning_eq_approximation layers inside less
  rw [same] at held
  rw [meaning_eq_approximation layers mem (Nat.lt_succ_self _)]
  exact chosen_eq held fun w other => other.unique distinct held

end Graph

theorem Func.holds_of_value? {P : Answers α} {f : FuncId} {func : Func κ} (pointwise : func.updates = [])
    {d : Definition κ} (init : func.init = some d) {p : List Int} {v : α}
    (value : d.value.value? P ⟨coordinates κ func.args p, []⟩ = some v) : func.Holds P f p v := by
  let A : Contents α := fun q =>
    if q ∈ (Domain.single p).points then d.value.value? P ⟨coordinates κ func.args q, []⟩ else none
  have held : A p = some v := (if_pos (Domain.mem_single.mpr rfl)).trans value
  have begun : func.start? P (Domain.single p) = some A := by
    refine Func.start?_eq_some.mpr ⟨d, init, fun q mem => ?_, rfl⟩
    rw [Domain.mem_single.mp mem, held]
    rfl
  refine ⟨Domain.single p, A, ?_, held⟩
  unfold contents?
  rw [begun, pointwise]
  rfl

theorem Func.value?_of_holds {P : Answers α} {f : FuncId} {func : Func κ} (pointwise : func.updates = [])
    {d : Definition κ} (init : func.init = some d) {p : List Int} {v : α} (held : func.Holds P f p v) :
    d.value.value? P ⟨coordinates κ func.args p, []⟩ = some v := by
  obtain ⟨R, A, run, value⟩ := held
  obtain ⟨B, begun, run⟩ := Option.bind_eq_some_iff.mp run
  rw [pointwise] at run
  obtain rfl := Option.some.inj run
  obtain ⟨d', found, -, rfl⟩ := Func.start?_eq_some.mp begun
  obtain rfl := Option.some.inj (found.symm.trans init)
  exact (Option.ite_none_right_eq_some.mp value).2

/-- The variables of an initial definition are arguments of the func. -/
structure Expr.OnArgs (e : Expr κ) (names : List Name) : Prop where
  vars {x : Name} : .var x ∈ e.nodes → x ∈ names
  rvars {x : Name} : .rvar x ∉ e.nodes

/-- A valuation that settles a func without updates solves the equation of its initial definition. -/
theorem Valuation.Settles.call_eq {ρ : Valuation α} {f : FuncId} {func : Func κ} (h : ρ.Settles f func)
    (pointwise : func.updates = []) {d : Definition κ} (init : func.init = some d) (distinct : func.args.Nodup)
    (bound : d.value.OnArgs func.args) {p : List Int} (length : p.length = func.args.length) :
    ρ.call f p = d.value.value ρ ⟨coordinates κ func.args p, []⟩ := by
  refine h p _ (Func.holds_of_value? pointwise init (Expr.value?_answers (fun x mem => ?_) fun x mem => ?_))
  · obtain ⟨i, inside, rfl⟩ := List.mem_iff_getElem.mp (bound.vars mem)
    have value : p[i]? = some p[i] := List.getElem?_eq_getElem (by omega)
    rw [lookup_coordinates distinct (List.getElem?_eq_getElem inside) value]
    rfl
  · exact absurd mem bound.rvars

end ArrayDiff
