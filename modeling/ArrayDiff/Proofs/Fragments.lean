import ArrayDiff.Proofs.Contribution
import ArrayDiff.Proofs.Lawful

/-!
# Terms that fit their target

Every contribution is written in the variables of its target (`fits_contribution`), for each kind of term for a reason of
its own: a pointwise one has solved for all variables of its reader, one that runs over the reader has turned them into
reduction variables, and a mask stands at a position that its func accepts. Funcs made from such terms are lawful.
-/

namespace ArrayDiff

variable {κ : Type} {R R' : Target → Nat → Prop} {args : List Name}

/-- The parts of a term use variables of the target only where it adds a value everywhere; positions are ones that a func
with these arguments accepts. -/
def Term.Fits (args : List Name) (R : Target → Nat → Prop) : Term κ → Prop
  | gather value => value.Fits (· ∈ args) R
  | scatter lhs value _ => lhs.length = args.length ∧ ∀ e ∈ lhs ++ [value], e.Fits (fun _ => False) R
  | mask lhs _ => (∀ f : Func κ, f.args = args → f.Accepts lhs) ∧ ∀ e ∈ lhs, e.Fits (fun _ => True) R

theorem Term.Fits.mono {t : Term κ} (h : t.Fits args R) (wider : ∀ t n, R t n → R' t n) : t.Fits args R' := by
  cases t with
  | gather value => exact Expr.Fits.mono h (fun _ mem => mem) wider
  | scatter lhs value rdom => exact h.imp_right fun fits e mem => (fits e mem).mono (fun _ none => none) wider
  | mask lhs rdom => exact h.imp_right fun fits e mem => (fits e mem).mono (fun _ any => any) wider

section Slots

variable [Extended κ] {terms : List (Term κ)} {acc id : FuncId} {init body : Expr κ} {s : Site}

theorem fits_leadingSum (h : ∀ t ∈ terms, t.Fits args R) : (leadingSum terms).Fits (· ∈ args) R := by
  unfold leadingSum
  have leading : ∀ t ∈ terms.takeWhile (·.gather?.isSome), t.Fits args R := fun t mem =>
    h t (List.takeWhile_subset _ mem)
  generalize terms.takeWhile (·.gather?.isSome) = l at leading
  suffices general : ∀ sum : Expr κ, sum.Fits (· ∈ args) R →
      (l.foldl (fun sum t => t.gather?.elim sum (Smart.add sum)) sum).Fits (· ∈ args) R from
    general .zero (Expr.fits_const _)
  induction l with
  | nil => exact fun sum fits => fits
  | cons t l ih =>
    intro sum fits
    obtain ⟨own, rest⟩ := List.forall_mem_cons.mp leading
    refine ih rest _ ?_
    cases t with
    | gather value => exact fits.add own
    | scatter | mask => exact fits

theorem Term.Fits.toUpdate {t : Term κ} (h : t.Fits args R) (distinct : args.Nodup) {f : Func κ} (same : f.args = args)
    (acc : FuncId) : f.Accepts (t.toUpdate acc (args.map .var)).lhs ∧
      ∀ e ∈ (t.toUpdate acc (args.map .var)).exprs,
        e.Fits (t.toUpdate acc (args.map .var)).Binds (Func.OrSelf R acc f.dims) := by
  subst same
  have wide {V : Name → Prop} {e : Expr κ} (fits : e.Fits V R) : e.Fits V (Func.OrSelf R acc f.dims) :=
    fits.mono (fun _ free => free) fun t n => Or.inl
  have call {V : Name → Prop} {es : List (Expr κ)} (length : es.length = f.dims) (fits : ∀ e ∈ es, e.Fits V R) :
      (Expr.call acc es).Fits V (Func.OrSelf R acc f.dims) :=
    Expr.fits_call.mpr ⟨Or.inr ⟨rfl, length⟩, fun e mem => wide (fits e mem)⟩
  cases t with
  | gather value =>
    have binds (x : Name) : x ∈ f.args → ((Term.gather value).toUpdate acc f.argExprs).Binds x :=
      (Func.binds_args rfl).mpr
    have vars : ∀ e ∈ f.argExprs, e.Fits ((Term.gather value).toUpdate acc f.argExprs).Binds R := Expr.fits_vars binds
    have value : value.Fits ((Term.gather value).toUpdate acc f.argExprs).Binds R := Expr.Fits.mono h binds fun _ _ r => r
    refine ⟨Func.accepts_args distinct, List.forall_mem_append.mpr ⟨fun e mem => wide (vars e mem), ?_⟩⟩
    exact List.forall_mem_singleton.mpr ((call (List.length_map _) vars).add (wide value))
  | scatter lhs value rdom =>
    obtain ⟨length, closed⟩ := h
    have fits (e : Expr κ) (mem : e ∈ lhs ++ [value]) :
        e.Fits ((Term.scatter lhs value rdom).toUpdate acc f.argExprs).Binds R :=
      (closed e mem).mono (fun _ => False.elim) fun _ _ r => r
    obtain ⟨position, own⟩ := List.forall_mem_append.mp fits
    refine ⟨Func.accepts_of_closed length fun e mem => closed e (List.mem_append_left _ mem),
      List.forall_mem_append.mpr ⟨fun e mem => wide (position e mem), ?_⟩⟩
    exact List.forall_mem_singleton.mpr ((call length position).add (wide (List.forall_mem_singleton.mp own)))
  | mask lhs rdom =>
    obtain ⟨accepted, fits⟩ := h
    refine ⟨accepted f rfl, List.forall_mem_append.mpr ⟨fun e mem => wide ?_, ?_⟩⟩
    · exact Expr.fits_iff.mpr ⟨fun x free => ⟨e, mem, free⟩, fun r read => (fits e mem).reads read⟩
    · exact List.forall_mem_singleton.mpr (Expr.fits_const _)

theorem drafted_accumulator (distinct : s.args.Nodup) (first : init.Fits (· ∈ s.args) R)
    (later : ∀ t ∈ terms, t.Fits s.args R) : (s.accumulator acc init terms).Drafted R acc := by
  refine ⟨fun found => ?_, fun {d} mem => ?_⟩
  · obtain rfl := Option.some.inj found
    exact ⟨rfl, first⟩
  · obtain ⟨t, listed, rfl⟩ := List.mem_map.mp mem
    exact (later t listed).toUpdate distinct rfl acc

theorem drafted_bounded (fits : body.Fits (· ∈ s.args) R) : (s.bounded body).Drafted R id := by
  refine ⟨fun found => ?_, fun mem => absurd mem List.not_mem_nil⟩
  obtain rfl := Option.some.inj found
  refine ⟨rfl, ?_⟩
  change (if body.isZero then body else _ : Expr κ).Fits _ _
  split
  · exact fits
  · exact (Expr.fits_containsExpr _ (Expr.fits_vars fun _ mem => mem)).select fits (Expr.fits_const _)

/-- Funcs made from terms that fit are lawful, and the bounded one has the arity of the target. -/
theorem Site.lawful_materialize {g : Graph κ} {T : FuncId → Prop} {x : Extension κ} (h : x.Lawful g T)
    (distinct : s.args.Nodup) (fits : ∀ t ∈ terms, t.Fits s.args (x.graph.Admits T)) :
    ∃ T', (s.materialize x terms).2.Lawful g T' ∧ x.Widens g T (s.materialize x terms).2 T' ∧
      (s.materialize x terms).2.graph.Admits T' (.func (s.materialize x terms).1.bounded) s.args.length := by
  have first := fits_leadingSum fits
  unfold materialize
  dsimp only
  split
  · exact ⟨_, h.push rfl (drafted_bounded first)⟩
  · have later : ∀ t ∈ laterTerms terms, t.Fits s.args (x.graph.Admits T) := fun t mem =>
      fits t (List.dropWhile_subset _ mem)
    obtain ⟨lawful, widens, admitted⟩ := h.push (f := s.accumulator x.nextId (leadingSum terms) (laterTerms terms)) rfl
      (drafted_accumulator distinct first later)
    -- the accumulator is there when the bounded func that calls it is added
    have call := Expr.fits_callVars (κ := κ) admitted
    obtain ⟨lawful, widens', admitted⟩ := lawful.push rfl (drafted_bounded call)
    exact ⟨_, lawful, widens.trans widens', admitted⟩

end Slots

/-! ### Contributions -/

theorem Func.Accepts.mem_liveVars {reader : Func κ} {d : Definition κ} (h : reader.Accepts d.lhs) {x : Name}
    (binds : d.Binds x) : x ∈ reader.liveVars d := by
  obtain ⟨a, mem, free⟩ := binds
  obtain ⟨i, at'⟩ := List.mem_iff_getElem?.mp mem
  obtain ⟨rfl, place⟩ := h.placed at' free
  refine List.mem_filter.mpr ⟨?_, List.any_eq_true.mpr ⟨.var x, mem, by simp [Expr.varName?]⟩⟩
  obtain ⟨less, same, -⟩ := List.findIdx?_eq_some_iff_getElem.mp place
  exact of_decide_eq_true same ▸ List.getElem_mem less

section Contributions

variable [Extended κ] {reader : Func κ} {region : Domain} {d : Definition κ} {targetVars : List Name}
  {args : List (Expr κ)} {value : Expr κ} {t : Term κ}

/-- Solved variables are live and distinct, and solutions and guards use variables of the target only. -/
structure Inversion.Fits (live targetVars : List Name) (R : Target → Nat → Prop) (inv : Inversion κ) : Prop where
  known : inv.solved.keys ⊆ live
  distinct : inv.solved.keys.Nodup
  solved {x : Name} {e : Expr κ} : inv.solved.get? x = some e → e.Fits (· ∈ targetVars) R
  guards : ∀ e ∈ inv.guards, e.Fits (· ∈ targetVars) R

theorem Inversion.Fits.solve? {live : List Name} {inv inv' : Inversion κ} {t : Name} {arg : Expr κ}
    (h : inv.Fits live targetVars R) (own : t ∈ targetVars)
    (found : inv.solve? reader region live t arg = some inv') : inv'.Fits live targetVars R := by
  have var : (Expr.var t : Expr κ).Fits (· ∈ targetVars) R := Expr.fits_var.mpr own
  rcases solve?_eq_some found with ⟨k, -, rfl⟩ | ⟨a, range, -, known, fresh, -, rfl⟩
  · refine ⟨h.known, h.distinct, h.solved, List.forall_mem_append.mpr ⟨h.guards, ?_⟩⟩
    exact List.forall_mem_singleton.mpr (var.compare _ (Expr.fits_const _))
  · obtain ⟨keys, absent⟩ := keys_insert (e := a.inverse (.var t)) fresh
    have inverse : (a.inverse (.var t) : Expr κ).Fits (· ∈ targetVars) R := by
      unfold Affine.inverse
      split
      · exact var.sub (Expr.fits_const _)
      · exact (Expr.fits_const _).sub var
    refine ⟨?_, ?_, fun {x e} entry => ?_, List.forall_mem_append.mpr ⟨h.guards, ?_⟩⟩
    · rw [keys]
      exact List.cons_subset.mpr ⟨known, h.known⟩
    · rw [keys]
      exact List.nodup_cons.mpr ⟨absent, h.distinct⟩
    · rw [Table.get?_insert] at entry
      split at entry
      · exact Option.some.inj entry ▸ inverse
      · exact h.solved entry
    · exact List.forall_mem_cons.mpr ⟨inverse.compare _ (Expr.fits_const _),
        List.forall_mem_singleton.mpr (inverse.compare _ (Expr.fits_const _))⟩

theorem fits_gather {g : Expr κ} (accepted : reader.Accepts d.lhs) (fits : value.Fits d.Binds R)
    (found : gather? reader region d targetVars args value = some g) : g.Fits (· ∈ targetVars) R := by
  obtain ⟨-, inv, solves, all, rfl⟩ := solved_of_gather? found
  have start : (({} : Inversion κ).Fits (reader.liveVars d).eraseDups targetVars R) :=
    ⟨List.nil_subset _, List.nodup_nil, fun entry => (nomatch entry), fun e none => absurd none List.not_mem_nil⟩
  have run : inv.Fits (reader.liveVars d).eraseDups targetVars R := by
    have inside : ∀ pair ∈ targetVars.zip args, pair.1 ∈ targetVars := fun pair mem => (List.of_mem_zip mem).1
    generalize targetVars.zip args = pairs at solves inside
    generalize ({} : Inversion κ) = first at solves start
    induction pairs generalizing first with
    | nil => exact Option.some.inj solves ▸ start
    | cons pair pairs ih =>
      obtain ⟨own, rest⟩ := List.forall_mem_cons.mp inside
      rw [List.foldlM_cons] at solves
      obtain ⟨next, step, solves⟩ := Option.bind_eq_some_iff.mp solves
      exact ih rest next solves (start.solve? own step)
  refine Expr.Fits.select (Smart.everywhere_all Expr.kept_allowed run.guards) ?_ (Expr.fits_const _)
  refine (fits.bind (fun x binds => ?_) fun x => Expr.fits_rvar x).simplify
  -- as many variables are solved as are live, so that all of them are
  have live : x ∈ (reader.liveVars d).eraseDups := List.mem_eraseDups.mpr (accepted.mem_liveVars binds)
  have covered := (List.subperm_of_subset run.distinct run.known).perm_of_length_le all.ge
  obtain ⟨e, entry⟩ := Table.mem_keys.mp (covered.mem_iff.mpr live)
  rw [entry]
  exact run.solved entry

theorem fits_scatter (accepted : reader.Accepts d.lhs) (length : args.length = targetVars.length)
    (own : ∀ a ∈ args, a.Fits d.Binds R) (fits : value.Fits d.Binds R)
    (found : scatter? reader region d args value = some t) : t.Fits targetVars R := by
  unfold scatter? at found
  obtain ⟨dims, -, found⟩ := Option.bind_eq_some_iff.mp found
  split at found
  · cases found
  obtain rfl := Option.some.inj found
  have renamed (e : Expr κ) (fits : e.Fits d.Binds R) :
      ((e.substitute fun x =>
        if x ∈ reader.liveVars d then some (.rvar (scatterVar reader x)) else none).simplify).Fits
        (fun _ => False) R := by
    refine (fits.bind (fun x binds => ?_) fun x => Expr.fits_rvar x).simplify
    rw [if_pos (accepted.mem_liveVars binds)]
    exact Expr.fits_rvar _
  refine ⟨(List.length_map _).trans length, List.forall_mem_append.mpr ⟨?_, ?_⟩⟩
  · exact List.forall_mem_map.mpr fun a mem => renamed a (own a mem)
  · exact List.forall_mem_singleton.mpr (renamed value fits)

theorem fits_contribution (accepted : reader.Accepts d.lhs) (length : args.length = targetVars.length)
    (own : ∀ a ∈ args, a.Fits d.Binds R) (fits : value.Fits d.Binds R)
    (found : contribution? reader region d targetVars args value = some t) : t.Fits targetVars R := by
  unfold contribution? at found
  dsimp only at found
  split at found
  · cases found
  split at found
  · rename_i pointwise
    obtain rfl := Option.some.inj found
    exact fits_gather accepted fits.simplify pointwise
  · exact fits_scatter accepted length own fits.simplify found

end Contributions

end ArrayDiff
