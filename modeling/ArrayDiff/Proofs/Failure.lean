import ArrayDiff.Proofs.Derivative
import ArrayDiff.Proofs.Outcome

/-!
# Where errors come from

An evaluation whose reads can fail gives the value that it has when all reads succeed (`Expr.value_of_eval`), and it
fails only with the error of a variable without a value or of a read that it performs (`Expr.failure_of_eval`). This
stays so when other variables get values.
-/

namespace ArrayDiff

variable {κ α ε : Type} [Scalar α] [Embed κ α]

namespace Reader

/-- How a read of a target is answered. -/
def read (r : Reader (Except ε) α) : Target → List Int → Except ε α
  | .func f, p => r.call f p
  | .buffer b, p => r.load b p
  | .param i, _ => r.param i

/-- The answers to the reads that succeed; 0 for the others. -/
def valuation (r : Reader (Except ε) α) : Valuation α where
  call f p := (r.call f p).toOption.getD Scalar.zero
  load b p := (r.load b p).toOption.getD Scalar.zero
  param i := (r.param i).toOption.getD Scalar.zero

end Reader

namespace Env

/-- Every variable that has a value keeps it. -/
structure Extends (env env' : Env α) : Prop where
  vars {x : Name} {v : α} : env.vars.lookup x = some v → env'.vars.lookup x = some v
  rvars {x : Name} {v : α} : env.rvars.lookup x = some v → env'.rvars.lookup x = some v

omit [Scalar α] [Embed κ α] in
theorem Extends.refl (env : Env α) : env.Extends env := ⟨id, id⟩

end Env

/-- A computation that succeeds agrees with a total one. -/
def Lifting.succeeds : Lifting (Except ε) Id where
  rel S c d := ∀ x, c = .ok x → S x d
  rel_pure same := by rintro _ ⟨⟩; exact same
  rel_bind first next z run := by
    obtain ⟨x, value, run⟩ := bind_eq_ok.mp run
    exact next x _ (first x value) z run

namespace Expr

variable {r : Reader (Except ε) α} {env env' : Env α} {e : Expr κ} {args : List (Expr κ)} {error : ε}

theorem exists_of_evalIndex_error (run : evalIndex r env args = .error error) :
    ∃ a ∈ args, a.eval r env = .error error := by
  induction args with
  | nil => cases run
  | cons a as ih =>
    rcases bind_eq_error.mp run with failed | ⟨x, -, run⟩
    · exact ⟨a, List.mem_cons_self, failed⟩
    rcases bind_eq_error.mp run with failed | ⟨p, -, run⟩
    · obtain ⟨b, mem, fails⟩ := ih failed
      exact ⟨b, List.mem_cons_of_mem a mem, fails⟩
    · cases run

variable (strict : ∀ x v, r.unbound x ≠ .ok v) (wide : env.Extends env')

section Values

include strict wide

theorem related_valuation : Related Lifting.succeeds Eq r r.valuation.reader env env' e := by
  have answered {d : Except ε α} (v : α) (run : d = .ok v) : v = (d.toOption.getD Scalar.zero) := by
    rw [run]
    rfl
  have bound {found found' : Option α} (keep : ∀ v, found = some v → found' = some v) (x : Name) :
      Lifting.succeeds.rel Eq (found.elim (r.unbound x) pure)
        (found'.elim (r.valuation.reader.unbound x) pure : Id α) := by
    cases found with
    | none => exact fun v run => absurd run (strict x v)
    | some v =>
      rw [keep v rfl]
      exact Lifting.succeeds.rel_pure rfl
  exact ⟨fun _ => rfl, fun x _ => bound (fun _ => wide.vars) x, fun x _ => bound (fun _ => wide.rvars) x,
    fun _ _ _ _ => answered, fun _ _ => answered, fun _ => answered⟩

theorem value_of_eval {v : α} (run : e.eval r env = .ok v) : v = e.value r.valuation env' :=
  eval_rel Respected.eq (related_valuation strict wide) v run

theorem position_of_evalIndex {p : List Int} (run : evalIndex r env args = .ok p) :
    p = position r.valuation env' args :=
  (evalIndex_related Respected.eq (fun _ _ => related_valuation strict wide) p run).trans (run_evalIndex _ _ _)

end Values

/-- The error is that of a variable without a value or of a read that evaluating `e` performs. -/
def Fails (r : Reader (Except ε) α) (env : Env α) (e : Expr κ) (error : ε) : Prop :=
  (∃ x, r.unbound x = .error error) ∨ ∃ t p, e.Performs r.valuation env t p ∧ r.read t p = .error error

theorem Fails.map {a : Expr κ} (h : a.Fails r env error)
    (wider : ∀ x, Visits r.valuation env a x → Visits r.valuation env e x) : e.Fails r env error :=
  h.imp_right fun ⟨t, p, performs, failed⟩ => ⟨t, p, performs.map wider, failed⟩

include strict wide

theorem failure_of_eval (run : e.eval r env = .error error) : e.Fails r env' error := by
  -- the value that decides about a later operand is the one of the valuation
  have decided {a : Expr κ} {x : α} (value : a.eval r env = .ok x) {b : Bool} (zero : Scalar.isZero x = b) :
      Scalar.isZero (a.value r.valuation env') = b := value_of_eval strict wide value ▸ zero
  have unbound {found : Option α} {x : Name} (run : found.elim (r.unbound x) pure = .error error) :
      r.unbound x = .error error := by
    cases found with
    | none => exact run
    | some v => cases run
  induction e with
  | const c => cases run
  | var x => exact Or.inl ⟨x, unbound run⟩
  | rvar x => exact Or.inl ⟨x, unbound run⟩
  | param i => exact Or.inr ⟨.param i, [], ⟨_, ⟨.param i, []⟩, .self _, rfl, rfl, rfl⟩, run⟩
  | call f args ih =>
    rcases bind_eq_error.mp run with failed | ⟨p, index, failed⟩
    · obtain ⟨a, mem, failed⟩ := exists_of_evalIndex_error failed
      exact (ih a mem failed).map fun x => .call mem
    · exact Or.inr ⟨.func f, p, ⟨_, ⟨.func f, args⟩, .self _, rfl, rfl, (position_of_evalIndex strict wide index).symm⟩,
        failed⟩
  | load b args ih =>
    rcases bind_eq_error.mp run with failed | ⟨p, index, failed⟩
    · obtain ⟨a, mem, failed⟩ := exists_of_evalIndex_error failed
      exact (ih a mem failed).map fun x => .load mem
    · exact Or.inr ⟨.buffer b, p,
        ⟨_, ⟨.buffer b, args⟩, .self _, rfl, rfl, (position_of_evalIndex strict wide index).symm⟩, failed⟩
  | unary op a ih =>
    rcases bind_eq_error.mp run with failed | ⟨x, -, run⟩
    · exact (ih failed).map fun x => .unary
    · cases run
  | binary op a b iha ihb =>
    rcases bind_eq_error.mp run with failed | ⟨x, -, run⟩
    · exact (iha failed).map fun x => .binaryLeft
    rcases bind_eq_error.mp run with failed | ⟨y, -, run⟩
    · exact (ihb failed).map fun x => .binaryRight
    · cases run
  | compare op a b iha ihb =>
    rcases bind_eq_error.mp run with failed | ⟨x, -, run⟩
    · exact (iha failed).map fun x => .compareLeft
    rcases bind_eq_error.mp run with failed | ⟨y, -, run⟩
    · exact (ihb failed).map fun x => .compareRight
    · cases run
  | and a b iha ihb =>
    rcases bind_eq_error.mp run with failed | ⟨x, first, run⟩
    · exact (iha failed).map fun x => .andLeft
    split at run
    · cases run
    rename_i zero
    rcases bind_eq_error.mp run with failed | ⟨y, -, run⟩
    · exact (ihb failed).map fun x => .andRight (decided first (Bool.not_eq_true _ ▸ zero))
    · cases run
  | or a b iha ihb =>
    rcases bind_eq_error.mp run with failed | ⟨x, first, run⟩
    · exact (iha failed).map fun x => .orLeft
    split at run
    · rename_i zero
      rcases bind_eq_error.mp run with failed | ⟨y, -, run⟩
      · exact (ihb failed).map fun x => .orRight (decided first zero)
      · cases run
    · cases run
  | not a ih =>
    rcases bind_eq_error.mp run with failed | ⟨x, -, run⟩
    · exact (ih failed).map fun x => .not
    · cases run
  | select c t f ihc iht ihf =>
    rcases bind_eq_error.mp run with failed | ⟨x, first, run⟩
    · exact (ihc failed).map fun x => .condition
    split at run
    · rename_i zero
      exact (ihf run).map fun x => .onFalse (decided first zero)
    · rename_i zero
      exact (iht run).map fun x => .onTrue (decided first (Bool.not_eq_true _ ▸ zero))

end Expr

end ArrayDiff
