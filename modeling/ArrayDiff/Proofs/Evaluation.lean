import Mathlib.Logic.Basic
import ArrayDiff.Expr.Eval
import ArrayDiff.Expr.Substitution

/-!
# Values of expressions

`Expr.value` is the value of an expression when every read and every variable has one. `bind_rel` relates an evaluation
of an expression with its variables replaced to one of the expression itself, in two monads, with two kinds of numbers
and two ways of answering reads; every fact that compares evaluations is an instance of it, or of `eval_rel`, where
nothing is replaced.
-/

namespace ArrayDiff

variable {κ α β : Type}

namespace Expr

/-- Induction on the tree; arguments of reads count as subexpressions. -/
@[elab_as_elim, induction_eliminator]
theorem induct {motive : Expr κ → Prop}
    (const : ∀ c, motive (const c)) (var : ∀ x, motive (var x)) (rvar : ∀ x, motive (rvar x))
    (param : ∀ p, motive (param p))
    (call : ∀ f args, (∀ a ∈ args, motive a) → motive (call f args))
    (load : ∀ b args, (∀ a ∈ args, motive a) → motive (load b args))
    (unary : ∀ op a, motive a → motive (unary op a))
    (binary : ∀ op a b, motive a → motive b → motive (binary op a b))
    (compare : ∀ op a b, motive a → motive b → motive (compare op a b))
    (and : ∀ a b, motive a → motive b → motive (and a b))
    (or : ∀ a b, motive a → motive b → motive (or a b))
    (not : ∀ a, motive a → motive (not a))
    (select : ∀ c t f, motive c → motive t → motive f → motive (select c t f))
    (e : Expr κ) : motive e :=
  @Expr.rec κ motive (fun es => ∀ e ∈ es, motive e)
    const var rvar param call load unary binary compare and or not select
    (fun _ h => absurd h List.not_mem_nil)
    (fun _ _ head tail _ h => by
      rcases List.mem_cons.mp h with rfl | h
      · exact head
      · exact tail _ h)
    e

theorem mem_nodes_self (e : Expr κ) : e ∈ e.nodes := by
  cases e <;> simp [nodes]

theorem const?_eq_some {e : Expr κ} {c : κ} (h : e.const? = some c) : e = const c := by
  cases e <;> simp_all [const?]

theorem mem_nodesList {e : Expr κ} {es : List (Expr κ)} : e ∈ nodesList es ↔ ∃ a ∈ es, e ∈ a.nodes := by
  simp [nodesList_eq_flatMap]

theorem bind_none (e : Expr κ) : e.bind (fun _ => none) (fun _ => none) = e := by
  induction e with
  | const _ | var _ | rvar _ | param _ => rfl
  | call f args ih | load b args ih =>
    have same : args.map (bind (fun _ => none) fun _ => none) = args := (List.map_congr_left ih).trans (List.map_id _)
    rw [bind, bindList_eq_map, same]
  | unary op a ih | not a ih => rw [bind, ih]
  | binary op a b iha ihb | compare op a b iha ihb | and a b iha ihb | or a b iha ihb => rw [bind, iha, ihb]
  | select c t f ihc iht ihf => rw [bind, ihc, iht, ihf]

end Expr

/-- A relation between computations of two monads that respects `pure` and `bind`. -/
structure Lifting (m n : Type → Type) [Monad m] [Monad n] where
  rel {A B : Type} : (A → B → Prop) → m A → n B → Prop
  rel_pure {A B : Type} {S : A → B → Prop} {x : A} {y : B} : S x y → rel S (pure x) (pure y)
  rel_bind {A B C D : Type} {S : A → B → Prop} {T : C → D → Prop} {c : m A} {d : n B} {f : A → m C} {g : B → n D} :
    rel S c d → (∀ x y, S x y → rel T (f x) (g y)) → rel T (c >>= f) (d >>= g)

/-- A relation between two kinds of numbers that all operators respect. -/
structure Respected [Scalar α] [Scalar β] (S : α → β → Prop) : Prop where
  ofBool (b : Bool) : S (Scalar.ofBool b) (Scalar.ofBool b)
  isZero {x : α} {y : β} : S x y → Scalar.isZero x = Scalar.isZero y
  index {x : α} {y : β} : S x y → Scalar.index x = Scalar.index y
  unary (op : UnaryOp) {x : α} {y : β} : S x y → S (op.apply x) (op.apply y)
  binary (op : BinaryOp) {x x' : α} {y y' : β} : S x y → S x' y' → S (op.apply x x') (op.apply y y')
  holds (op : Comparison) {x x' : α} {y y' : β} : S x y → S x' y' → op.holds x x' = op.holds y y'

theorem Respected.eq [Scalar α] : Respected (α := α) Eq where
  ofBool _ := rfl
  isZero := by rintro _ _ rfl; rfl
  index := by rintro _ _ rfl; rfl
  unary := by rintro _ _ _ rfl; rfl
  binary := by rintro _ _ _ _ _ rfl rfl; rfl
  holds := by rintro _ _ _ _ _ rfl rfl; rfl

theorem Respected.zero [Scalar α] [Scalar β] {S : α → β → Prop} (h : Respected S) : S Scalar.zero Scalar.zero :=
  h.ofBool false

theorem Respected.one [Scalar α] [Scalar β] {S : α → β → Prop} (h : Respected S) : S Scalar.one Scalar.one :=
  h.ofBool true

namespace Expr

section Relation

variable [Scalar α] [Scalar β] [Embed κ α] [Embed κ β] {m n : Type → Type} [Monad m] [Monad n]

/-- What two evaluations of `e` have to agree on: constants, variables, and answers to the reads of `e`. -/
structure Related (L : Lifting m n) (S : α → β → Prop) (p : Reader m α) (q : Reader n β) (env : Env α) (env' : Env β)
    (e : Expr κ) : Prop where
  const (c : κ) : S (Embed.embed c) (Embed.embed c)
  var (x : Name) : Expr.var x ∈ e.nodes →
    L.rel S ((env.vars.lookup x).elim (p.unbound x) pure) ((env'.vars.lookup x).elim (q.unbound x) pure)
  rvar (x : Name) : Expr.rvar x ∈ e.nodes →
    L.rel S ((env.rvars.lookup x).elim (p.unbound x) pure) ((env'.rvars.lookup x).elim (q.unbound x) pure)
  call (f : FuncId) (args : List (Expr κ)) (index : List Int) :
    Expr.call f args ∈ e.nodes → L.rel S (p.call f index) (q.call f index)
  load (b : BufferId) (index : List Int) : L.rel S (p.load b index) (q.load b index)
  param (i : ParamId) : L.rel S (p.param i) (q.param i)

variable {L : Lifting m n} {S : α → β → Prop} {p : Reader m α} {q : Reader n β} {env : Env α} {env' : Env β}

/-- What two evaluations have to agree on, one of `e` with its variables replaced and one of `e`: constants, what the
variables stand for, and answers to the reads of `e`. -/
structure Replaced (L : Lifting m n) (S : α → β → Prop) (p : Reader m α) (q : Reader n β) (env : Env α) (env' : Env β)
    (σ τ : Name → Option (Expr κ)) (e : Expr κ) : Prop where
  const (c : κ) : S (Embed.embed c) (Embed.embed c)
  var (x : Name) : Expr.var x ∈ e.nodes →
    L.rel S (((σ x).getD (.var x)).eval p env) ((Expr.var x : Expr κ).eval q env')
  rvar (x : Name) : Expr.rvar x ∈ e.nodes →
    L.rel S (((τ x).getD (.rvar x)).eval p env) ((Expr.rvar x : Expr κ).eval q env')
  call (f : FuncId) (args : List (Expr κ)) (index : List Int) :
    Expr.call f args ∈ e.nodes → L.rel S (p.call f index) (q.call f index)
  load (b : BufferId) (index : List Int) : L.rel S (p.load b index) (q.load b index)
  param (i : ParamId) : L.rel S (p.param i) (q.param i)

variable {σ τ : Name → Option (Expr κ)}

theorem Replaced.mono {e a : Expr κ} (h : Replaced L S p q env env' σ τ e) (sub : ∀ x ∈ a.nodes, x ∈ e.nodes) :
    Replaced L S p q env env' σ τ a :=
  { h with
    var := fun x mem => h.var x (sub _ mem)
    rvar := fun x mem => h.rvar x (sub _ mem)
    call := fun f args index mem => h.call f args index (sub _ mem) }

theorem Related.replaced {e : Expr κ} (h : Related L S p q env env' e) :
    Replaced L S p q env env' (fun _ => none) (fun _ => none) e :=
  ⟨h.const, h.var, h.rvar, h.call, h.load, h.param⟩

theorem evalIndex_rel (resp : Respected S) {k : Expr κ → Expr κ} {es : List (Expr κ)}
    (h : ∀ a ∈ es, L.rel S ((k a).eval p env) (a.eval q env')) :
    L.rel Eq (evalIndex p env (es.map k)) (evalIndex q env' es) := by
  induction es with
  | nil => exact L.rel_pure rfl
  | cons e es ih =>
    refine L.rel_bind (h e List.mem_cons_self) fun x y same => ?_
    refine L.rel_bind (ih fun a mem => h a (List.mem_cons_of_mem _ mem)) fun rest rest' same' => ?_
    exact L.rel_pure (by rw [resp.index same, same'])

/-- Replacing variables by images is related to evaluation in an environment that relates them to their images. -/
theorem bind_rel (resp : Respected S) {e : Expr κ} (h : Replaced L S p q env env' σ τ e) :
    L.rel S ((e.bind σ τ).eval p env) (e.eval q env') := by
  induction e with
  | const c => exact L.rel_pure (h.const c)
  | var x => exact h.var x (mem_nodes_self _)
  | rvar x => exact h.rvar x (mem_nodes_self _)
  | param i => exact h.param i
  | call f args ih =>
    have inside : ∀ a ∈ args, ∀ x ∈ a.nodes, x ∈ (Expr.call f args).nodes := fun a mem x hx =>
      List.mem_cons_of_mem _ (mem_nodesList.mpr ⟨a, mem, hx⟩)
    rw [bind, bindList_eq_map]
    refine L.rel_bind (evalIndex_rel resp fun a mem => ih a mem (h.mono (inside a mem))) fun index _ same => ?_
    subst same
    exact h.call f args index (mem_nodes_self _)
  | load b args ih =>
    have inside : ∀ a ∈ args, ∀ x ∈ a.nodes, x ∈ (Expr.load b args).nodes := fun a mem x hx =>
      List.mem_cons_of_mem _ (mem_nodesList.mpr ⟨a, mem, hx⟩)
    rw [bind, bindList_eq_map]
    refine L.rel_bind (evalIndex_rel resp fun a mem => ih a mem (h.mono (inside a mem))) fun index _ same => ?_
    subst same
    exact h.load b index
  | unary op a ih =>
    refine L.rel_bind (ih (h.mono (by simp +contextual [nodes]))) fun x y same => ?_
    exact L.rel_pure (resp.unary op same)
  | binary op a b iha ihb =>
    refine L.rel_bind (iha (h.mono (by simp +contextual [nodes]))) fun x y same => ?_
    refine L.rel_bind (ihb (h.mono (by simp +contextual [nodes]))) fun x' y' same' => ?_
    exact L.rel_pure (resp.binary op same same')
  | compare op a b iha ihb =>
    refine L.rel_bind (iha (h.mono (by simp +contextual [nodes]))) fun x y same => ?_
    refine L.rel_bind (ihb (h.mono (by simp +contextual [nodes]))) fun x' y' same' => ?_
    rw [resp.holds op same same']
    exact L.rel_pure (resp.ofBool _)
  | and a b iha ihb =>
    refine L.rel_bind (iha (h.mono (by simp +contextual [nodes]))) fun x y same => ?_
    rw [resp.isZero same]
    split
    · exact L.rel_pure resp.zero
    · refine L.rel_bind (ihb (h.mono (by simp +contextual [nodes]))) fun x' y' same' => ?_
      rw [resp.isZero same']
      exact L.rel_pure (resp.ofBool _)
  | or a b iha ihb =>
    refine L.rel_bind (iha (h.mono (by simp +contextual [nodes]))) fun x y same => ?_
    rw [resp.isZero same]
    split
    · refine L.rel_bind (ihb (h.mono (by simp +contextual [nodes]))) fun x' y' same' => ?_
      rw [resp.isZero same']
      exact L.rel_pure (resp.ofBool _)
    · exact L.rel_pure resp.one
  | not a ih =>
    refine L.rel_bind (ih (h.mono (by simp +contextual [nodes]))) fun x y same => ?_
    rw [resp.isZero same]
    exact L.rel_pure (resp.ofBool _)
  | select c t f ihc iht ihf =>
    refine L.rel_bind (ihc (h.mono (by simp +contextual [nodes]))) fun x y same => ?_
    rw [resp.isZero same]
    split
    · exact ihf (h.mono (by simp +contextual [nodes]))
    · exact iht (h.mono (by simp +contextual [nodes]))

theorem eval_rel (resp : Respected S) {e : Expr κ} (h : Related L S p q env env' e) :
    L.rel S (e.eval p env) (e.eval q env') := by
  have replaced := bind_rel resp h.replaced
  rwa [bind_none] at replaced

theorem evalIndex_related (resp : Respected S) {es : List (Expr κ)}
    (h : ∀ a ∈ es, Related L S p q env env' a) : L.rel Eq (evalIndex p env es) (evalIndex q env' es) := by
  have same : L.rel Eq (evalIndex p env (es.map id)) (evalIndex q env' es) :=
    evalIndex_rel resp fun a mem => eval_rel resp (h a mem)
  rwa [List.map_id] at same

end Relation

end Expr

/-! ### Total and partial answers -/

/-- An answer to every read. -/
structure Valuation (α : Type) where
  call : FuncId → List Int → α
  load : BufferId → List Int → α
  param : ParamId → α

/-- Answers to the reads that have one. -/
structure Answers (α : Type) where
  call : FuncId → List Int → Option α
  load : BufferId → List Int → Option α
  param : ParamId → Option α

namespace Valuation

/-- Variables without a value count as 0. -/
def reader [Scalar α] (ρ : Valuation α) : Reader Id α := ⟨ρ.call, ρ.load, ρ.param, fun _ => (Scalar.zero : α)⟩

/-- The valuation with the values of `f` replaced. -/
def set (ρ : Valuation α) (f : FuncId) (A : List Int → α) : Valuation α :=
  { ρ with call := fun g => if g = f then A else ρ.call g }

@[simp] theorem set_self (ρ : Valuation α) (f : FuncId) (A : List Int → α) : (ρ.set f A).call f = A := if_pos rfl

theorem set_of_ne (ρ : Valuation α) {f g : FuncId} (A : List Int → α) (h : g ≠ f) :
    (ρ.set f A).call g = ρ.call g := if_neg h

@[simp] theorem set_load (ρ : Valuation α) (f : FuncId) (A : List Int → α) : (ρ.set f A).load = ρ.load := rfl

@[simp] theorem set_param (ρ : Valuation α) (f : FuncId) (A : List Int → α) : (ρ.set f A).param = ρ.param := rfl

end Valuation

/-- The answers to all reads. -/
def Valuation.answers (ρ : Valuation α) : Answers α :=
  ⟨fun f p => some (ρ.call f p), fun b p => some (ρ.load b p), fun i => some (ρ.param i)⟩

namespace Answers

def reader (P : Answers α) : Reader Option α := ⟨P.call, P.load, P.param, fun _ => none⟩

def set (P : Answers α) (f : FuncId) (A : List Int → Option α) : Answers α :=
  { P with call := fun g => if g = f then A else P.call g }

@[simp] theorem set_self (P : Answers α) (f : FuncId) (A : List Int → Option α) : (P.set f A).call f = A := if_pos rfl

theorem set_of_ne (P : Answers α) {f g : FuncId} (A : List Int → Option α) (h : g ≠ f) :
    (P.set f A).call g = P.call g := if_neg h

/-- Every answer of `P` is the one of `ρ`. -/
structure ExtendedBy (P : Answers α) (ρ : Valuation α) : Prop where
  call {f : FuncId} {p : List Int} {v : α} : P.call f p = some v → ρ.call f p = v
  load {b : BufferId} {p : List Int} {v : α} : P.load b p = some v → ρ.load b p = v
  param {i : ParamId} {v : α} : P.param i = some v → ρ.param i = v

end Answers

theorem Valuation.extendedBy_answers (ρ : Valuation α) : ρ.answers.ExtendedBy ρ :=
  ⟨Option.some.inj, Option.some.inj, Option.some.inj⟩

/-- Two total computations are related like their values. -/
def Lifting.direct : Lifting Id Id where
  rel S x y := S x y
  rel_pure h := h
  rel_bind h k := k _ _ h

/-- A successful computation agrees with a total one. -/
def Lifting.total : Lifting Option Id where
  rel S c d := ∀ x, c = some x → S x d
  rel_pure h := by rintro _ ⟨⟩; exact h
  rel_bind h k z hz := by
    obtain ⟨x, hx, hz⟩ := Option.bind_eq_some_iff.mp hz
    exact k x _ (h x hx) z hz

/-- A computation succeeds like a total one. -/
def Lifting.defined : Lifting Option Id where
  rel S c d := ∃ x, c = some x ∧ S x d
  rel_pure h := ⟨_, rfl, h⟩
  rel_bind h k := by
    obtain ⟨x, hx, same⟩ := h
    obtain ⟨y, hy, same⟩ := k x _ same
    exact ⟨y, Option.bind_eq_some_iff.mpr ⟨x, hx, hy⟩, same⟩

/-- Two computations that both succeed agree. -/
def Lifting.agree : Lifting Option Option where
  rel S c d := ∀ x y, c = some x → d = some y → S x y
  rel_pure h := by rintro _ _ ⟨⟩ ⟨⟩; exact h
  rel_bind h k z w hz hw := by
    obtain ⟨x, hx, hz⟩ := Option.bind_eq_some_iff.mp hz
    obtain ⟨y, hy, hw⟩ := Option.bind_eq_some_iff.mp hw
    exact k x y (h x y hx hy) z w hz hw

/-- When the first computation succeeds, so does the second. -/
def Lifting.follow : Lifting Option Option where
  rel S c d := ∀ x, c = some x → ∃ y, d = some y ∧ S x y
  rel_pure h := by rintro _ ⟨⟩; exact ⟨_, rfl, h⟩
  rel_bind h k z hz := by
    obtain ⟨x, hx, hz⟩ := Option.bind_eq_some_iff.mp hz
    obtain ⟨y, hy, same⟩ := h x hx
    obtain ⟨w, hw, same⟩ := k x y same z hz
    exact ⟨w, Option.bind_eq_some_iff.mpr ⟨y, hy, hw⟩, same⟩

/-- The value of a pure variable; without one it is 0. -/
def Env.var [Scalar α] (env : Env α) (x : Name) : α := (env.vars.lookup x).getD Scalar.zero

/-- The value of a reduction variable; without one it is 0. -/
def Env.rvar [Scalar α] (env : Env α) (x : Name) : α := (env.rvars.lookup x).getD Scalar.zero

namespace Expr

variable [Scalar α] [Embed κ α]

/-- The value of an expression when all reads are answered. -/
def value (ρ : Valuation α) (env : Env α) (e : Expr κ) : α := Id.run (e.eval ρ.reader env)

/-- The position that index arguments address. -/
def position (ρ : Valuation α) (env : Env α) (args : List (Expr κ)) : List Int :=
  args.map fun a => Scalar.index (a.value ρ env)

/-- The value of an expression, if all reads that it performs have answers. -/
def value? (P : Answers α) (env : Env α) (e : Expr κ) : Option α := e.eval P.reader env

def position? (P : Answers α) (env : Env α) (args : List (Expr κ)) : Option (List Int) := evalIndex P.reader env args

variable (ρ : Valuation α) (env : Env α)

theorem run_evalIndex (args : List (Expr κ)) : Id.run (evalIndex ρ.reader env args) = position ρ env args := by
  induction args with
  | nil => rfl
  | cons a as ih => exact congrArg (Scalar.index (a.value ρ env) :: ·) ih

@[simp] theorem value_const (c : κ) : (const c).value ρ env = Embed.embed c := rfl

@[simp] theorem value_var (x : Name) : (var x : Expr κ).value ρ env = env.var x := by
  unfold value Env.var eval
  cases env.vars.lookup x <;> rfl

@[simp] theorem value_rvar (x : Name) : (rvar x : Expr κ).value ρ env = env.rvar x := by
  unfold value Env.rvar eval
  cases env.rvars.lookup x <;> rfl

@[simp] theorem value_param (i : ParamId) : (param i : Expr κ).value ρ env = ρ.param i := rfl

@[simp] theorem value_call (f : FuncId) (args : List (Expr κ)) :
    (call f args).value ρ env = ρ.call f (position ρ env args) :=
  congrArg (ρ.call f) (run_evalIndex ρ env args)

@[simp] theorem value_load (b : BufferId) (args : List (Expr κ)) :
    (load b args).value ρ env = ρ.load b (position ρ env args) :=
  congrArg (ρ.load b) (run_evalIndex ρ env args)

@[simp] theorem value_unary (op : UnaryOp) (a : Expr κ) : (unary op a).value ρ env = op.apply (a.value ρ env) := rfl

@[simp] theorem value_binary (op : BinaryOp) (a b : Expr κ) :
    (binary op a b).value ρ env = op.apply (a.value ρ env) (b.value ρ env) := rfl

@[simp] theorem value_compare (op : Comparison) (a b : Expr κ) :
    (compare op a b).value ρ env = Scalar.ofBool (op.holds (a.value ρ env) (b.value ρ env)) := rfl

@[simp] theorem value_and (a b : Expr κ) : (and a b).value ρ env =
    if Scalar.isZero (a.value ρ env) then Scalar.zero else Scalar.ofBool (!Scalar.isZero (b.value ρ env)) :=
  apply_ite Id.run _ _ _

@[simp] theorem value_or (a b : Expr κ) : (or a b).value ρ env =
    if Scalar.isZero (a.value ρ env) then Scalar.ofBool (!Scalar.isZero (b.value ρ env)) else Scalar.one :=
  apply_ite Id.run _ _ _

@[simp] theorem value_not (a : Expr κ) : (not a).value ρ env = Scalar.ofBool (Scalar.isZero (a.value ρ env)) := rfl

@[simp] theorem value_select (c t f : Expr κ) : (select c t f).value ρ env =
    if Scalar.isZero (c.value ρ env) then f.value ρ env else t.value ρ env :=
  apply_ite Id.run _ _ _

@[simp] theorem position_nil : position ρ env ([] : List (Expr κ)) = [] := rfl

@[simp] theorem position_cons (a : Expr κ) (as : List (Expr κ)) :
    position ρ env (a :: as) = Scalar.index (a.value ρ env) :: position ρ env as := rfl

theorem value_of_value? {P : Answers α} {ρ : Valuation α} (ext : P.ExtendedBy ρ) {env : Env α} {e : Expr κ} {v : α}
    (h : e.value? P env = some v) : e.value ρ env = v := by
  have related : Related Lifting.total Eq P.reader ρ.reader env env e := {
    const := fun _ => rfl
    var := fun x _ v h => by
      cases hx : env.vars.lookup x <;> simp_all [Answers.reader]
      rfl
    rvar := fun x _ v h => by
      cases hx : env.rvars.lookup x <;> simp_all [Answers.reader]
      rfl
    call := fun f args index _ v h => (ext.call h).symm
    load := fun b index v h => (ext.load h).symm
    param := fun i v h => (ext.param h).symm }
  exact (eval_rel Respected.eq related v h).symm

theorem value?_answers {ρ : Valuation α} {env : Env α} {e : Expr κ}
    (vars : ∀ x, var x ∈ e.nodes → (env.vars.lookup x).isSome)
    (rvars : ∀ x, rvar x ∈ e.nodes → (env.rvars.lookup x).isSome) : e.value? ρ.answers env = some (e.value ρ env) := by
  have related : Related Lifting.defined Eq ρ.answers.reader ρ.reader env env e := by
    refine ⟨fun _ => rfl, ?_, ?_, ?_, ?_, ?_⟩
    · intro x mem
      obtain ⟨v, found⟩ := Option.isSome_iff_exists.mp (vars x mem)
      rw [found]
      exact ⟨v, rfl, rfl⟩
    · intro x mem
      obtain ⟨v, found⟩ := Option.isSome_iff_exists.mp (rvars x mem)
      rw [found]
      exact ⟨v, rfl, rfl⟩
    · exact fun f args index _ => ⟨_, rfl, rfl⟩
    · exact fun b index => ⟨_, rfl, rfl⟩
    · exact fun i => ⟨_, rfl, rfl⟩
  obtain ⟨v, found, same⟩ := eval_rel Respected.eq related
  rw [← show v = e.value ρ env from same]
  exact found

theorem value_congr {ρ ρ' : Valuation α} {env : Env α} {e : Expr κ}
    (call : ∀ f args, Expr.call f args ∈ e.nodes → ρ.call f (position ρ env args) = ρ'.call f (position ρ env args))
    (load : ∀ b args, Expr.load b args ∈ e.nodes → ρ.load b (position ρ env args) = ρ'.load b (position ρ env args))
    (param : ∀ i, Expr.param i ∈ e.nodes → ρ.param i = ρ'.param i) : e.value ρ env = e.value ρ' env := by
  induction e with
  | const _ | var _ | rvar _ => simp
  | param i => simpa using param i (mem_nodes_self _)
  | call f args ih =>
    have inside : ∀ a ∈ args, ∀ x ∈ a.nodes, x ∈ (Expr.call f args).nodes := fun a mem x hx =>
      List.mem_cons_of_mem _ (mem_nodesList.mpr ⟨a, mem, hx⟩)
    have same : position ρ env args = position ρ' env args := List.map_congr_left fun a mem =>
      congrArg Scalar.index (ih a mem (fun g as h => call g as (inside a mem _ h))
        (fun b as h => load b as (inside a mem _ h)) fun i h => param i (inside a mem _ h))
    rw [value_call, value_call, ← same]
    exact call f args (mem_nodes_self _)
  | load b args ih =>
    have inside : ∀ a ∈ args, ∀ x ∈ a.nodes, x ∈ (Expr.load b args).nodes := fun a mem x hx =>
      List.mem_cons_of_mem _ (mem_nodesList.mpr ⟨a, mem, hx⟩)
    have same : position ρ env args = position ρ' env args := List.map_congr_left fun a mem =>
      congrArg Scalar.index (ih a mem (fun g as h => call g as (inside a mem _ h))
        (fun b as h => load b as (inside a mem _ h)) fun i h => param i (inside a mem _ h))
    rw [value_load, value_load, ← same]
    exact load b args (mem_nodes_self _)
  | unary op a ih | not a ih =>
    have := ih (fun g as h => call g as (by simp [nodes, h])) (fun b as h => load b as (by simp [nodes, h]))
      fun i h => param i (by simp [nodes, h])
    simp [this]
  | binary op a b iha ihb | compare op a b iha ihb | and a b iha ihb | or a b iha ihb =>
    have ha := iha (fun g as h => call g as (by simp [nodes, h])) (fun b as h => load b as (by simp [nodes, h]))
      fun i h => param i (by simp [nodes, h])
    have hb := ihb (fun g as h => call g as (by simp [nodes, h])) (fun b as h => load b as (by simp [nodes, h]))
      fun i h => param i (by simp [nodes, h])
    simp [ha, hb]
  | select c t f ihc iht ihf =>
    have hc := ihc (fun g as h => call g as (by simp [nodes, h])) (fun b as h => load b as (by simp [nodes, h]))
      fun i h => param i (by simp [nodes, h])
    have ht := iht (fun g as h => call g as (by simp [nodes, h])) (fun b as h => load b as (by simp [nodes, h]))
      fun i h => param i (by simp [nodes, h])
    have hf := ihf (fun g as h => call g as (by simp [nodes, h])) (fun b as h => load b as (by simp [nodes, h]))
      fun i h => param i (by simp [nodes, h])
    simp [hc, ht, hf]

/-- Substitution is evaluation in the environment of the images. -/
theorem value_bind {ρ : Valuation α} {env env' : Env α} {σ τ : Name → Option (Expr κ)} {e : Expr κ}
    (vars : ∀ x, var x ∈ e.nodes → ((σ x).getD (var x)).value ρ env' = env.var x)
    (rvars : ∀ x, rvar x ∈ e.nodes → ((τ x).getD (rvar x)).value ρ env' = env.rvar x) :
    (e.bind σ τ).value ρ env' = e.value ρ env := by
  have replaced : Replaced Lifting.direct Eq ρ.reader ρ.reader env' env σ τ e :=
    ⟨fun _ => rfl, fun x mem => (vars x mem).trans (value_var (κ := κ) ρ env x).symm,
      fun x mem => (rvars x mem).trans (value_rvar (κ := κ) ρ env x).symm, fun _ _ _ _ => rfl, fun _ _ => rfl,
      fun _ => rfl⟩
  exact bind_rel Respected.eq replaced

theorem value_env_congr {ρ : Valuation α} {env env' : Env α} {e : Expr κ}
    (vars : ∀ x, var x ∈ e.nodes → env.var x = env'.var x) (rvars : ∀ x, rvar x ∈ e.nodes → env.rvar x = env'.rvar x) :
    e.value ρ env = e.value ρ env' := by
  have moved : (e.bind (fun _ => none) fun _ => none).value ρ env' = e.value ρ env :=
    value_bind (fun x mem => (value_var ρ env' x).trans (vars x mem).symm)
      fun x mem => (value_rvar ρ env' x).trans (rvars x mem).symm
  rw [← moved, bind_none]

/-- Redirecting calls is evaluation where `f` has the values of `g`. -/
theorem value_redirect (ρ : Valuation α) (env : Env α) (f g : FuncId) (e : Expr κ) :
    (e.redirect f g).value ρ env = e.value (ρ.set f (ρ.call g)) env := by
  induction e with
  | const _ | var _ | rvar _ | param _ => simp [redirect]
  | call h args ih =>
    have moved : position ρ env (args.map (redirect f g)) = position (ρ.set f (ρ.call g)) env args := by
      simpa [position] using fun a mem => congrArg Scalar.index (ih a mem)
    by_cases same : h = f
    · simp [redirect, redirectList_eq_map, moved, same]
    · simp [redirect, redirectList_eq_map, moved, same, Valuation.set_of_ne]
  | load b args ih =>
    have moved : position ρ env (args.map (redirect f g)) = position (ρ.set f (ρ.call g)) env args := by
      simpa [position] using fun a mem => congrArg Scalar.index (ih a mem)
    simp [redirect, redirectList_eq_map, moved]
  | unary op a ih | not a ih => simp [redirect, ih]
  | binary op a b iha ihb | compare op a b iha ihb | and a b iha ihb | or a b iha ihb => simp [redirect, iha, ihb]
  | select c t f ihc iht ihf => simp [redirect, ihc, iht, ihf]

end Expr

end ArrayDiff
