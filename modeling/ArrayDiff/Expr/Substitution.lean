import ArrayDiff.Expr.Basic

/-!
# Substitution

Simultaneous replacement of pure and reduction variables, and redirection of calls from one func to another. What is
put in is not looked at again.
-/

namespace ArrayDiff.Expr

variable {κ : Type}

mutual

/-- Pure variables are replaced by their images under `σ`, reduction variables by theirs under `ρ`. -/
def bind (σ ρ : Name → Option (Expr κ)) : Expr κ → Expr κ
  | const c => const c
  | var x => (σ x).getD (var x)
  | rvar x => (ρ x).getD (rvar x)
  | param p => param p
  | call f args => call f (bindList σ ρ args)
  | load b args => load b (bindList σ ρ args)
  | unary op a => unary op (bind σ ρ a)
  | binary op a b => binary op (bind σ ρ a) (bind σ ρ b)
  | compare op a b => compare op (bind σ ρ a) (bind σ ρ b)
  | and a b => and (bind σ ρ a) (bind σ ρ b)
  | or a b => or (bind σ ρ a) (bind σ ρ b)
  | not a => not (bind σ ρ a)
  | select c t f => select (bind σ ρ c) (bind σ ρ t) (bind σ ρ f)

def bindList (σ ρ : Name → Option (Expr κ)) : List (Expr κ) → List (Expr κ)
  | [] => []
  | e :: es => bind σ ρ e :: bindList σ ρ es

end

theorem bindList_eq_map (σ ρ : Name → Option (Expr κ)) (es : List (Expr κ)) :
    bindList σ ρ es = es.map (bind σ ρ) := by
  induction es with
  | nil => rfl
  | cons e es ih => simp [bindList, ih]

/-- Simultaneous substitution of pure variables. -/
def substitute (e : Expr κ) (σ : Name → Option (Expr κ)) : Expr κ := e.bind σ fun _ => none

/-- Simultaneous substitution of reduction variables. -/
def substituteRVars (e : Expr κ) (ρ : Name → Option (Expr κ)) : Expr κ := e.bind (fun _ => none) ρ

def substituteVar (e : Expr κ) (x : Name) (image : Expr κ) : Expr κ :=
  e.substitute fun y => if y = x then some image else none

mutual

/-- Calls of `f` become calls of `g`, at any depth. -/
def redirect (f g : FuncId) : Expr κ → Expr κ
  | const c => const c
  | var x => var x
  | rvar x => rvar x
  | param p => param p
  | call h args => call (if h = f then g else h) (redirectList f g args)
  | load b args => load b (redirectList f g args)
  | unary op a => unary op (redirect f g a)
  | binary op a b => binary op (redirect f g a) (redirect f g b)
  | compare op a b => compare op (redirect f g a) (redirect f g b)
  | and a b => and (redirect f g a) (redirect f g b)
  | or a b => or (redirect f g a) (redirect f g b)
  | not a => not (redirect f g a)
  | select c t e => select (redirect f g c) (redirect f g t) (redirect f g e)

def redirectList (f g : FuncId) : List (Expr κ) → List (Expr κ)
  | [] => []
  | e :: es => redirect f g e :: redirectList f g es

end

theorem redirectList_eq_map (f g : FuncId) (es : List (Expr κ)) :
    redirectList f g es = es.map (redirect f g) := by
  induction es with
  | nil => rfl
  | cons e es ih => simp [redirectList, ih]

end ArrayDiff.Expr
