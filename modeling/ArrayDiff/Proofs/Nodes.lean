import ArrayDiff.Expr.Simplify
import ArrayDiff.Proofs.Evaluation

/-!
# Properties of all subexpressions

A property that constants and operators have is kept by the smart constructors, so that a simplified expression has it
everywhere if the original one has it at its variables and reads (`Expr.everywhere_simplify`).
-/

open ArrayDiff.Expr

namespace ArrayDiff

variable {κ : Type}

namespace Expr

variable {P Q : Expr κ → Prop} {a b c e : Expr κ}

theorem mem_nodes {x : Expr κ} : x ∈ e.nodes ↔ x = e ∨ ∃ a ∈ e.children, x ∈ a.nodes := by
  cases e <;> simp [nodes, children, mem_nodesList]

theorem nodes_trans {e x y : Expr κ} (inner : y ∈ x.nodes) (outer : x ∈ e.nodes) : y ∈ e.nodes := by
  induction e with
  | const _ | var _ | rvar _ | param _ =>
    obtain rfl := List.mem_singleton.mp outer
    exact inner
  | call f args ih | load b args ih =>
    rcases List.mem_cons.mp outer with rfl | outer
    · exact inner
    obtain ⟨a, mem, outer⟩ := mem_nodesList.mp outer
    exact List.mem_cons_of_mem _ (mem_nodesList.mpr ⟨a, mem, ih a mem outer⟩)
  | unary op a ih | not a ih =>
    rcases List.mem_cons.mp outer with rfl | outer
    · exact inner
    exact List.mem_cons_of_mem _ (ih outer)
  | binary op a b iha ihb | compare op a b iha ihb | and a b iha ihb | or a b iha ihb =>
    rcases List.mem_cons.mp outer with rfl | outer
    · exact inner
    rcases List.mem_append.mp outer with outer | outer
    · exact List.mem_cons_of_mem _ (List.mem_append_left _ (iha outer))
    · exact List.mem_cons_of_mem _ (List.mem_append_right _ (ihb outer))
  | select c t f ihc iht ihf =>
    rcases List.mem_cons.mp outer with rfl | outer
    · exact inner
    rcases List.mem_append.mp outer with outer | outer
    · rcases List.mem_append.mp outer with outer | outer
      · exact List.mem_cons_of_mem _ (List.mem_append_left _ (List.mem_append_left _ (ihc outer)))
      · exact List.mem_cons_of_mem _ (List.mem_append_left _ (List.mem_append_right _ (iht outer)))
    · exact List.mem_cons_of_mem _ (List.mem_append_right _ (ihf outer))

theorem mem_nodes_of_mem_args {x a : Expr κ} {r : Read κ} (read : x.read? = some r) (mem : a ∈ r.args) :
    a ∈ x.nodes := by
  cases x with
  | call f args | load b args =>
    obtain rfl := Option.some.inj read
    exact List.mem_cons_of_mem _ (mem_nodesList.mpr ⟨a, mem, mem_nodes_self a⟩)
  | param i =>
    obtain rfl := Option.some.inj read
    cases mem
  | _ => cases read

def Everywhere (P : Expr κ → Prop) (e : Expr κ) : Prop := ∀ a ∈ e.nodes, P a

theorem everywhere_iff : e.Everywhere P ↔ P e ∧ ∀ a ∈ e.children, a.Everywhere P := by
  constructor
  · exact fun h => ⟨h e (mem_nodes_self e), fun a child x mem => h x (mem_nodes.mpr (.inr ⟨a, child, mem⟩))⟩
  · rintro ⟨own, inner⟩ x mem
    rcases mem_nodes.mp mem with rfl | ⟨a, child, mem⟩
    · exact own
    · exact inner a child x mem

theorem everywhere_leaf (none : e.children = []) : e.Everywhere P ↔ P e := by
  rw [everywhere_iff, none]
  exact and_iff_left fun _ mem => absurd mem List.not_mem_nil

theorem everywhere_one (only : e.children = [a]) : e.Everywhere P ↔ P e ∧ a.Everywhere P := by
  rw [everywhere_iff, only, List.forall_mem_singleton]

theorem everywhere_two (both : e.children = [a, b]) : e.Everywhere P ↔ P e ∧ a.Everywhere P ∧ b.Everywhere P := by
  rw [everywhere_iff, both, List.forall_mem_cons, List.forall_mem_singleton]

theorem everywhere_three (all : e.children = [a, b, c]) :
    e.Everywhere P ↔ P e ∧ a.Everywhere P ∧ b.Everywhere P ∧ c.Everywhere P := by
  rw [everywhere_iff, all, List.forall_mem_cons, List.forall_mem_cons, List.forall_mem_singleton]

theorem Everywhere.child (h : e.Everywhere P) (mem : a ∈ e.children) : a.Everywhere P := (everywhere_iff.mp h).2 a mem

theorem Everywhere.mono (h : e.Everywhere P) (wider : ∀ a, P a → Q a) : e.Everywhere Q := fun a mem => wider a (h a mem)

/-- A variable or a read. -/
def IsAtom : Expr κ → Prop
  | var _ | rvar _ | param _ | call .. | load .. => True
  | _ => False

/-- Constants and operators have the property, signs as far as they stand neither before a number nor before a sign; for
reads the number of arguments is what counts. -/
structure Kept (P : Expr κ → Prop) : Prop where
  const (c : κ) : P (const c)
  call (f : FuncId) (as bs : List (Expr κ)) : as.length = bs.length → P (call f as) → P (call f bs)
  load (b : BufferId) (as bs : List (Expr κ)) : as.length = bs.length → P (load b as) → P (load b bs)
  unary (op : UnaryOp) (a : Expr κ) : (op = .neg → a.const? = none ∧ ∀ b, a ≠ unary .neg b) → P (unary op a)
  binary (op : BinaryOp) (a b : Expr κ) : P (binary op a b)
  compare (op : Comparison) (a b : Expr κ) : P (compare op a b)
  and (a b : Expr κ) : P (and a b)
  or (a b : Expr κ) : P (or a b)
  not (a : Expr κ) : P (not a)
  select (c t f : Expr κ) : P (select c t f)

namespace Everywhere

variable (kept : Kept P)
include kept

theorem const (c : κ) : (Expr.const c).Everywhere P := (everywhere_leaf rfl).mpr (kept.const c)

variable (ha : a.Everywhere P) (hb : b.Everywhere P)
include ha

theorem unary (op : UnaryOp) (short : op = .neg → a.const? = none ∧ ∀ b, a ≠ .unary .neg b) :
    (Expr.unary op a).Everywhere P := (everywhere_one rfl).mpr ⟨kept.unary op a short, ha⟩

theorem not : (Expr.not a).Everywhere P := (everywhere_one rfl).mpr ⟨kept.not a, ha⟩

include hb

theorem binary (op : BinaryOp) : (Expr.binary op a b).Everywhere P :=
  (everywhere_two rfl).mpr ⟨kept.binary op a b, ha, hb⟩

theorem compare (op : Comparison) : (Expr.compare op a b).Everywhere P :=
  (everywhere_two rfl).mpr ⟨kept.compare op a b, ha, hb⟩

theorem and : (Expr.and a b).Everywhere P := (everywhere_two rfl).mpr ⟨kept.and a b, ha, hb⟩

theorem or : (Expr.or a b).Everywhere P := (everywhere_two rfl).mpr ⟨kept.or a b, ha, hb⟩

theorem select (hc : c.Everywhere P) : (Expr.select c a b).Everywhere P :=
  (everywhere_three rfl).mpr ⟨kept.select c a b, hc, ha, hb⟩

end Everywhere

end Expr

namespace Smart

variable [Scalar κ] {P : Expr κ → Prop} {a b c : Expr κ} (kept : Kept P) (ha : a.Everywhere P) (hb : b.Everywhere P)
include kept ha

theorem everywhere_unary (op : UnaryOp) : (unary op a).Everywhere P := by
  unfold unary
  split
  · exact .const kept _
  · split
    · exact ha.child List.mem_cons_self
    · rename_i other
      exact .unary kept ha op fun same => absurd same other
  · rename_i noConst noSign
    refine .unary kept ha op fun _ => ⟨?_, noSign⟩
    cases a <;> first | rfl | exact absurd rfl (noConst _)

theorem everywhere_not : (not a).Everywhere P := by
  unfold not
  split
  · exact .const kept _
  · exact .not kept ha

include hb

theorem everywhere_add : (add a b).Everywhere P := by
  unfold add
  repeat' split
  all_goals first | exact .const kept _ | exact ha | exact hb | exact .binary kept ha hb _

theorem everywhere_sub : (sub a b).Everywhere P := by
  unfold sub
  repeat' split
  all_goals first | exact .const kept _ | exact ha | exact everywhere_unary kept hb _ | exact .binary kept ha hb _

theorem everywhere_mul : (mul a b).Everywhere P := by
  unfold mul
  repeat' split
  all_goals
    first
    | exact .const kept _ | exact ha | exact hb | exact everywhere_unary kept ha _ | exact everywhere_unary kept hb _
    | exact .binary kept ha hb _

theorem everywhere_div : (div a b).Everywhere P := by
  unfold div divOpen
  repeat' split
  all_goals first | exact .const kept _ | exact ha | exact .binary kept ha hb _

theorem everywhere_pow : (pow a b).Everywhere P := by
  unfold pow
  repeat' split
  all_goals first | exact .const kept _ | exact ha | exact .binary kept ha hb _

theorem everywhere_foldOnly (op : BinaryOp) : (foldOnly op a b).Everywhere P := by
  unfold foldOnly
  split
  · exact .const kept _
  · exact .binary kept ha hb op

theorem everywhere_binary (op : BinaryOp) : (binary op a b).Everywhere P := by
  cases op with
  | add => exact everywhere_add kept ha hb
  | sub => exact everywhere_sub kept ha hb
  | mul => exact everywhere_mul kept ha hb
  | div => exact everywhere_div kept ha hb
  | pow => exact everywhere_pow kept ha hb
  | min => exact everywhere_foldOnly kept ha hb .min
  | max => exact everywhere_foldOnly kept ha hb .max

theorem everywhere_compare (op : Comparison) : (compare op a b).Everywhere P := by
  unfold compare
  split
  · exact .const kept _
  · exact .compare kept ha hb op

theorem everywhere_and : (and a b).Everywhere P := by
  unfold and
  repeat' split
  · exact .const kept _
  · exact hb
  · exact ha
  · exact .and kept ha hb

theorem everywhere_or : (or a b).Everywhere P := by
  unfold or
  repeat' split
  · exact .const kept _
  · exact hb
  · exact ha
  · exact .or kept ha hb

theorem everywhere_select (hc : c.Everywhere P) : (select c a b).Everywhere P := by
  unfold select
  repeat' split
  · exact hb
  · exact ha
  · exact ha
  · exact .select kept ha hb hc

omit ha hb

theorem everywhere_all {terms : List (Expr κ)} (h : ∀ a ∈ terms, a.Everywhere P) : (all terms).Everywhere P := by
  unfold all
  suffices general : ∀ acc : Expr κ, acc.Everywhere P → (terms.foldl and acc).Everywhere P from
    general .one (.const kept _)
  induction terms with
  | nil => exact fun acc held => held
  | cons a terms ih =>
    intro acc held
    exact ih (fun b mem => h b (List.mem_cons_of_mem a mem)) _ (everywhere_and kept held (h a List.mem_cons_self))

end Smart

namespace Expr

variable [Scalar κ] {P : Expr κ → Prop} {e : Expr κ}

/-- The variables and reads of a simplified expression are those of the original one, with their arguments simplified. -/
theorem everywhere_simplify (kept : Kept P) (atoms : ∀ a ∈ e.nodes, a.IsAtom → P a) : e.simplify.Everywhere P := by
  have inner {e a : Expr κ} (child : a ∈ e.children) (atoms : ∀ a ∈ e.nodes, a.IsAtom → P a) :
      ∀ x ∈ a.nodes, x.IsAtom → P x := fun x mem => atoms x (mem_nodes.mpr (.inr ⟨a, child, mem⟩))
  induction e with
  | const c => exact .const kept c
  | var _ | rvar _ | param _ =>
    exact everywhere_iff.mpr ⟨atoms _ (mem_nodes_self _) trivial, fun _ mem => absurd mem List.not_mem_nil⟩
  | call f args ih =>
    refine everywhere_iff.mpr ⟨kept.call f args _ ?_ (atoms _ (mem_nodes_self _) trivial), ?_⟩
    · simp [simplifyList_eq_map]
    · simpa [simplify, children, simplifyList_eq_map] using fun a mem => ih a mem (inner (e := call f args) mem atoms)
  | load b args ih =>
    refine everywhere_iff.mpr ⟨kept.load b args _ ?_ (atoms _ (mem_nodes_self _) trivial), ?_⟩
    · simp [simplifyList_eq_map]
    · simpa [simplify, children, simplifyList_eq_map] using fun a mem => ih a mem (inner (e := load b args) mem atoms)
  | unary op a ih => exact Smart.everywhere_unary kept (ih (inner (by simp [children]) atoms)) op
  | not a ih => exact Smart.everywhere_not kept (ih (inner (by simp [children]) atoms))
  | binary op a b iha ihb =>
    exact Smart.everywhere_binary kept (iha (inner (by simp [children]) atoms)) (ihb (inner (by simp [children]) atoms)) op
  | compare op a b iha ihb =>
    exact Smart.everywhere_compare kept (iha (inner (by simp [children]) atoms)) (ihb (inner (by simp [children]) atoms)) op
  | and a b iha ihb =>
    exact Smart.everywhere_and kept (iha (inner (by simp [children]) atoms)) (ihb (inner (by simp [children]) atoms))
  | or a b iha ihb =>
    exact Smart.everywhere_or kept (iha (inner (by simp [children]) atoms)) (ihb (inner (by simp [children]) atoms))
  | select c t f ihc iht ihf =>
    exact Smart.everywhere_select kept (iht (inner (by simp [children]) atoms))
      (ihf (inner (by simp [children]) atoms)) (ihc (inner (by simp [children]) atoms))

/-- No sign stands before a number or another sign. -/
def ShortSigns (e : Expr κ) : Prop := ∀ a, unary .neg a ∈ e.nodes → a.const? = none ∧ ∀ b, a ≠ unary .neg b

omit [Scalar κ] in
theorem ShortSigns.child {a : Expr κ} (h : e.ShortSigns) (mem : a ∈ e.children) : a.ShortSigns :=
  fun b inner => h b (mem_nodes.mpr (.inr ⟨a, mem, inner⟩))

theorem shortSigns_simplify (e : Expr κ) : e.simplify.ShortSigns := by
  have kept : Kept fun x : Expr κ => ∀ a, x = unary .neg a → a.const? = none ∧ ∀ b, a ≠ unary .neg b := by
    constructor
    case unary =>
      intro op a short b same
      obtain ⟨sign, rfl⟩ := unary.inj same
      exact short sign
    all_goals
      intros
      contradiction
  have short := everywhere_simplify (e := e) kept fun a _ atom b same => by
    subst same
    exact atom.elim
  exact fun a mem => short _ mem a rfl

end Expr

end ArrayDiff
