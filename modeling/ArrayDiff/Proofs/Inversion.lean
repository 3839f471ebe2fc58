import ArrayDiff.Adjoint.Term
import ArrayDiff.Proofs.Slots

/-!
# Index arguments solved for the variables of a reader

For a given target point, `Inversion.solve?` goes through the index arguments of a read and finds at most one point of
the reader. `Inversion.Solves` says what has been found: the reader reads the target point exactly when the guards hold
and its variables have the solved values.
-/

open ArrayDiff.Expr

namespace ArrayDiff

variable {K : Type} [Field K] [LinearOrder K] [FloorRing K] [Transcendental K]

theorem Expr.value_of_integer? {ρ : Valuation K} {env : Env K} {e : Expr (Exact K)} {k : Int}
    (found : e.integer? = some k) : e.value ρ env = (k : K) := by
  obtain ⟨c, const, integral⟩ := Option.bind_eq_some_iff.mp found
  rw [const?_eq_some const]
  unfold Extended.integer? at integral
  split at integral
  · rename_i finite
    obtain rfl := Option.some.inj integral
    obtain ⟨finite, whole⟩ := (Bool.and_eq_true _ _).mp finite
    cases c with
    | number y =>
      have same : ((⌊y⌋ : ℤ) : K) = y := of_decide_eq_true whole
      exact same.symm
    | _ => cases finite
  · cases integral

theorem Expr.value_add (ρ : Valuation K) (env : Env K) (a b : Expr (Exact K)) :
    (binary .add a b).value ρ env = a.value ρ env + b.value ρ env := rfl

theorem Expr.value_sub (ρ : Valuation K) (env : Env K) (a b : Expr (Exact K)) :
    (binary .sub a b).value ρ env = a.value ρ env - b.value ρ env := rfl

theorem Expr.value_neg (ρ : Valuation K) (env : Env K) (a : Expr (Exact K)) :
    (unary .neg a).value ρ env = -a.value ρ env := rfl

/-- The value of an affine index. -/
def Affine.at (a : Affine) (v : Int) : Int := if a.positive then v + a.offset else a.offset - v

/-- The value of the variable at which an affine index is `w`. -/
def Affine.solution (a : Affine) (w : Int) : Int := if a.positive then w - a.offset else a.offset - w

theorem Affine.at_eq_iff (a : Affine) (v w : Int) : a.at v = w ↔ v = a.solution w := by
  unfold Affine.at Affine.solution
  split <;> omega

theorem Affine.value_of_ofExpr? {ρ : Valuation K} {env : Env K} {e : Expr (Exact K)} {a : Affine}
    (found : Affine.ofExpr? e = some a) {v : Int} (value : env.var a.x = (v : K)) : e.value ρ env = (a.at v : K) := by
  unfold Affine.ofExpr? at found
  split at found
  · obtain rfl := Option.some.inj found
    rw [value_var, value]
    simp [Affine.at]
  · obtain rfl := Option.some.inj found
    rw [value_neg, value_var, value]
    simp [Affine.at]
  · obtain ⟨c, integer, rfl⟩ := Option.map_eq_some_iff.mp found
    rw [value_add, value_var, value, value_of_integer? integer]
    simp [Affine.at]
  · obtain ⟨c, integer, rfl⟩ := Option.map_eq_some_iff.mp found
    rw [value_add, value_var, value, value_of_integer? integer]
    simp [Affine.at, add_comm]
  · obtain ⟨c, integer, rfl⟩ := Option.map_eq_some_iff.mp found
    rw [value_sub, value_var, value, value_of_integer? integer]
    simp [Affine.at, sub_eq_add_neg]
  · obtain ⟨c, integer, rfl⟩ := Option.map_eq_some_iff.mp found
    rw [value_sub, value_var, value, value_of_integer? integer]
    simp [Affine.at]
  · cases found

theorem Affine.represents_inverse {ρ : Valuation K} {env : Env K} {Q : Atom → Prop} (a : Affine) {t : Expr (Exact K)}
    {w : Int} (h : t.Represents ρ env Q (w : K)) : (a.inverse t).Represents ρ env Q (a.solution w : K) := by
  unfold Affine.inverse Affine.solution
  split
  · rw [Int.cast_sub]
    exact Smart.represents_sub h (Represents.ofInt _)
  · rw [Int.cast_sub]
    exact Smart.represents_sub (Represents.ofInt _) h

namespace Inversion

variable {reader : Func (Exact K)} {region : Domain} {live : List Name} {inv inv' : Inversion (Exact K)} {t : Name}
  {arg : Expr (Exact K)}

theorem solve?_eq_some {κ : Type} [Extended κ] {reader : Func κ} {inv inv' : Inversion κ} {arg : Expr κ}
    (found : inv.solve? reader region live t arg = some inv') :
    (∃ k, arg.simplify.integer? = some k ∧
      inv' = { inv with guards := inv.guards ++ [Smart.compare .eq (.var t) (.ofInt k)] }) ∨
    ∃ a range, Affine.ofExpr? arg.simplify = some a ∧ a.x ∈ live ∧ inv.solved.contains a.x = false ∧
      reader.rangeOf? region a.x = some range ∧
      inv' = ⟨inv.solved.insert a.x (a.inverse (.var t)), inv.guards ++
        [Smart.compare .ge (a.inverse (.var t)) (.ofInt range.min),
          Smart.compare .le (a.inverse (.var t)) (.ofInt range.max)]⟩ := by
  unfold solve? at found
  simp only at found
  split at found
  · rename_i k integer
    exact Or.inl ⟨k, integer, (Option.some.inj found).symm⟩
  · right
    obtain ⟨a, affine, found⟩ := Option.bind_eq_some_iff.mp found
    split at found
    · cases found
    · rename_i fresh
      obtain ⟨known, unsolved⟩ := not_or.mp fresh
      obtain ⟨range, within, found⟩ := Option.bind_eq_some_iff.mp found
      exact ⟨a, range, affine, not_not.mp known, (Bool.not_eq_true _).mp unsolved, within,
        (Option.some.inj found).symm⟩

/-- Integer values of the live variables inside their ranges. -/
def Ranged (reader : Func (Exact K)) (region : Domain) (live : List Name) (env : Env K) : Prop :=
  ∀ x ∈ live, ∃ n : Int, env.var x = n ∧ ∀ range, reader.rangeOf? region x = some range → range.min ≤ n ∧ n ≤ range.max

/-- What has been solved after the index arguments in `done`, at the target point whose coordinates are `w`. -/
structure Solves (reader : Func (Exact K)) (region : Domain) (live : List Name) (ρ : Valuation K) (target : Env K)
    (w : Name → Int) (P Q : Atom → Prop) (done : List (Name × Expr (Exact K))) (inv : Inversion (Exact K))
    (sol : Name → Int) (vs : List K) : Prop where
  known {x : Name} : x ∈ inv.solved.keys → x ∈ live
  distinct : inv.solved.keys.Nodup
  solved {x : Name} {e : Expr (Exact K)} : inv.solved.get? x = some e → e.Represents ρ target P (sol x : K)
  guards : List.Forall₂ (fun e v => e.Represents ρ target P v ∧ IsTruth v) inv.guards vs
  ranges {x : Name} {range : Interval} : vs.prod = 1 → x ∈ inv.solved.keys →
    reader.rangeOf? region x = some range → range.min ≤ sol x ∧ sol x ≤ range.max
  reads {env : Env K} : Ranged reader region live env → (∀ pair ∈ done, pair.2.Plain ρ env Q) →
    ((∀ pair ∈ done, Scalar.index (pair.2.value ρ env) = w pair.1) ↔
      vs.prod = 1 ∧ ∀ x ∈ inv.solved.keys, env.var x = sol x)

variable {ρ : Valuation K} {target : Env K} {w : Name → Int} {P Q : Atom → Prop} {done : List (Name × Expr (Exact K))}
  {sol : Name → Int} {vs : List K}

theorem keys_insert {κ : Type} {s : Table Name (Expr κ)} {x : Name} {e : Expr κ} (fresh : s.contains x = false) :
    (s.insert x e).keys = x :: s.keys ∧ x ∉ s.keys := by
  have absent : x ∉ s.keys := by
    intro mem
    obtain ⟨e', found⟩ := Table.mem_keys.mp mem
    rw [Table.contains, found] at fresh
    cases fresh
  refine ⟨?_, absent⟩
  rw [Table.keys, Table.entries_insert absent]
  rfl

theorem Solves.start : Solves reader region live ρ target w P Q [] {} sol [] where
  known mem := absurd mem List.not_mem_nil
  distinct := List.nodup_nil
  solved found := nomatch found
  guards := List.Forall₂.nil
  ranges _ mem := absurd mem List.not_mem_nil
  reads _ _ :=
    ⟨fun _ => ⟨List.prod_nil, fun _ mem => absurd mem List.not_mem_nil⟩, fun _ _ mem => absurd mem List.not_mem_nil⟩

omit [Transcendental K] in
theorem prod_append_eq_one {x : K} {c : Prop} [Decidable c] (same : x = if c then 1 else 0) :
    (vs ++ [x]).prod = 1 ↔ vs.prod = 1 ∧ c := by
  rw [List.prod_append, List.prod_singleton, same]
  split
  · rename_i holds
    simp [holds]
  · rename_i fails
    simp [fails]

theorem represents_guard {op : Comparison} {a b : Expr (Exact K)} {x y : K} {c : Prop} [Decidable c]
    (ha : a.Represents ρ target P x) (hb : b.Represents ρ target P y)
    (same : op.holds x y = true ↔ c) :
    (Smart.compare op a b).Represents ρ target P (if c then 1 else 0) ∧ IsTruth (if c then (1 : K) else 0) :=
  ⟨Smart.represents_decided ha hb same, isTruth_ite c⟩

omit [Field K] [LinearOrder K] [FloorRing K] [Transcendental K] in
theorem forall_mem_last {H : Name × Expr (Exact K) → Prop} :
    (∀ pair ∈ done ++ [(t, arg)], H pair) ↔ (∀ pair ∈ done, H pair) ∧ H (t, arg) := by
  rw [List.forall_mem_append, List.forall_mem_singleton]

section

variable [IsStrictOrderedRing K]

theorem Solves.check (h : Solves reader region live ρ target w P Q done inv sol vs) (strict : ¬Q .logic) {k : Int}
    (integer : arg.simplify.integer? = some k) (point : (Expr.var t : Expr (Exact K)).Represents ρ target P (w t : K)) :
    Solves reader region live ρ target w P Q (done ++ [(t, arg)])
      { inv with guards := inv.guards ++ [Smart.compare .eq (.var t) (.ofInt k)] } sol
      (vs ++ [if w t = k then 1 else 0]) := by
  refine ⟨h.known, h.distinct, h.solved, ?_, ?_, ?_⟩
  · exact List.rel_append h.guards (List.Forall₂.cons (represents_guard point (Represents.ofInt k)
      (decide_eq_true_iff.trans Int.cast_inj)) List.Forall₂.nil)
  · exact fun holds => h.ranges ((prod_append_eq_one rfl).mp holds).1
  · intro env inside plain
    obtain ⟨before, own⟩ := forall_mem_last.mp plain
    have value : Scalar.index (arg.value ρ env) = k := by
      rw [← value_simplify strict own, value_of_integer? integer]
      exact Int.floor_intCast k
    rw [forall_mem_last, h.reads inside before, value, prod_append_eq_one rfl, and_assoc, and_assoc,
      and_comm (a := w t = k), eq_comm (a := k)]

/-- An affine index argument is solved for its variable, guarded by the range of that variable. -/
theorem Solves.insert (h : Solves reader region live ρ target w P Q done inv sol vs) (strict : ¬Q .logic) {a : Affine}
    {range : Interval} (affine : Affine.ofExpr? arg.simplify = some a) (known : a.x ∈ live)
    (fresh : inv.solved.contains a.x = false) (within : reader.rangeOf? region a.x = some range)
    (point : (Expr.var t : Expr (Exact K)).Represents ρ target P (w t : K)) :
    Solves reader region live ρ target w P Q (done ++ [(t, arg)])
      ⟨inv.solved.insert a.x (a.inverse (.var t)), inv.guards ++
        [Smart.compare .ge (a.inverse (.var t)) (.ofInt range.min),
          Smart.compare .le (a.inverse (.var t)) (.ofInt range.max)]⟩
      (Function.update sol a.x (a.solution (w t)))
      (vs ++ [if range.min ≤ a.solution (w t) then 1 else 0] ++ [if a.solution (w t) ≤ range.max then 1 else 0]) := by
  obtain ⟨keys, absent⟩ := keys_insert (e := a.inverse (.var t)) fresh
  let sol' := Function.update sol a.x (a.solution (w t))
  have kept : ∀ x ∈ inv.solved.keys, sol' x = sol x := fun x mem =>
    Function.update_of_ne (fun same : x = a.x => absent (same ▸ mem)) _ _
  have own : sol' a.x = a.solution (w t) := Function.update_self _ _ _
  have inverse := a.represents_inverse point
  refine ⟨?_, ?_, ?_, ?_, ?_, ?_⟩
  · intro x mem
    simp only [keys] at mem
    rcases List.mem_cons.mp mem with rfl | mem
    · exact known
    · exact h.known mem
  · simp only [keys]
    exact List.nodup_cons.mpr ⟨absent, h.distinct⟩
  · intro x e entry
    rw [Table.get?_insert] at entry
    split at entry
    · rename_i same
      obtain rfl := Option.some.inj entry
      rw [← same, Function.update_self]
      exact inverse
    · rename_i other
      rw [Function.update_of_ne (Ne.symm other)]
      exact h.solved entry
  · rw [List.append_assoc]
    refine List.rel_append h.guards (List.Forall₂.cons ?_ (List.Forall₂.cons ?_ List.Forall₂.nil))
    · exact represents_guard inverse (Represents.ofInt _) (decide_eq_true_iff.trans Int.cast_le)
    · exact represents_guard inverse (Represents.ofInt _) (decide_eq_true_iff.trans Int.cast_le)
  · intro x other holds mem found
    rw [prod_append_eq_one rfl, prod_append_eq_one rfl] at holds
    simp only [keys] at mem
    rcases List.mem_cons.mp mem with rfl | mem
    · obtain rfl := Option.some.inj (within.symm.trans found)
      rw [Function.update_self]
      exact ⟨holds.1.2, holds.2⟩
    · rw [show Function.update sol a.x (a.solution (w t)) x = sol x from kept x mem]
      exact h.ranges holds.1.1 mem found
  -- the guards say no more of the new variable than its range does
  · intro env inside plain
    obtain ⟨before, plainArg⟩ := forall_mem_last.mp plain
    obtain ⟨n, value, limits⟩ := inside a.x known
    have at' : Scalar.index (arg.value ρ env) = a.at n := by
      rw [← value_simplify strict plainArg, Affine.value_of_ofExpr? affine value]
      exact Int.floor_intCast _
    have keysAgree : (∀ x ∈ inv.solved.keys, env.var x = (sol' x : K)) ↔
        ∀ x ∈ inv.solved.keys, env.var x = (sol x : K) :=
      forall₂_congr fun x mem => by rw [kept x mem]
    rw [forall_mem_last, h.reads inside before, at', a.at_eq_iff, prod_append_eq_one rfl, prod_append_eq_one rfl]
    change _ ↔ _ ∧ ∀ x ∈ Table.keys _, env.var x = (sol' x : K)
    simp only [keys, List.forall_mem_cons, own, keysAgree, value, Int.cast_inj]
    have bounds := limits range within
    constructor
    · rintro ⟨⟨holds, others⟩, same⟩
      exact ⟨⟨⟨holds, same ▸ bounds.1⟩, same ▸ bounds.2⟩, same, others⟩
    · rintro ⟨⟨⟨holds, -⟩, -⟩, same, others⟩
      exact ⟨⟨holds, others⟩, same⟩

theorem Solves.step (h : Solves reader region live ρ target w P Q done inv sol vs)
    (found : inv.solve? reader region live t arg = some inv') (strict : ¬Q .logic)
    (point : (Expr.var t : Expr (Exact K)).Represents ρ target P (w t : K)) :
    ∃ sol' vs', Solves reader region live ρ target w P Q (done ++ [(t, arg)]) inv' sol' vs' := by
  rcases solve?_eq_some found with ⟨k, integer, rfl⟩ | ⟨a, range, affine, known, fresh, within, rfl⟩
  · exact ⟨_, _, h.check strict integer point⟩
  · exact ⟨_, _, h.insert strict affine known fresh within point⟩

/-- All index arguments of a read, solved one after the other. -/
theorem Solves.run (strict : ¬Q .logic) {l : List (Name × Expr (Exact K))}
    (points : ∀ pair ∈ l, (Expr.var pair.1 : Expr (Exact K)).Represents ρ target P (w pair.1 : K))
    (h : Solves reader region live ρ target w P Q done inv sol vs)
    (found : l.foldlM (fun (inv : Inversion (Exact K)) (t, arg) => inv.solve? reader region live t arg) inv = some inv') :
    ∃ sol' vs', Solves reader region live ρ target w P Q (done ++ l) inv' sol' vs' := by
  induction l generalizing done inv sol vs with
  | nil =>
    obtain rfl := Option.some.inj found
    exact ⟨sol, vs, by rwa [List.append_nil]⟩
  | cons pair l ih =>
    rw [List.foldlM_cons] at found
    obtain ⟨next, first, rest⟩ := Option.bind_eq_some_iff.mp found
    obtain ⟨sol₁, vs₁, h₁⟩ := h.step first strict (points pair List.mem_cons_self)
    have result := ih (fun p mem => points p (List.mem_cons_of_mem _ mem)) h₁ rest
    rwa [List.append_assoc] at result

end

end Inversion

end ArrayDiff
