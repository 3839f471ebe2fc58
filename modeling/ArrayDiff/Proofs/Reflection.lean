import ArrayDiff.Adjoint.Sweep
import ArrayDiff.Proofs.Coordinates
import ArrayDiff.Proofs.Substitution

/-!
# Reduction domains run backwards

`ReductionDomain.flip` mirrors a point in the middle of its domain. Mirroring all points lists them in reverse
(`map_flip_points`), and a reflected expression has at a point the value that the expression has at the mirrored one
(`represents_reflect`).
-/

open ArrayDiff.Expr

namespace ArrayDiff

theorem Table.get?_ofList_of_mem {α β : Type} [DecidableEq α] {entries : List (α × β)} {a : α} {b : β}
    (distinct : (entries.map (·.1)).Nodup) (mem : (a, b) ∈ entries) : (Table.ofList entries).get? a = some b := by
  rw [get?_ofList]
  cases found : entries.reverse.find? (·.1 = a) with
  | none =>
    have other := List.find?_eq_none.mp found (a, b) (List.mem_reverse.mpr mem)
    simp at other
  | some e =>
    have listed : e ∈ entries := List.mem_reverse.mp (List.mem_of_find?_eq_some found)
    have key : e.1 = a := by simpa using List.find?_some found
    rw [List.inj_on_of_nodup_map distinct listed mem key]
    rfl

theorem Interval.map_toList_mirrored (i : Interval) : i.toList.map (fun v => i.min + i.max - v) = i.toList.reverse := by
  apply List.ext_getElem
  · simp
  · intro k hk hk'
    have less : k < i.size := by simpa [Interval.length_toList] using hk
    simp only [Interval.toList, List.getElem_map, List.getElem_range, List.getElem_reverse, List.length_map,
      List.length_range]
    unfold Interval.size at less ⊢
    omega

/-- The point mirrored in the middle of the intervals. -/
def mirror (is : List Interval) (p : List Int) : List Int := is.zipWith (fun i v => i.min + i.max - v) p

theorem Domain.map_mirror_product (is : List Interval) : (product is).map (mirror is) = (product is).reverse := by
  induction is with
  | nil => rfl
  | cons i is ih =>
    have inner (v : Int) : ((product is).map (v :: ·)).map (mirror (i :: is)) =
        ((product is).reverse).map ((i.min + i.max - v) :: ·) := by
      rw [← ih, List.map_map, List.map_map]
      rfl
    unfold product
    rw [List.map_flatMap, List.reverse_flatMap, ← i.map_toList_mirrored, List.flatMap_map]
    refine List.flatMap_congr fun v _ => ?_
    rw [inner, List.map_reverse]
    rfl

namespace ReductionDomain

variable {rdom : ReductionDomain} {r : List Int}

/-- The sums of the ends of all ranges are computed without overflow. -/
def SumsFit (rdom : ReductionDomain) : Prop := ∀ d ∈ rdom.dims, d.2.endSum = d.2.min + d.2.max

instance decidableSumsFit : Decidable rdom.SumsFit := inferInstanceAs (Decidable (∀ d ∈ rdom.dims, _))

/-- The point mirrored in the middle of the domain. -/
def flip (rdom : ReductionDomain) (r : List Int) : List Int := mirror (rdom.dims.map (·.2)) r

theorem map_flip_points (rdom : ReductionDomain) : rdom.points.map rdom.flip = rdom.points.reverse := by
  have mirrored : ∀ q ∈ Domain.product (rdom.dims.map (·.2)).reverse,
      rdom.flip q.reverse = (mirror (rdom.dims.map (·.2)).reverse q).reverse := by
    intro q mem
    have length : (rdom.dims.map (·.2)).reverse.length = q.length := (Domain.mem_product.mp mem).length_eq
    unfold flip mirror
    rw [List.reverse_zipWith length, List.reverse_reverse]
  unfold points
  rw [← List.map_reverse (f := List.reverse), ← Domain.map_mirror_product, List.map_map, List.map_map]
  exact List.map_congr_left mirrored

theorem flip_mem_points (mem : r ∈ rdom.points) : rdom.flip r ∈ rdom.points := by
  have listed : rdom.flip r ∈ rdom.points.map rdom.flip := List.mem_map_of_mem mem
  rw [map_flip_points] at listed
  exact List.mem_reverse.mp listed

theorem coordinateOf_flip (distinct : rdom.names.Nodup) (length : r.length = rdom.names.length) {x : Name} {i : Interval}
    (listed : (x, i) ∈ rdom.dims) :
    coordinateOf rdom.names (rdom.flip r) x = i.min + i.max - coordinateOf rdom.names r x := by
  obtain ⟨k, at'⟩ := List.mem_iff_getElem?.mp listed
  have name : rdom.names[k]? = some x := by rw [names, List.getElem?_map, at']; rfl
  have lessR : k < r.length := by rw [length]; exact (List.getElem?_eq_some_iff.mp name).1
  have value := List.getElem?_eq_getElem lessR
  rw [coordinateOf_eq distinct name value]
  refine coordinateOf_eq distinct name ?_
  unfold flip mirror
  rw [List.getElem?_zipWith, List.getElem?_map, at', value]
  rfl

end ReductionDomain

/-! ### Reflected expressions -/

theorem Sweep.get?_flipped {κ : Type} [Extended κ] {rdom : ReductionDomain} (distinct : rdom.names.Nodup) {x : Name}
    {i : Interval} (listed : (x, i) ∈ rdom.dims) :
    (flipped rdom).get? x = some (Smart.sub (Expr.ofInt i.endSum) (.rvar x) : Expr κ) := by
  unfold flipped
  refine Table.get?_ofList_of_mem ?_ (List.mem_map_of_mem listed)
  rw [List.map_map]
  exact distinct

variable {K : Type} [Field K] [LinearOrder K] [IsStrictOrderedRing K] [FloorRing K] [Transcendental K]

namespace Sweep

variable {rdom : ReductionDomain} {d : Definition (Exact K)} {ρ : Valuation K} {vars : List Name} {T : Target → Prop}
  {p r : List Int} {e : Expr (Exact K)}

section

omit [IsStrictOrderedRing K]

theorem represents_flipped (distinct : rdom.names.Nodup) (fit : rdom.SumsFit) (mem : r ∈ rdom.points) {x : Name}
    (own : x ∈ rdom.names) :
    (((flipped rdom).get? x).getD (.rvar x)).Represents ρ (d.iteration rdom p r) (Atom.Among vars rdom.names T False)
      ((d.iteration rdom p (rdom.flip r)).rvar x) := by
  obtain ⟨⟨y, i⟩, listed, rfl⟩ := List.mem_map.mp own
  rw [get?_flipped distinct listed, Option.getD_some, fit _ listed]
  unfold Definition.iteration
  rw [rvar_coordinates, ReductionDomain.coordinateOf_flip distinct (ReductionDomain.length_of_mem_points mem) listed,
    Int.cast_sub]
  refine Smart.represents_sub (Represents.ofInt _) ⟨(plain_rvar _ _ _ y).mpr own, ?_⟩
  rw [value_rvar, rvar_coordinates]

theorem represents_kept {x : Name} (own : x ∈ vars) : (.var x : Expr (Exact K)).Represents ρ (d.iteration rdom p r)
    (Atom.Among vars rdom.names T False) ((d.iteration rdom p (rdom.flip r)).var x) :=
  ⟨(plain_var _ _ _ x).mpr own, value_var _ _ x⟩

/-- A reflected expression has the value of the expression at the mirrored point. -/
theorem represents_reflect (distinct : rdom.names.Nodup) (fit : rdom.SumsFit) (mem : r ∈ rdom.points) {v : K}
    (h : e.Represents ρ (d.iteration rdom p (rdom.flip r)) (Atom.Among vars rdom.names T False) v) :
    (reflect rdom e).Represents ρ (d.iteration rdom p r) (Atom.Among vars rdom.names T False) v :=
  have bound := h.bind (fun _ => represents_kept) (fun _ => represents_flipped distinct fit mem)
    (fun _ allowed => allowed) id
  bound.simplify id

end

theorem reflect_simplify (distinct : rdom.names.Nodup) (fit : rdom.SumsFit) (mem : r ∈ rdom.points)
    (plain : e.Plain ρ (d.iteration rdom p (rdom.flip r)) (Atom.Among vars rdom.names T False)) :
    reflect rdom e = reflect rdom e.simplify :=
  have strict : ¬(Atom.Among vars rdom.names T False) .logic := id
  simplify_bind strict strict (fun _ => represents_kept) (fun _ => represents_flipped distinct fit mem)
    (fun _ allowed => allowed) plain

theorem varName?_reflect (distinct : rdom.names.Nodup) (fit : rdom.SumsFit) (mem : r ∈ rdom.points)
    (plain : e.Plain ρ (d.iteration rdom p (rdom.flip r)) (Atom.Among vars rdom.names T False)) {c : Coord}
    (coordinate : Coord.ofExpr? e = some c) : (reflect rdom e).varName? = c.pure? := by
  have spelled := Coord.spelledBy_of_ofSimplified? coordinate
  rw [reflect_simplify distinct fit mem plain]
  cases own : c.pure? with
  | some x =>
    rw [spelled.eq_var own]
    rfl
  | none =>
    have closed : e.simplify.Neat [] rdom.names T := by
      intro ρ env a listed
      have node := plain.neat.simplify ρ env a listed
      cases a with
      | var x => exact absurd listed (spelled.not_mem_var own x)
      | _ => exact node
    have images : ∀ x ∈ rdom.names, (((flipped rdom).get? x).getD (.rvar x) : Expr (Exact K)).Neat [] rdom.names T :=
      fun x listed => (represents_flipped (d := d) (ρ := ρ) (p := p) distinct fit mem listed).plain.neat
    exact (closed.bind (fun x absent => absurd absent List.not_mem_nil) images).simplify.varName?_eq_none

theorem map_varName?_reflect (distinct : rdom.names.Nodup) (fit : rdom.SumsFit) (mem : r ∈ rdom.points)
    {args : List (Expr (Exact K))} {cs : List Coord} (listed : Coord.Listed args cs)
    (plain : ∀ e ∈ args, e.Plain ρ (d.iteration rdom p (rdom.flip r)) (Atom.Among vars rdom.names T False)) :
    (args.map (reflect rdom)).map varName? = cs.map Coord.pure? := by
  induction listed with
  | nil => rfl
  | @cons e c args cs head tail ih =>
    rw [List.map_cons, List.map_cons, List.map_cons, ih fun a mem => plain a (List.mem_cons_of_mem _ mem),
      varName?_reflect distinct fit mem (plain e List.mem_cons_self) head]

end Sweep

end ArrayDiff
