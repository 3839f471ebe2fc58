import ArrayDiff.Proofs.Gathering

/-!
# Variables of scattered contributions

A scatter runs over the reduction variables of a definition and over the arguments that it writes along, under made-up
names. It goes through every combination of their values once, and the interpreter reads every variable under the first
dimension of its name. So a made-up name that the definition has for a reduction variable stands for that variable, and
the argument is lost (`Func.scatter_resolves`). The variables are distinct exactly if that does not happen and neither
the reduction variables nor the arguments repeat a name (`Func.nodup_names_scatter`), and then each of them has its own
value (`Func.scatter_uncaptured`).
-/

namespace ArrayDiff

theorem eq_map_of_mapM {A B : Type} {l : List A} {bs : List B} {f : A → Option B} {c : A → B}
    (image : ∀ a b, f a = some b → b = c a) (run : l.mapM f = some bs) : bs = l.map c ∧ ∀ a ∈ l, f a = some (c a) := by
  induction l generalizing bs with
  | nil => exact ⟨(Option.some.inj run).symm, nofun⟩
  | cons a l ih =>
    rw [List.mapM_cons] at run
    obtain ⟨b, first, run⟩ := Option.bind_eq_some_iff.mp run
    obtain ⟨rest, others, run⟩ := Option.bind_eq_some_iff.mp run
    obtain ⟨rfl, images⟩ := ih others
    obtain rfl := image a b first
    exact ⟨(Option.some.inj run).symm, List.forall_mem_cons.mpr ⟨first, images⟩⟩

theorem map_lookup_coordinates {κ α : Type} [Scalar κ] [Scalar α] [Embed κ α] {names : List Name}
    (distinct : names.Nodup) {p : List Int} (length : p.length = names.length) :
    (names.map fun x => (coordinates κ names p : List (Name × α)).lookup x) = p.map fun n => some (coordinate κ n) := by
  refine List.ext_getElem (by rw [List.length_map, List.length_map, length]) fun i less lessPoint => ?_
  rw [List.length_map] at less lessPoint
  rw [List.getElem_map, List.getElem_map]
  exact lookup_coordinates distinct (List.getElem?_eq_getElem less) (List.getElem?_eq_getElem lessPoint)

namespace Func

variable {κ α : Type} [Extended κ] [Embed κ α] {reader : Func κ} {R : Domain} {d : Definition κ}
  {args lhs : List (Expr κ)} {v value : Expr κ} {rdom : ReductionDomain}

/-- The variables of the definition come first, then the arguments that it writes along. -/
theorem eq_join_of_scatter? (found : scatter? reader R d args v = some (.scatter lhs value rdom)) :
    rdom = d.rdom.elim (reader.scatterRanges R d) (·.join (reader.scatterRanges R d)) := by
  unfold scatter? at found
  obtain ⟨dims, mapped, found⟩ := Option.bind_eq_some_iff.mp found
  have own : (⟨dims⟩ : ReductionDomain) = reader.scatterRanges R d := by
    refine congrArg ReductionDomain.mk (eq_map_of_mapM (fun x dim ranged => ?_) mapped).1
    obtain ⟨range, known, rfl⟩ := Option.map_eq_some_iff.mp ranged
    rw [known, Option.getD_some]
  split at found
  · cases found
  · obtain ⟨-, -, rfl⟩ := Term.scatter.inj (Option.some.inj found)
    rw [own]

theorem names_scatter (found : scatter? reader R d args v = some (.scatter lhs value rdom)) :
    rdom.names = namesOf d.rdom ++ (reader.liveVars d).map (scatterVar reader) := by
  rw [eq_join_of_scatter? found, names_join, names_scatterRanges]

/-- Made-up names differ from each other, but nothing keeps them apart from the names that the definition has. -/
theorem nodup_names_scatter (found : scatter? reader R d args v = some (.scatter lhs value rdom)) :
    rdom.names.Nodup ↔ (namesOf d.rdom).Nodup ∧ (reader.liveVars d).Nodup ∧
      ∀ x ∈ reader.liveVars d, scatterVar reader x ∉ namesOf d.rdom := by
  rw [names_scatter found, List.nodup_append, List.nodup_map_iff fun _ _ => scatterVar_inj]
  refine and_congr_right fun _ => and_congr_right fun _ =>
    ⟨fun apart x mem listed => ?_, fun fresh y listed z mem => ?_⟩
  · exact apart _ listed _ (List.mem_map_of_mem mem) rfl
  · obtain ⟨x, live, rfl⟩ := List.mem_map.mp mem
    exact fun same => fresh x live (same ▸ listed)

theorem mem_points_scatter (found : scatter? reader R d args v = some (.scatter lhs value rdom)) {p : List Int} :
    p ∈ rdom.points ↔ ∃ r ∈ pointsOf d.rdom, ∃ x ∈ (reader.liveDomain R d).points, p = r ++ x := by
  rw [eq_join_of_scatter? found, mem_points_join]
  simp only [perm_scatterRanges.mem_iff]

/-- Every combination of values is run through once. The variables of the definition have the values that they have
there. An argument has its value from the region, unless the definition has a reduction variable of its made-up name,
whose value it has then. -/
theorem scatter_resolves (found : scatter? reader R d args v = some (.scatter lhs value rdom)) :
    rdom.points.Nodup ∧
    (∀ p, p ∈ rdom.points ↔ ∃ r ∈ pointsOf d.rdom, ∃ x ∈ (reader.liveDomain R d).points, p = r ++ x) ∧
    ∀ r ∈ pointsOf d.rdom, ∀ x : List Int,
      let env : Env α := ⟨[], coordinates κ rdom.names (r ++ x)⟩
      (∀ y ∈ namesOf d.rdom, env.rvars.lookup y = (coordinates κ (namesOf d.rdom) r).lookup y) ∧
      ∀ y, env.rvars.lookup (scatterVar reader y) =
        if scatterVar reader y ∈ namesOf d.rdom then (coordinates κ (namesOf d.rdom) r).lookup (scatterVar reader y)
        else (coordinates κ (reader.liveVars d) x).lookup y := by
  refine ⟨rdom.nodup_points, fun p => mem_points_scatter found, fun r outer x => ?_⟩
  have length := length_of_mem_pointsOf outer
  have joined : (coordinates κ rdom.names (r ++ x) : List (Name × α)) = coordinates κ (namesOf d.rdom) r ++
      coordinates κ ((reader.liveVars d).map (scatterVar reader)) x := by
    rw [names_scatter found, coordinates_append length]
  have own {y : Name} (mem : y ∈ namesOf d.rdom) : (coordinates κ rdom.names (r ++ x) : List (Name × α)).lookup y =
      (coordinates κ (namesOf d.rdom) r).lookup y := by
    obtain ⟨n, value⟩ := Option.isSome_iff_exists.mp (isSome_lookup_coordinates (κ := κ) (α := α) length mem)
    rw [joined, List.lookup_append, value, Option.some_or]
  refine ⟨fun y => own, fun y => ?_⟩
  split
  · exact own ‹_›
  · rename_i fresh
    change (coordinates κ rdom.names (r ++ x) : List (Name × α)).lookup _ = _
    rw [joined, List.lookup_append, lookup_coordinates_of_not_mem r fresh, Option.none_or]
    exact lookup_scatterVar _ _ y

/-- Unless a made-up name is taken, a scatter has distinct variables, goes through every combination of their values
once, and gives each variable its own value. -/
theorem scatter_uncaptured [Scalar α] (found : scatter? reader R d args v = some (.scatter lhs value rdom))
    (distinct : reader.args.Nodup) (apart : (namesOf d.rdom).Nodup)
    (fresh : ∀ x ∈ reader.liveVars d, scatterVar reader x ∉ namesOf d.rdom) :
    rdom.names.Nodup ∧ rdom.points.Nodup ∧
    (∀ p, p ∈ rdom.points ↔ ∃ r ∈ pointsOf d.rdom, ∃ x ∈ (reader.liveDomain R d).points, p = r ++ x) ∧
    ∀ p ∈ rdom.points, (rdom.names.map fun y => (coordinates κ rdom.names p : List (Name × α)).lookup y) =
      p.map fun n => some (coordinate κ n) := by
  have names : rdom.names.Nodup := (nodup_names_scatter found).mpr ⟨apart, distinct.filter _, fresh⟩
  refine ⟨names, rdom.nodup_points, fun p => mem_points_scatter found, fun p mem => ?_⟩
  have length : p.length = (namesOf (some rdom)).length := length_of_mem_pointsOf mem
  exact map_lookup_coordinates names length

end Func

/-- `f(x) += b(x, r)`, where the reduction variable is called `f$x`. -/
def capturing.update : Definition (Exact ℚ) :=
  ⟨[.var "x"], .binary .add (.call ⟨0⟩ [.var "x"]) (.load ⟨0⟩ [.var "x", .rvar "f$x"]), some ⟨[("f$x", ⟨0, 1⟩)]⟩⟩

def capturing : Func (Exact ℚ) where
  name := "f"
  args := ["x"]
  init := some ⟨[.var "x"], .zero, none⟩
  updates := [capturing.update]

/-- The value is sent along the diagonal only, twice to each of its positions. -/
example : scatter? capturing ⟨[⟨0, 1⟩]⟩ capturing.update [.var "x", .rvar "f$x"] (.call ⟨1⟩ [.var "x"]) =
    some (.scatter [.rvar "f$x", .rvar "f$x"] (.call ⟨1⟩ [.rvar "f$x"]) ⟨[("f$x", ⟨0, 1⟩), ("f$x", ⟨0, 1⟩)]⟩) := by
  rfl

end ArrayDiff
