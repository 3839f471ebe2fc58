import Mathlib.Data.List.Lex
import Mathlib.Data.List.Sort
import ArrayDiff.Domain

/-!
# Points of domains

`Domain.points` lists the points of a domain once each, and `Domain.position?` is the place of a point in that list
(`getElem?_position`).
-/

namespace ArrayDiff

namespace Interval

theorem sorted_toList (i : Interval) : i.toList.Pairwise (· < ·) :=
  List.pairwise_map.mpr (List.pairwise_lt_range.imp fun less => by omega)

theorem isEmpty_iff {i : Interval} : i.isEmpty = true ↔ i.max < i.min := by simp [isEmpty]

end Interval

/-- The coordinates of a point lie in the intervals. -/
abbrev Within (is : List Interval) (p : List Int) : Prop :=
  List.Forall₂ (fun (i : Interval) v => i.min ≤ v ∧ v ≤ i.max) is p

theorem within_append {is js : List Interval} {p : List Int} :
    Within (is ++ js) p ↔ ∃ r, Within is r ∧ ∃ x, Within js x ∧ p = r ++ x := by
  constructor
  · intro inside
    have flipped : List.Forall₂ (fun v (i : Interval) => i.min ≤ v ∧ v ≤ i.max) p (is ++ js) := inside.flip
    refine ⟨p.take is.length, (List.forall₂_take_append p is js flipped).flip, p.drop is.length,
      (List.forall₂_drop_append p is js flipped).flip, (List.take_append_drop _ _).symm⟩
  · rintro ⟨r, outer, x, inner, rfl⟩
    exact List.rel_append outer inner

namespace Domain

theorem mem_product {is : List Interval} {p : List Int} : p ∈ product is ↔ Within is p := by
  induction is generalizing p with
  | nil => simp [product]
  | cons i is ih =>
    cases p with
    | nil => simp [product]
    | cons v p => simp [product, ih, Interval.mem_toList]

theorem sorted_product (is : List Interval) : (product is).Pairwise (· < ·) := by
  induction is with
  | nil => simp [product]
  | cons i is ih =>
    refine List.pairwise_flatMap.mpr ⟨fun v _ => ?_, i.sorted_toList.imp fun {v w} less p left q right => ?_⟩
    · exact List.pairwise_map.mpr (ih.imp fun less => List.cons_lt_cons_iff.mpr (Or.inr ⟨rfl, less⟩))
    · obtain ⟨a, -, rfl⟩ := List.mem_map.mp left
      obtain ⟨b, -, rfl⟩ := List.mem_map.mp right
      exact List.cons_lt_cons_iff.mpr (Or.inl less)

theorem nodup_product (is : List Interval) : (product is).Nodup := (sorted_product is).imp ne_of_lt

theorem length_product (is : List Interval) : (product is).length = (is.map Interval.size).foldr (· * ·) 1 := by
  induction is with
  | nil => rfl
  | cons i is ih => simp [product, List.length_flatMap, ih, List.map_const', Interval.length_toList]

theorem contains_iff {d : Domain} {p : List Int} : d.contains p = true ↔ Within d.intervals p := by
  obtain ⟨is⟩ := d
  simp only [contains, Bool.and_eq_true, decide_eq_true_eq, List.all_eq_true]
  simp only [dims]
  induction is generalizing p with
  | nil => cases p <;> simp
  | cons i is ih =>
    cases p with
    | nil => simp
    | cons v p =>
      simp only [List.length_cons, Nat.add_right_cancel_iff, List.zip_cons_cons, List.forall_mem_cons,
        List.forall₂_cons, ← ih, Interval.contains, Bool.and_eq_true, decide_eq_true_eq]
      exact and_left_comm

theorem filter_product (d e : Domain) : d.points.filter e.contains = e.points.filter d.contains := by
  refine ((sorted_product _).filter _).eq_of_mem_iff ((sorted_product _).filter _) fun p => ?_
  simp only [List.mem_filter, contains_iff]
  exact ⟨fun ⟨inside, other⟩ => ⟨mem_product.mpr other, mem_product.mp inside⟩,
    fun ⟨inside, other⟩ => ⟨mem_product.mpr other, mem_product.mp inside⟩⟩

theorem mem_points {d : Domain} {p : List Int} : p ∈ d.points ↔ Within d.intervals p := mem_product

/-- The domain of a single point. -/
def single (p : List Int) : Domain := ⟨p.map .point⟩

theorem mem_single {p q : List Int} : q ∈ (single p).points ↔ q = p := by
  rw [mem_points, single]
  unfold Within
  induction p generalizing q with
  | nil => simp [List.forall₂_nil_left_iff]
  | cons v p ih =>
    cases q with
    | nil => simp
    | cons w q =>
      simp only [List.map_cons, List.forall₂_cons, List.cons.injEq, Interval.point] at ih ⊢
      rw [ih]
      exact and_congr_left fun _ => (le_antisymm_iff.trans and_comm).symm

theorem contains_eq_true {d : Domain} {p : List Int} : d.contains p = true ↔ p ∈ d.points :=
  contains_iff.trans mem_points.symm

theorem nodup_points (d : Domain) : d.points.Nodup := nodup_product _

theorem length_of_mem_points {d : Domain} {p : List Int} (h : p ∈ d.points) : p.length = d.dims :=
  (mem_points.mp h).length_eq.symm

theorem isEmpty_iff {d : Domain} : d.isEmpty = true ↔ ∃ i ∈ d.intervals, i.max < i.min := by
  simp [isEmpty, Interval.isEmpty_iff]

theorem not_isEmpty_of_mem {d : Domain} {p : List Int} (h : p ∈ d.points) : d.isEmpty = false := by
  rw [Bool.eq_false_iff, Ne, isEmpty_iff]
  rintro ⟨i, mem, empty⟩
  obtain ⟨k, bound, rfl⟩ := List.mem_iff_getElem.mp mem
  have inside := (mem_points.mp h).get bound (by rw [length_of_mem_points h]; exact bound)
  simp only [List.get_eq_getElem] at inside
  omega

theorem getElem?_flatMap_block {A B : Type} {f : A → List B} {n : Nat} (l : List A)
    (block : ∀ a ∈ l, (f a).length = n) {k j : Nat} (hj : j < n) :
    (l.flatMap f)[k * n + j]? = l[k]?.bind fun a => (f a)[j]? := by
  induction l generalizing k with
  | nil => simp
  | cons a l ih =>
    have size := block a List.mem_cons_self
    rw [List.flatMap_cons]
    cases k with
    | zero =>
      rw [Nat.zero_mul, Nat.zero_add, List.getElem?_append_left (by omega)]
      simp
    | succ k =>
      rw [List.getElem?_append_right (by rw [size, Nat.succ_mul]; omega), size,
        show (k + 1) * n + j - n = k * n + j by rw [Nat.succ_mul]; omega,
        ih fun b mem => block b (List.mem_cons_of_mem _ mem)]
      simp

theorem getElem?_rowMajor {is : List Interval} {p : List Int} (h : Within is p) :
    (product is)[rowMajor (is.map Interval.size) (is.zipWith (fun i v => (v - i.min).toNat) p)]? = some p ∧
      rowMajor (is.map Interval.size) (is.zipWith (fun i v => (v - i.min).toNat) p) < (product is).length := by
  induction h with
  | nil => simp [product, rowMajor]
  | @cons i v is p hv rest ih =>
    have inner := ih.2
    have block : ∀ w ∈ i.toList, ((product is).map (w :: ·)).length = (product is).length := by simp
    have found : i.toList[(v - i.min).toNat]? = some v := by
      have bound : (v - i.min).toNat < i.size := by simp only [Interval.size]; omega
      simp only [Interval.toList, List.getElem?_map, List.getElem?_range bound, Option.map_some]
      congr 1
      omega
    have at' : (product (i :: is))[rowMajor ((i :: is).map Interval.size)
        ((i :: is).zipWith (fun i v => (v - i.min).toNat) (v :: p))]? = some (v :: p) := by
      simp only [List.map_cons, List.zipWith_cons_cons, rowMajor, ← length_product, product]
      rw [getElem?_flatMap_block _ block inner, found]
      simp [ih.1]
    exact ⟨at', (List.getElem?_eq_some_iff.mp at').1⟩

theorem getElem?_position {d : Domain} {p : List Int} {k : Nat} (h : d.position? p = some k) :
    d.points[k]? = some p := by
  simp only [position?, offset?, Option.map_eq_some_iff] at h
  obtain ⟨offset, inside, rfl⟩ := h
  split at inside
  · rename_i contained
    obtain rfl := Option.some.inj inside
    exact (getElem?_rowMajor (contains_iff.mp contained)).1
  · cases inside

theorem position?_isSome {d : Domain} {p : List Int} : (d.position? p).isSome = true ↔ p ∈ d.points := by
  rw [← contains_eq_true]
  by_cases h : d.contains p = true <;> simp [position?, offset?, h]

theorem mem_of_position? {d : Domain} {p : List Int} {k : Nat} (h : d.position? p = some k) : p ∈ d.points :=
  position?_isSome.mp (by rw [h]; rfl)

theorem position?_inj {d : Domain} {p q : List Int} {k : Nat} (hp : d.position? p = some k)
    (hq : d.position? q = some k) : p = q :=
  Option.some.inj ((getElem?_position hp).symm.trans (getElem?_position hq))

theorem position?_lt {d : Domain} {p : List Int} {k : Nat} (h : d.position? p = some k) : k < d.points.length :=
  (List.getElem?_eq_some_iff.mp (getElem?_position h)).1

/-! ### Unions -/

theorem mem_intervalUnion {i j : Interval} {v : Int} (h : i.min ≤ v ∧ v ≤ i.max ∨ j.min ≤ v ∧ v ≤ j.max) :
    (i.union j).min ≤ v ∧ v ≤ (i.union j).max := by
  unfold Interval.union Interval.isEmpty
  simp only [decide_eq_true_eq]
  split
  · omega
  split
  · omega
  · change min i.min j.min ≤ v ∧ v ≤ max i.max j.max
    omega

theorem mem_union {d e : Domain} (dims : d.dims = e.dims) {p : List Int} (h : p ∈ d.points ∨ p ∈ e.points) :
    p ∈ (d.union e).points := by
  obtain ⟨is⟩ := d
  obtain ⟨js⟩ := e
  change is.length = js.length at dims
  have wider : ∀ {is js : List Interval} {p : List Int}, is.length = js.length → Within is p ∨ Within js p →
      Within (is.zipWith Interval.union js) p := by
    intro is
    induction is with
    | nil =>
      intro js p same h
      obtain rfl := List.length_eq_zero_iff.mp same.symm
      exact h.elim id id
    | cons i is ih =>
      intro js p same h
      cases js with
      | nil => cases same
      | cons j js =>
        have same : is.length = js.length := Nat.succ.inj same
        rcases h with h | h
        · cases h with
          | cons head tail => exact List.Forall₂.cons (mem_intervalUnion (Or.inl head)) (ih same (Or.inl tail))
        · cases h with
          | cons head tail => exact List.Forall₂.cons (mem_intervalUnion (Or.inr head)) (ih same (Or.inr tail))
  unfold union
  split
  · rename_i empty
    refine h.resolve_left fun mem => ?_
    rw [not_isEmpty_of_mem mem] at empty
    cases empty
  split
  · rename_i empty
    refine h.resolve_right fun mem => ?_
    rw [not_isEmpty_of_mem mem] at empty
    cases empty
  · simp only [mem_points] at h ⊢
    exact wider dims h

theorem dims_union {d e : Domain} (dims : d.dims = e.dims) : (d.union e).dims = d.dims := by
  unfold union
  split
  · exact dims.symm
  split
  · rfl
  · change (List.zipWith _ _ _).length = d.intervals.length
    rw [List.length_zipWith]
    exact min_eq_left dims.le

theorem mem_of_mem_empty {n : Nat} {p : List Int} (h : p ∈ (empty n).points) {d : Domain} (dims : d.dims = n) :
    p ∈ d.points := by
  cases n with
  | zero =>
    obtain ⟨is⟩ := d
    obtain rfl := List.length_eq_zero_iff.mp dims
    exact h
  | succ n =>
    have nonempty := not_isEmpty_of_mem h
    simp [empty, isEmpty, List.replicate_succ, Interval.isEmpty, Interval.empty] at nonempty

end Domain

namespace ReductionDomain

theorem mem_points {r : ReductionDomain} {p : List Int} : p ∈ r.points ↔ Within (r.dims.map (·.2)) p := by
  simp only [points, List.mem_map, Domain.mem_product]
  constructor
  · rintro ⟨q, inside, rfl⟩
    simpa using List.rel_reverse inside
  · intro inside
    exact ⟨p.reverse, List.rel_reverse inside, List.reverse_reverse p⟩

theorem nodup_points (r : ReductionDomain) : r.points.Nodup :=
  (Domain.nodup_product _).map List.reverse_injective

end ReductionDomain

end ArrayDiff
