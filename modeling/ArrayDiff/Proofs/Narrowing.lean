import Mathlib.Data.List.Nodup
import ArrayDiff.Proofs.Inclusion
import ArrayDiff.Proofs.Nodes
import ArrayDiff.Proofs.Points

/-!
# Narrower scopes

When every variable has a narrower range, it has a narrower one under every condition, so that fewer branches can be
taken (`Scope.Under.narrow`). Expressions without logarithms and powers have narrower ranges then (`Expr.span_inside`),
and their reads are among the reads in the wider scope (`Expr.accesses_inside`).
-/

namespace ArrayDiff

variable {K : Type} [Field K] [LinearOrder K] [FloorRing K] [Transcendental K]

theorem Table.get?_of_mem {A B : Type} [DecidableEq A] {t : Table A B} {a : A} {b : B} (distinct : t.keys.Nodup)
    (mem : (a, b) ∈ t.entries) : t.get? a = some b := by
  obtain ⟨b', found⟩ := Table.mem_keys.mp (List.mem_map_of_mem mem)
  have same := List.inj_on_of_nodup_map distinct mem (Table.mem_entries found) rfl
  rw [found, ← (Prod.mk.inj same).2]

theorem Table.mem_values {A B : Type} {t : Table A B} {b : B} : b ∈ t.values ↔ ∃ a, (a, b) ∈ t.entries := by
  unfold Table.values
  simp

/-! ### Ranges that conditions restrict -/

namespace Exact

variable {a b : Exact K} {x : K}

section

omit [Field K] [FloorRing K] [Transcendental K]

theorem below_max_iff (defined : a ≠ undefined) : Below x (a.max b) ↔ Below x a ∧ (b = undefined ∨ Below x b) := by
  have undefined : a.max .undefined = a := by
    cases a <;> rfl
  constructor
  · intro h
    refine ⟨h.of_lessEq (lessEq_max_left defined b), ?_⟩
    by_cases known : b = .undefined
    · exact .inl known
    · exact .inr (h.of_lessEq (lessEq_max_right a known))
  · rintro ⟨first, rfl | second⟩
    · rwa [undefined]
    · exact Scope.below_max_both first second

theorem above_min_iff (defined : a ≠ undefined) : Above x (a.min b) ↔ Above x a ∧ (b = undefined ∨ Above x b) := by
  have undefined : a.min .undefined = a := by
    cases a <;> rfl
  constructor
  · intro h
    refine ⟨h.of_lessEq (min_lessEq_left defined b), ?_⟩
    by_cases known : b = .undefined
    · exact .inl known
    · exact .inr (h.of_lessEq (min_lessEq_right a known))
  · rintro ⟨first, rfl | second⟩
    · rwa [undefined]
    · exact Scope.above_min_both first second

theorem bottom_less_max (h : bottom.less a = true) (b : Exact K) : bottom.less (a.max b) = true := by
  rcases max_eq a b with same | same <;> rw [same]
  · exact h
  · cases b with
    | number _ | top => rfl
    | bottom | undefined => cases a <;> first | (cases h; done) | cases same

theorem min_less_top (h : a.less top = true) (b : Exact K) : (a.min b).less top = true := by
  rcases min_eq a b with same | same <;> rw [same]
  · exact h
  · cases b with
    | number _ | bottom => rfl
    | top | undefined => cases a <;> first | (cases h; done) | cases same

end

end Exact

namespace Span

open Exact

variable {s t : Span (Exact K)} {i j : Interval}

/-- A range that is empty or between two numbers. -/
structure Limited (s : Span (Exact K)) : Prop where
  lo : bottom.less s.lo = true
  hi : s.hi.less top = true

omit [Field K] [FloorRing K] [Transcendental K] in
theorem Limited.lo_ne_undefined (h : s.Limited) : s.lo ≠ undefined := by
  intro same
  have lo := h.lo
  rw [same] at lo
  cases lo

omit [Field K] [FloorRing K] [Transcendental K] in
theorem Limited.hi_ne_undefined (h : s.Limited) : s.hi ≠ undefined := by
  intro same
  have hi := h.hi
  rw [same] at hi
  cases hi

theorem Limited.proper (h : s.Limited) : s.Proper := by
  obtain ⟨lo, hi⟩ := s
  obtain ⟨low, high⟩ := h
  cases lo with
  | bottom | undefined => cases low
  | top =>
    cases hi with
    | top | undefined => cases high
    | number _ | bottom => exact .inl rfl
  | number x =>
    cases hi with
    | top | undefined => cases high
    | bottom => exact .inl rfl
    | number y =>
      by_cases less : y < x
      · exact .inl (decide_eq_true less)
      · exact Holds.proper (x := x) ⟨le_refl x, not_lt.mp less⟩

theorem limited_ofInterval (i : Interval) : (ofInterval i : Span (Exact K)).Limited := by
  unfold ofInterval
  split <;> exact ⟨rfl, rfl⟩

theorem Limited.restrictSpan (h : s.Limited) (op : Comparison) (c : Exact K) :
    (Scope.restrictSpan op c s).Limited := by
  cases op with
  | lt | le => exact ⟨h.lo, min_less_top h.hi _⟩
  | gt | ge => exact ⟨bottom_less_max h.lo _, h.hi⟩
  | eq => exact ⟨bottom_less_max h.lo _, min_less_top h.hi _⟩
  | ne => exact h

/-- Conditions restrict a range inside another one at least as much as the other one. -/
theorem Inside.restrictSpan (h : s.Inside t) (limited : s.Limited) (op : Comparison) (c : Exact K) :
    (Scope.restrictSpan op c s).Inside (Scope.restrictSpan op c t) := by
  have raise {b : Exact K} {x : K} (inner : Below x (s.lo.max b)) (outer : Below x s.lo → Below x t.lo) :
      Below x (t.lo.max b) := by
    obtain ⟨own, bound⟩ := (below_max_iff limited.lo_ne_undefined).mp inner
    exact (below_max_iff (outer own).ne_undefined).mpr ⟨outer own, bound⟩
  have lower {b : Exact K} {x : K} (inner : Above x (s.hi.min b)) (outer : Above x s.hi → Above x t.hi) :
      Above x (t.hi.min b) := by
    obtain ⟨own, bound⟩ := (above_min_iff limited.hi_ne_undefined).mp inner
    exact (above_min_iff (outer own).ne_undefined).mpr ⟨outer own, bound⟩
  have above {b : Exact K} {x : K} (inner : Above x (s.hi.min b)) : Above x s.hi :=
    ((above_min_iff limited.hi_ne_undefined).mp inner).1
  have below {b : Exact K} {x : K} (inner : Below x (s.lo.max b)) : Below x s.lo :=
    ((below_max_iff limited.lo_ne_undefined).mp inner).1
  intro x held
  cases op with
  | lt | le => exact ⟨(h x ⟨held.lo, above held.hi⟩).lo, lower held.hi fun own => (h x ⟨held.lo, own⟩).hi⟩
  | gt | ge => exact ⟨raise held.lo fun own => (h x ⟨own, held.hi⟩).lo, (h x ⟨below held.lo, held.hi⟩).hi⟩
  | eq =>
    exact ⟨raise held.lo fun own => (h x ⟨own, above held.hi⟩).lo, lower held.hi fun own => (h x ⟨below held.lo, own⟩).hi⟩
  | ne => exact h x held

theorem isEmpty_ofInterval (empty : i.isEmpty = true) : (ofInterval i : Span (Exact K)).isEmpty = true := by
  unfold ofInterval
  rw [if_pos empty]
  rfl

variable [IsStrictOrderedRing K] in
theorem inside_ofInterval (inside : i.Inside j) : (ofInterval i : Span (Exact K)).Inside (ofInterval j) := by
  by_cases empty : i.isEmpty = true
  · exact inside_of_isEmpty (isEmpty_ofInterval empty) _
  have nested := (Interval.inside_iff.mp inside).resolve_left fun less => empty (decide_eq_true less)
  have filled : ¬j.isEmpty = true := by
    simp only [Interval.isEmpty, decide_eq_true_eq] at empty ⊢
    omega
  unfold ofInterval
  rw [if_neg empty, if_neg filled]
  exact fun x held => ⟨(Int.cast_le.mpr nested.1).trans held.lo, held.hi.trans (Int.cast_le.mpr nested.2)⟩

end Span

/-! ### Scopes -/

/-- The ranges of variables of one kind. -/
abbrev Ranges (K : Type) := Table Name (Span (Exact K))

namespace Ranges

variable {t t' : Ranges K} {x : Name} {r r' : Span (Exact K)}

/-- Every variable has one range, which is empty or between two numbers. -/
structure Limited (t : Ranges K) : Prop where
  keys : t.keys.Nodup
  limited {x : Name} {r : Span (Exact K)} : t.get? x = some r → r.Limited

/-- The same variables, with ranges inside of those in the other table. -/
def Inside (t t' : Ranges K) : Prop := ∀ x, Option.Rel Span.Inside (t.get? x) (t'.get? x)

section

omit [Field K] [FloorRing K] [Transcendental K]

theorem limited_empty : Limited (Table.empty : Ranges K) := ⟨List.nodup_nil, nofun⟩

theorem Limited.insert (h : Limited t) (limited : r.Limited) : Limited (t.insert x r) := by
  refine ⟨List.nodup_cons.mpr ⟨?_, (List.filter_sublist.map _).nodup h.keys⟩, fun {y r'} found => ?_⟩
  · intro mem
    obtain ⟨e, kept, same⟩ := List.mem_map.mp mem
    exact of_decide_eq_true (List.mem_filter.mp kept).2 same
  · rw [Table.get?_insert] at found
    split at found
    · exact Option.some.inj found ▸ limited
    · exact h.limited found

theorem Limited.modify (h : Limited t) {f : Span (Exact K) → Span (Exact K)} (kept : ∀ r, r.Limited → (f r).Limited) :
    Limited (t.modify x f) := by
  refine ⟨?_, fun {y r'} found => ?_⟩
  · have same : (t.modify x f).keys = t.keys := by
      unfold Table.modify Table.keys
      rw [List.map_map]
      refine List.map_congr_left fun e _ => ?_
      simp only [Function.comp_def]
      split <;> rfl
    rw [same]
    exact h.keys
  · rw [Table.get?_modify] at found
    split at found
    · obtain ⟨r, before, rfl⟩ := Option.map_eq_some_iff.mp found
      exact kept r (h.limited before)
    · exact h.limited found

theorem Inside.insert (h : Inside t t') (inside : r.Inside r') : Inside (t.insert x r) (t'.insert x r') := by
  intro y
  rw [Table.get?_insert, Table.get?_insert]
  split
  · exact .some inside
  · exact h y

theorem Inside.modify (h : Inside t t') (limited : Limited t) {f : Span (Exact K) → Span (Exact K)}
    (kept : ∀ r r', r.Inside r' → r.Limited → (f r).Inside (f r')) : Inside (t.modify x f) (t'.modify x f) := by
  intro y
  rw [Table.get?_modify, Table.get?_modify]
  split
  · have own := h y
    cases found : t.get? y with
    | none =>
      cases found' : t'.get? y with
      | none => exact .none
      | some r' =>
        rw [found, found'] at own
        cases own
    | some r =>
      cases found' : t'.get? y with
      | none =>
        rw [found, found'] at own
        cases own
      | some r' =>
        rw [found, found'] at own
        cases own with
        | some inside => exact .some (kept r r' inside (limited.limited found))
  · exact h y

end

theorem Inside.isEmpty (h : Inside t t') (limited : Limited t) (limited' : Limited t')
    (empty : t'.values.any Span.isEmpty = true) : t.values.any Span.isEmpty = true := by
  obtain ⟨r', mem, isEmpty⟩ := List.any_eq_true.mp empty
  obtain ⟨x, mem⟩ := Table.mem_values.mp mem
  have own := h x
  rw [Table.get?_of_mem limited'.keys mem] at own
  cases found : t.get? x with
  | none =>
    rw [found] at own
    cases own
  | some r =>
    rw [found] at own
    cases own with
    | some inside =>
      refine List.any_eq_true.mpr ⟨r, Table.mem_values.mpr ⟨x, Table.mem_entries found⟩, ?_⟩
      exact (limited.limited found).proper.isEmpty_of_inside inside isEmpty

end Ranges

namespace Scope

variable {s s' : Scope (Exact K)}

/-- The scopes there are: variables are bound to intervals, and ranges are narrowed by conditions. -/
inductive Made : Scope (Exact K) → Prop where
  | new : Made {}
  | bindVar {s : Scope (Exact K)} (x : Name) (i : Interval) : Made s → Made (s.bindVar x i)
  | bindRVar {s : Scope (Exact K)} (x : Name) (i : Interval) : Made s → Made (s.bindRVar x i)
  | narrow {s : Scope (Exact K)} (c : Expr (Exact K)) (holds : Bool) : Made s → Made (s.narrow c holds)

structure Limited (s : Scope (Exact K)) : Prop where
  vars : Ranges.Limited s.vars
  rvars : Ranges.Limited s.rvars

/-- The same variables, each of them in a narrower range. -/
structure Inside (s s' : Scope (Exact K)) : Prop where
  vars : Ranges.Inside s.vars s'.vars
  rvars : Ranges.Inside s.rvars s'.rvars

/-- What narrower scopes keep when both are restricted alike. -/
structure Under (s s' : Scope (Exact K)) : Prop where
  limited : s.Limited
  limited' : s'.Limited
  inside : s.Inside s'

/-- What restricting variables alike keeps, restricting two scopes by a condition keeps. -/
theorem narrow_rel {R : Scope (Exact K) → Scope (Exact K) → Prop}
    (restrict : ∀ s s' op c e, R s s' → R (s.restrictVar op c e) (s'.restrictVar op c e))
    (s s' : Scope (Exact K)) (h : R s s') (c : Expr (Exact K)) (holds : Bool) :
    R (s.narrow c holds) (s'.narrow c holds) := by
  have compare {s s' : Scope (Exact K)} (h : R s s') (op : Comparison) (a b : Expr (Exact K)) :
      R (s.compare op a b) (s'.compare op a b) := by
    unfold Scope.compare
    split
    · exact restrict _ _ _ _ _ h
    · exact restrict _ _ _ _ _ h
    · exact h
  induction c generalizing s s' holds with
  | and a b iha ihb =>
    cases holds with
    | true => exact ihb _ _ (iha _ _ h true) true
    | false => exact h
  | or a b iha ihb =>
    cases holds with
    | true => exact h
    | false => exact ihb _ _ (iha _ _ h false) false
  | not a ih => exact ih _ _ h _
  | compare op a b =>
    cases holds with
    | true => exact compare h op a b
    | false =>
      unfold Scope.narrow
      cases op.negate? with
      | none => exact h
      | some op' => exact compare h op' a b
  | _ => cases holds <;> exact h

theorem Limited.restrictVar (h : s.Limited) (op : Comparison) (c : Exact K) (e : Expr (Exact K)) :
    (s.restrictVar op c e).Limited := by
  unfold Scope.restrictVar
  split
  · exact ⟨h.vars.modify fun _ limited => limited.restrictSpan op c, h.rvars⟩
  · exact ⟨h.vars, h.rvars.modify fun _ limited => limited.restrictSpan op c⟩
  · exact h

theorem Limited.narrow (h : s.Limited) (c : Expr (Exact K)) (holds : Bool) : (s.narrow c holds).Limited :=
  narrow_rel (R := fun t _ => t.Limited) (fun _ _ op c e h => h.restrictVar op c e) s s h c holds

theorem Made.limited (h : s.Made) : s.Limited := by
  induction h with
  | new => exact ⟨Ranges.limited_empty, Ranges.limited_empty⟩
  | bindVar x i _ ih => exact ⟨ih.vars.insert (Span.limited_ofInterval i), ih.rvars⟩
  | bindRVar x i _ ih => exact ⟨ih.vars, ih.rvars.insert (Span.limited_ofInterval i)⟩
  | narrow c holds _ ih => exact ih.narrow c holds

namespace Under

theorem restrictVar (h : s.Under s') (op : Comparison) (c : Exact K) (e : Expr (Exact K)) :
    (s.restrictVar op c e).Under (s'.restrictVar op c e) := by
  refine ⟨h.limited.restrictVar op c e, h.limited'.restrictVar op c e, ?_⟩
  have kept (r r' : Span (Exact K)) (inside : r.Inside r') (limited : r.Limited) :
      (restrictSpan op c r).Inside (restrictSpan op c r') := inside.restrictSpan limited op c
  unfold Scope.restrictVar
  split
  · exact ⟨h.inside.vars.modify h.limited.vars kept, h.inside.rvars⟩
  · exact ⟨h.inside.vars, h.inside.rvars.modify h.limited.rvars kept⟩
  · exact h.inside

theorem narrow (h : s.Under s') (c : Expr (Exact K)) (holds : Bool) : (s.narrow c holds).Under (s'.narrow c holds) :=
  narrow_rel (fun _ _ op c e h => h.restrictVar op c e) s s' h c holds

/-- A branch that can be taken in the narrower scope can be taken in the wider one. -/
theorem isReachable (h : s.Under s') (reachable : s.isReachable = true) : s'.isReachable = true := by
  unfold Scope.isReachable at reachable ⊢
  rw [Bool.not_eq_true'] at reachable ⊢
  rw [List.any_append, Bool.or_eq_false_iff] at reachable ⊢
  refine ⟨?_, ?_⟩
  · by_contra empty
    rw [h.inside.vars.isEmpty h.limited.vars h.limited'.vars (Bool.not_eq_false _ ▸ empty)] at reachable
    cases reachable.1
  · by_contra empty
    rw [h.inside.rvars.isEmpty h.limited.rvars h.limited'.rvars (Bool.not_eq_false _ ▸ empty)] at reachable
    cases reachable.2

end Under

theorem Inside.under (h : s.Inside s') (made : s.Made) (made' : s'.Made) : s.Under s' :=
  ⟨made.limited, made'.limited, h⟩

/-! ### Scopes of definitions -/

namespace Under

variable {x : Name} {i j : Interval}

theorem new : Under ({} : Scope (Exact K)) {} :=
  ⟨Made.new.limited, Made.new.limited, ⟨fun _ => .none, fun _ => .none⟩⟩

variable [IsStrictOrderedRing K] in
theorem bindVar (h : s.Under s') (inside : i.Inside j) : (s.bindVar x i).Under (s'.bindVar x j) :=
  ⟨⟨h.limited.vars.insert (Span.limited_ofInterval i), h.limited.rvars⟩,
    ⟨h.limited'.vars.insert (Span.limited_ofInterval j), h.limited'.rvars⟩,
    ⟨h.inside.vars.insert (Span.inside_ofInterval inside), h.inside.rvars⟩⟩

theorem bindRVar (h : s.Under s') : (s.bindRVar x i).Under (s'.bindRVar x i) :=
  ⟨⟨h.limited.vars, h.limited.rvars.insert (Span.limited_ofInterval i)⟩,
    ⟨h.limited'.vars, h.limited'.rvars.insert (Span.limited_ofInterval i)⟩,
    ⟨h.inside.vars, h.inside.rvars.insert (Span.Inside.refl _)⟩⟩

theorem bindReduction (h : s.Under s') (r : ReductionDomain) : (s.bindReduction r).Under (s'.bindReduction r) := by
  unfold Scope.bindReduction
  induction r.dims generalizing s s' with
  | nil => exact h
  | cons entry dims ih => exact ih h.bindRVar

end Under

variable {func : Func (Exact K)} {d : Definition (Exact K)} {region region' : Domain}

variable [IsStrictOrderedRing K] in
theorem under_ofDefinition (inside : List.Forall₂ Interval.Inside region.intervals region'.intervals) :
    (Scope.ofDefinition func d region).Under (Scope.ofDefinition func d region') := by
  have pure (names : List Name) {is js : List Interval} (inside : List.Forall₂ Interval.Inside is js)
      {s s' : Scope (Exact K)} (h : s.Under s') :
      ((names.zip is).foldl (fun s e => s.bindVar e.1 e.2) s).Under
        ((names.zip js).foldl (fun s e => s.bindVar e.1 e.2) s') := by
    induction names generalizing is js s s' with
    | nil => exact h
    | cons x names ih =>
      cases inside with
      | nil => exact h
      | cons first rest => exact ih rest (h.bindVar first)
  have start := pure func.args inside .new
  unfold Scope.ofDefinition
  cases d.rdom with
  | none => exact start
  | some r => exact start.bindReduction r

theorem vars_bindReduction (s : Scope (Exact K)) (r : ReductionDomain) : (s.bindReduction r).vars = s.vars := by
  unfold Scope.bindReduction
  induction r.dims generalizing s with
  | nil => rfl
  | cons entry dims ih => exact ih (s.bindRVar entry.1 entry.2)

theorem get?_foldl_bindVar {entries : List (Name × Interval)} {x : Name} (fresh : x ∉ entries.map (·.1))
    (s : Scope (Exact K)) : (entries.foldl (fun s e => s.bindVar e.1 e.2) s).vars.get? x = s.vars.get? x := by
  induction entries generalizing s with
  | nil => rfl
  | cons entry entries ih =>
    rw [List.map_cons, List.mem_cons, not_or] at fresh
    rw [List.foldl_cons, ih fresh.2]
    exact (Table.get?_insert _ _ _ _).trans (if_neg fun same => fresh.1 same.symm)

theorem get?_ofDefinition (distinct : func.args.Nodup) {x : Name} {i : Interval}
    (mem : (x, i) ∈ func.args.zip region.intervals) :
    (Scope.ofDefinition func d region : Scope (Exact K)).vars.get? x = some (.ofInterval i) := by
  have bound (names : List Name) (distinct : names.Nodup) (is : List Interval) (mem : (x, i) ∈ names.zip is)
      (s : Scope (Exact K)) :
      ((names.zip is).foldl (fun s e => s.bindVar e.1 e.2) s).vars.get? x = some (.ofInterval i) := by
    induction names generalizing is s with
    | nil => cases mem
    | cons y names ih =>
      obtain ⟨fresh, distinct⟩ := List.nodup_cons.mp distinct
      cases is with
      | nil => cases mem
      | cons j is =>
        rw [List.zip_cons_cons, List.foldl_cons]
        rcases List.mem_cons.mp mem with same | mem
        · obtain ⟨rfl, rfl⟩ := Prod.mk.inj same
          rw [get?_foldl_bindVar fun listed => fresh ?_]
          · exact (Table.get?_insert _ _ _ _).trans (if_pos rfl)
          · obtain ⟨e, zipped, first⟩ := List.mem_map.mp listed
            exact first ▸ (List.of_mem_zip (b := e.2) zipped).1
        · exact ih distinct is mem _
  have start := bound func.args distinct region.intervals mem {}
  unfold Scope.ofDefinition
  cases d.rdom with
  | none => exact start
  | some r => exact (congrArg (Table.get? · x) (vars_bindReduction _ r)).trans start

theorem isEmpty_of_isReachable (distinct : func.args.Nodup) (dims : region.dims = func.dims)
    (reachable : (Scope.ofDefinition func d region : Scope (Exact K)).isReachable = true) : region.isEmpty = false := by
  by_contra empty
  obtain ⟨i, mem, less⟩ := Domain.isEmpty_iff.mp (Bool.not_eq_false _ ▸ empty)
  obtain ⟨k, at', rfl⟩ := List.mem_iff_getElem.mp mem
  have named : k < func.args.length := lt_of_lt_of_eq at' dims
  have zipped : (func.args[k], region.intervals[k]) ∈ func.args.zip region.intervals :=
    List.mem_iff_getElem.mpr ⟨k, by rw [List.length_zip]; exact lt_min named at', List.getElem_zip⟩
  have found := get?_ofDefinition (d := d) distinct zipped
  have none := Span.isEmpty_ofInterval (K := K) (Interval.isEmpty_iff.mpr less)
  unfold Scope.isReachable at reachable
  rw [Bool.not_eq_true', List.any_append, Bool.or_eq_false_iff] at reachable
  have some := List.any_eq_true.mpr ⟨_, Table.mem_values.mpr ⟨_, Table.mem_entries found⟩, none⟩
  rw [reachable.1] at some
  cases some

end Scope

/-! ### Expressions -/

/-- A range inside of another one, recognized as empty if it is. -/
structure Span.Narrower (s t : Span (Exact K)) : Prop where
  proper : s.Proper
  inside : s.Inside t

/-- The same read, with arguments in narrower ranges. -/
structure Access.Inside (x y : Access (Exact K)) : Prop where
  read : x.read = y.read
  spans : List.Forall₂ Span.Narrower x.spans y.spans

namespace Expr

variable {s s' : Scope (Exact K)} {e : Expr (Exact K)}

/-- Constants are numbers, and there are no logarithms and powers. -/
def TameNode : Expr (Exact K) → Prop
  | const c => c.isNumber = true
  | unary op _ => op ≠ .log
  | binary op _ _ => op ≠ .pow
  | _ => True

abbrev Tame (e : Expr (Exact K)) : Prop := e.Everywhere TameNode

instance : DecidablePred (TameNode (K := K))
  | const c => inferInstanceAs (Decidable (c.isNumber = true))
  | unary op _ => inferInstanceAs (Decidable (op ≠ .log))
  | binary op _ _ => inferInstanceAs (Decidable (op ≠ .pow))
  | var _ | rvar _ | param _ | call _ _ | load _ _ | compare _ _ _ | and _ _ | or _ _ | not _ | select _ _ _ =>
    .isTrue trivial

instance (e : Expr (Exact K)) : Decidable e.Tame := inferInstanceAs (Decidable (∀ a ∈ e.nodes, TameNode a))

section

variable [IsStrictOrderedRing K]

theorem span_proper (limited : s.Limited) (tame : e.Tame) : (e.span s).Proper := by
  have bound (r : Option (Span (Exact K))) (limited : ∀ r', r = some r' → r'.Limited) :
      (r.getD .unbounded).Proper := by
    cases r with
    | none => exact (Span.holds_unbounded 0).proper
    | some r => exact (limited r rfl).proper
  have branch {c t : Expr (Exact K)} (holds : Bool) (ih : ∀ {s : Scope (Exact K)}, s.Limited → (t.span s).Proper)
      {s : Scope (Exact K)} (limited : s.Limited) :
      (if (s.narrow c holds).isReachable then t.span (s.narrow c holds) else .empty).Proper := by
    split
    · exact ih (limited.narrow c holds)
    · exact Span.proper_empty
  induction e generalizing s with
  | const c =>
    have number : c.isNumber = true := (everywhere_iff.mp tame).1
    cases c with
    | number x => exact (Span.holds_point x).proper
    | _ => cases number
  | var x => exact bound _ fun _ found => limited.vars.limited found
  | rvar x => exact bound _ fun _ found => limited.rvars.limited found
  | param _ | call _ _ _ | load _ _ _ => exact (Span.holds_unbounded 0).proper
  | unary op a ih =>
    obtain ⟨other, inner⟩ := (everywhere_one rfl).mp tame
    unfold span
    dsimp only
    split
    · exact .inl ‹_›
    · rename_i nonempty
      obtain ⟨x, held⟩ := (ih limited inner).resolve_left nonempty
      exact held.proper_unary op other
  | binary op a b iha ihb =>
    obtain ⟨-, innerA, innerB⟩ := (everywhere_two rfl).mp tame
    unfold span
    dsimp only
    split
    · exact Span.proper_empty
    · rename_i nonempty
      rw [Bool.or_eq_true, not_or] at nonempty
      obtain ⟨x, heldA⟩ := (iha limited innerA).resolve_left nonempty.1
      obtain ⟨y, heldB⟩ := (ihb limited innerB).resolve_left nonempty.2
      exact (heldA.binary op heldB).proper
  | compare _ _ _ | and _ _ | or _ _ | not _ =>
    refine Span.Holds.proper (x := 0) ?_
    unfold span
    rw [Span.zero_eq, Span.one_eq]
    exact ⟨le_refl (0 : K), zero_le_one' K⟩
  | select c t f _ iht ihf =>
    obtain ⟨-, -, innerT, innerF⟩ := (everywhere_three rfl).mp tame
    exact (branch true (fun l => iht l innerT) limited).union (branch false (fun l => ihf l innerF) limited)

/-- Narrower ranges of the variables give a narrower range of the expression. -/
theorem span_inside (under : s.Under s') (tame : e.Tame) : (e.span s).Inside (e.span s') := by
  have bound {r r' : Option (Span (Exact K))} (inside : Option.Rel Span.Inside r r') :
      (r.getD .unbounded).Inside (r'.getD .unbounded) := by
    cases inside with
    | none => exact Span.Inside.refl _
    | some inside => exact inside
  have branch {c t : Expr (Exact K)} (holds : Bool) (inner : t.Tame)
      (ih : ∀ {s s' : Scope (Exact K)}, s.Under s' → (t.span s).Inside (t.span s')) {s s' : Scope (Exact K)}
      (under : s.Under s') :
      (if (s.narrow c holds).isReachable then t.span (s.narrow c holds) else .empty).Inside
        (if (s'.narrow c holds).isReachable then t.span (s'.narrow c holds) else .empty) ∧
      (if (s.narrow c holds).isReachable then t.span (s.narrow c holds) else .empty).Proper := by
    have narrowed := under.narrow c holds
    split
    · rename_i reachable
      rw [if_pos (narrowed.isReachable reachable)]
      exact ⟨ih narrowed, span_proper narrowed.limited inner⟩
    · exact ⟨Span.inside_of_isEmpty rfl _, Span.proper_empty⟩
  induction e generalizing s s' with
  | const _ | param _ | call _ _ _ | load _ _ _ | compare _ _ _ | and _ _ | or _ _ | not _ => exact Span.Inside.refl _
  | var x => exact bound (under.inside.vars x)
  | rvar x => exact bound (under.inside.rvars x)
  | unary op a ih =>
    obtain ⟨other, inner⟩ := (everywhere_one rfl).mp tame
    have inside := ih under inner
    have proper := span_proper under.limited inner
    unfold span
    dsimp only
    by_cases empty : (a.span s).isEmpty = true
    · rw [if_pos empty]
      exact Span.inside_of_isEmpty empty _
    obtain ⟨x, held⟩ := proper.resolve_left empty
    rw [if_neg empty, if_neg (by simp [(inside x held).not_isEmpty])]
    exact inside.unary held op other
  | binary op a b iha ihb =>
    obtain ⟨other, innerA, innerB⟩ := (everywhere_two rfl).mp tame
    have insideA := iha under innerA
    have insideB := ihb under innerB
    unfold span
    dsimp only
    by_cases empty : ((a.span s).isEmpty || (b.span s).isEmpty) = true
    · rw [if_pos empty]
      exact Span.inside_of_isEmpty rfl _
    rw [if_neg empty]
    rw [Bool.or_eq_true, not_or] at empty
    obtain ⟨x, heldA⟩ := (span_proper under.limited innerA).resolve_left empty.1
    obtain ⟨y, heldB⟩ := (span_proper under.limited innerB).resolve_left empty.2
    rw [if_neg (by simp [(insideA x heldA).not_isEmpty, (insideB y heldB).not_isEmpty])]
    exact insideA.binary insideB heldA heldB op other
  | select c t f _ iht ihf =>
    obtain ⟨-, -, innerT, innerF⟩ := (everywhere_three rfl).mp tame
    obtain ⟨insideT, properT⟩ := branch (c := c) true innerT (fun u => iht u innerT) under
    obtain ⟨insideF, properF⟩ := branch (c := c) false innerF (fun u => ihf u innerF) under
    exact insideT.union insideF properT properF

theorem spans_narrower (under : s.Under s') {args : List (Expr (Exact K))} (tame : ∀ a ∈ args, a.Tame) :
    List.Forall₂ Span.Narrower (args.map (·.span s)) (args.map (·.span s')) := by
  rw [List.forall₂_map_left_iff, List.forall₂_map_right_iff]
  exact List.forall₂_same.mpr fun a mem => ⟨span_proper under.limited (tame a mem), span_inside under (tame a mem)⟩

theorem accesses_inside (under : s.Under s') (tame : ∀ r ∈ e.reads, ∀ a ∈ r.args, a.Tame) {x : Access (Exact K)}
    (mem : x ∈ e.accesses s) : ∃ y ∈ e.accesses s', x.Inside y := by
  have child {a e : Expr (Exact K)} (tame : ∀ r ∈ e.reads, ∀ a ∈ r.args, a.Tame)
      (sub : ∀ x ∈ a.nodes, x ∈ e.nodes) : ∀ r ∈ a.reads, ∀ b ∈ r.args, b.Tame :=
    fun r mem => tame r (mem_reads_of_subset sub mem)
  have inner {a : Expr (Exact K)} {s' : Scope (Exact K)} {more : List (Access (Exact K))}
      (sub : ∀ y ∈ a.accesses s', y ∈ more) (h : ∃ y ∈ a.accesses s', x.Inside y) : ∃ y ∈ more, x.Inside y := by
    obtain ⟨y, listed, narrowed⟩ := h
    exact ⟨y, sub y listed, narrowed⟩
  have self {e : Expr (Exact K)} {r : Read (Exact K)} (read : e.read? = some r) : r ∈ e.reads :=
    List.mem_filterMap.mpr ⟨e, mem_nodes_self e, read⟩
  induction e generalizing s s' with
  | const _ | var _ | rvar _ => cases mem
  | param p =>
    obtain rfl := List.mem_singleton.mp mem
    exact ⟨_, List.mem_singleton_self _, rfl, .nil⟩
  | call f args ih | load b args ih =>
    rcases List.mem_cons.mp mem with rfl | mem
    · exact ⟨_, List.mem_cons_self, rfl, spans_narrower under (tame _ (self rfl))⟩
    · rw [accessesList_eq_flatMap] at mem
      obtain ⟨a, listed, mem⟩ := List.mem_flatMap.mp mem
      have sub : ∀ x ∈ a.nodes, x ∈ nodesList args := fun x node => mem_nodesList.mpr ⟨a, listed, node⟩
      refine inner (fun y own => List.mem_cons_of_mem _ ?_)
        (ih a listed under (child tame fun x node => List.mem_cons_of_mem _ (sub x node)) mem)
      rw [accessesList_eq_flatMap]
      exact List.mem_flatMap.mpr ⟨a, listed, own⟩
  | unary op a ih | not a ih => exact inner (fun _ => id) (ih under (child tame (by simp +contextual [nodes])) mem)
  | binary op a b iha ihb | compare op a b iha ihb | and a b iha ihb | or a b iha ihb =>
    rcases List.mem_append.mp mem with mem | mem
    · exact inner (fun _ => List.mem_append_left _) (iha under (child tame (by simp +contextual [nodes])) mem)
    · exact inner (fun _ => List.mem_append_right _) (ihb under (child tame (by simp +contextual [nodes])) mem)
  | select c t f ihc iht ihf =>
    unfold accesses at mem
    simp only at mem
    rcases List.mem_append.mp mem with mem | mem
    · exact inner (fun _ => List.mem_append_left _) (ihc under (child tame (by simp +contextual [nodes])) mem)
    rcases List.mem_append.mp mem with mem | mem
    · split at mem
      · rename_i reachable
        have narrowed := under.narrow c true
        refine inner (fun y own => List.mem_append_right _ (List.mem_append_left _ ?_))
          (iht narrowed (child tame (by simp +contextual [nodes])) mem)
        rwa [if_pos (narrowed.isReachable reachable)]
      · cases mem
    · split at mem
      · rename_i reachable
        have narrowed := under.narrow c false
        refine inner (fun y own => List.mem_append_right _ (List.mem_append_right _ ?_))
          (ihf narrowed (child tame (by simp +contextual [nodes])) mem)
        rwa [if_pos (narrowed.isReachable reachable)]
      · cases mem

end

end Expr

end ArrayDiff
