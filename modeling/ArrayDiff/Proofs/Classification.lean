import ArrayDiff.Proofs.Outcome
import ArrayDiff.Proofs.Substitution
import ArrayDiff.Recurrence

/-!
# What the kind of an update says

An update is accepted in one of three ways, and each of them has checked how the positions at which the func reads
itself lie to the written one (`Classified`).
-/

namespace ArrayDiff

section Filters

variable {A ε : Type} {p : A → Except ε Bool} {l found kept : List A}

theorem filterAuxM_spec (run : l.filterAuxM p found = .ok kept) :
    (∀ a, a ∈ kept ↔ a ∈ found ∨ a ∈ l ∧ p a = .ok true) ∧ ∀ a ∈ l, ∃ keep, p a = .ok keep := by
  induction l generalizing found with
  | nil =>
    obtain rfl := pure_eq_ok.mp run
    simp
  | cons b l ih =>
    obtain ⟨keep, decided, run⟩ := bind_eq_ok.mp run
    cases keep with
    | false =>
      obtain ⟨mem, total⟩ := ih run
      constructor
      · intro a
        rw [mem, List.mem_cons]
        constructor
        · rintro (old | ⟨listed, own⟩)
          · exact Or.inl old
          · exact Or.inr ⟨Or.inr listed, own⟩
        · rintro (old | ⟨rfl | listed, own⟩)
          · exact Or.inl old
          · rw [decided] at own
            cases own
          · exact Or.inr ⟨listed, own⟩
      · exact List.forall_mem_cons.mpr ⟨⟨false, decided⟩, total⟩
    | true =>
      obtain ⟨mem, total⟩ := ih run
      constructor
      · intro a
        rw [mem, List.mem_cons, cond_true, List.mem_cons]
        constructor
        · rintro ((rfl | old) | ⟨listed, own⟩)
          · exact Or.inr ⟨Or.inl rfl, decided⟩
          · exact Or.inl old
          · exact Or.inr ⟨Or.inr listed, own⟩
        · rintro (old | ⟨rfl | listed, own⟩)
          · exact Or.inl (Or.inr old)
          · exact Or.inl (Or.inl rfl)
          · exact Or.inr ⟨listed, own⟩
      · exact List.forall_mem_cons.mpr ⟨⟨true, decided⟩, total⟩

theorem filterM_spec (run : l.filterM p = .ok kept) :
    (∀ a, a ∈ kept ↔ a ∈ l ∧ p a = .ok true) ∧ ∀ a ∈ l, ∃ keep, p a = .ok keep := by
  obtain ⟨found, filtered, made⟩ := bind_eq_ok.mp run
  obtain rfl := pure_eq_ok.mp made
  obtain ⟨mem, total⟩ := filterAuxM_spec filtered
  refine ⟨fun a => ?_, total⟩
  rw [List.mem_reverse, mem]
  simp

end Filters

section Kinds

variable {κ : Type} [Extended κ] {d : Definition κ} {f : FuncId} {rdom : ReductionDomain} {reads : List (List (Expr κ))}
  {kind : UpdateKind κ}

/-- What has been checked of an update over a reduction domain that reads its own func at `reads`. -/
inductive Classified (d : Definition κ) (rdom : ReductionDomain) (reads : List (List (Expr κ))) : UpdateKind κ → Prop
  | overwrite {written : List Coord} (once : d.distinctPositions? = some written)
    (old : ∀ args ∈ reads, seen? written rdom args = some .before) : Classified d rdom reads .overwrite
  | inPlace (own : ∀ args ∈ reads, Expr.sameList args d.lhs = true) : Classified d rdom reads .inPlace
  | scan {written : List Coord} {read : List (Expr κ)} (listed : read ∈ reads)
    (once : d.distinctPositions? = some written) (earlier : seen? written rdom read = some .earlier)
    (others : ∀ args ∈ reads, Expr.sameList args read = true ∨ Expr.sameList args d.lhs = true) :
    Classified d rdom reads (.scan read (reads.any (Expr.sameList · d.lhs)))

theorem classified_of_classifyReads (run : classifyReads d rdom reads = .ok kind) : Classified d rdom reads kind := by
  unfold classifyReads at run
  split at run
  · split at run
    · rename_i own
      obtain rfl := pure_eq_ok.mp run
      exact .inPlace (List.all_eq_true.mp own)
    · cases run
  rename_i written once
  obtain ⟨earlier, filtered, run⟩ := bind_eq_ok.mp run
  obtain ⟨mem, total⟩ := filterM_spec filtered
  have sight {args : List (Expr κ)} (listed : args ∈ reads) :
      seen? written rdom args = some .earlier ∧ args ∈ earlier ∨ seen? written rdom args = some .before := by
    obtain ⟨keep, decided⟩ := total args listed
    have kept := mem args
    rw [decided] at kept
    split at decided
    · rename_i seen found
      cases seen with
      | before => exact Or.inr found
      | earlier =>
        obtain rfl : true = keep := pure_eq_ok.mp decided
        exact Or.inl ⟨found, kept.mpr ⟨listed, rfl⟩⟩
    · cases decided
  split at run
  · obtain rfl := pure_eq_ok.mp run
    refine .overwrite once fun args listed => ?_
    rcases sight listed with ⟨-, none⟩ | before
    · cases none
    · exact before
  · rename_i read
    split at run
    · cases run
    rename_i others
    obtain rfl := pure_eq_ok.mp run
    obtain ⟨listed, own⟩ := (mem read).mp List.mem_cons_self
    refine .scan listed once ?_ fun args listed => ?_
    · rcases sight listed with ⟨found, -⟩ | before
      · exact found
      · rw [before] at own
        cases own
    · rw [List.any_eq_true, not_exists] at others
      have either := not_and.mp (others args) listed
      simpa [or_iff_not_imp_left] using either
  · cases run

/-- Positions are never looked up in the func that is updated, and an update that is not classified by its reads takes
all its values from before it. -/
theorem kindFor_cases (run : d.kindFor f = .ok kind) :
    (∀ e ∈ d.lhs, e.readsTarget (.func f) = false) ∧
      (∀ r ∈ d.value.reads, r.target = .func f → ∀ a ∈ r.args, a.readsTarget (.func f) = false) ∧
      ((d.rdom = none ∨ selfReads f d.value = []) ∧ kind = .overwrite ∨
        ∃ rdom, d.rdom = some rdom ∧ Classified d rdom (selfReads f d.value) kind) := by
  unfold Definition.kindFor at run
  simp only at run
  split at run
  · cases run
  rename_i positions
  split at run
  · cases run
  rename_i indices
  refine ⟨by simpa using positions, ?_, ?_⟩
  · intro r mem self a arg
    by_contra reads
    refine indices (List.any_eq_true.mpr ⟨r, mem, ?_⟩)
    rw [Bool.and_eq_true, decide_eq_true_eq, List.any_eq_true]
    exact ⟨self, a, arg, by simpa using reads⟩
  · cases reduced : d.rdom with
    | none =>
      rw [reduced] at run
      exact Or.inl ⟨Or.inl rfl, (pure_eq_ok.mp run).symm⟩
    | some rdom =>
      rw [reduced] at run
      cases found : selfReads f d.value with
      | nil =>
        rw [found] at run
        exact Or.inl ⟨Or.inr rfl, (pure_eq_ok.mp run).symm⟩
      | cons first rest =>
        rw [found] at run
        exact Or.inr ⟨rdom, rfl, classified_of_classifyReads run⟩

theorem read_of_mem_selfReads {value : Expr κ} {args : List (Expr κ)} (mem : args ∈ selfReads f value) :
    ∃ r ∈ value.reads, r.target = .func f ∧ r.args = args := by
  unfold selfReads at mem
  have step (found : List (List (Expr κ))) (r : Read κ) (self : r ∈ value.reads.filter (·.target = .func f))
      (old : ∀ args ∈ found, ∃ r ∈ value.reads, r.target = .func f ∧ r.args = args) :
      ∀ args ∈ if found.any (Expr.sameList · r.args) then found else found ++ [r.args],
        ∃ r ∈ value.reads, r.target = .func f ∧ r.args = args := by
    obtain ⟨read, target⟩ := List.mem_filter.mp self
    split
    · exact old
    · exact List.forall_mem_append.mpr
        ⟨old, List.forall_mem_singleton.mpr ⟨r, read, of_decide_eq_true target, rfl⟩⟩
  exact List.foldlRecOn (motive := fun found => ∀ args ∈ found, _) _ _ (fun _ none => absurd none List.not_mem_nil)
    (fun found old r self => step found r self old) args mem

/-- A scan writes every position once, and its read, one of those in the value, sees what an earlier iteration wrote. -/
theorem scan_of_kindFor {read : List (Expr κ)} {accumulates : Bool}
    (run : d.kindFor f = .ok (.scan read accumulates)) (reduced : d.rdom = some rdom) :
    ∃ written, d.distinctPositions? = some written ∧ seen? written rdom read = some .earlier ∧
      ∃ r ∈ d.value.reads, r.target = .func f ∧ r.args = read := by
  obtain ⟨-, -, ⟨-, kind⟩ | ⟨rdom', same, classified⟩⟩ := kindFor_cases run
  · cases kind
  obtain rfl := Option.some.inj (reduced.symm.trans same)
  cases classified with
  | scan listed once earlier _ => exact ⟨_, once, earlier, read_of_mem_selfReads listed⟩

end Kinds

section SelfReads

variable {K : Type} [Field K] [LinearOrder K] [FloorRing K] [Transcendental K]

theorem mem_selfReads {f : FuncId} {value : Expr (Exact K)} {r : Read (Exact K)} (mem : r ∈ value.reads)
    (self : r.target = .func f) : r.args ∈ selfReads f value := by
  have folded (l : List (Read (Exact K))) (found : List (List (Expr (Exact K)))) {args : List (Expr (Exact K))}
      (known : args ∈ found ∨ ∃ r ∈ l, r.args = args) :
      args ∈ l.foldl (fun found r => if found.any (Expr.sameList · r.args) then found else found ++ [r.args]) found := by
    induction l generalizing found with
    | nil => simpa using known
    | cons r l ih =>
      rw [List.foldl_cons]
      refine ih _ ?_
      rcases known with old | ⟨r', listed, rfl⟩
      · left
        split
        · exact old
        · exact List.mem_append_left _ old
      rcases List.mem_cons.mp listed with rfl | later
      · left
        split
        · rename_i again
          obtain ⟨args, old, same⟩ := List.any_eq_true.mp again
          rwa [← Expr.eq_args_of_sameList same]
        · exact List.mem_append_right _ (List.mem_singleton.mpr rfl)
      · exact Or.inr ⟨r', later, rfl⟩
  refine folded _ [] (Or.inr ⟨r, ?_, rfl⟩)
  exact List.mem_filter.mpr ⟨mem, decide_eq_true self⟩

end SelfReads

end ArrayDiff
