import Mathlib.Data.List.Induction
import ArrayDiff.Proofs.Coverage
import ArrayDiff.Proofs.Demand
import ArrayDiff.Proofs.Reachability

/-!
# Results do not depend on the requested domain

Two realizations of a func over different domains compute the funcs below it over different regions. There are answers
for both (`exists_given`), chosen along the schedule from what the funcs hold over either region. So both give the same
values where the domains overlap (`Graph.realize_overlap`), as long as updates run through coordinates that are numbers of
their own.
-/

namespace ArrayDiff

variable {κ α : Type}

section Serving

variable [Scalar κ] [Scalar α] [Embed κ α] {g : Graph κ} {b : Bindings α} {s : Schedule} {T : Regions → Prop}
  {P P' : Answers α} {f h : FuncId} {p : List Int} {v w : α}

/-- What a job over one of the regions of `T` can find at a point of `f`. -/
def Graph.Offers (g : Graph κ) (T : Regions → Prop) (P : Answers α) (f : FuncId) (p : List Int) (v : α) : Prop :=
  (∃ regions, T regions ∧ ∃ C, (g.func f).contents? P f (regions.of g f) = some C ∧ C p = some v) ∨
  (g.func f).updates = [] ∧ ∃ d, (g.func f).init = some d ∧ d.value.value? P ⟨coordinates κ (g.func f).args p, []⟩ = some v

/-- The regions of `T` are addressed wherever an update runs over them. -/
def Graph.AddressedUpdates (g : Graph κ) (α : Type) [Scalar α] [Embed κ α] (T : Regions → Prop) (S : FuncId → Prop) :
    Prop := ∀ regions, T regions → ∀ f, S f → (g.func f).updates ≠ [] → (regions.of g f).Addressed κ α

theorem Graph.Offers.holds (offer : g.Offers T P f p v) : (g.func f).Holds P f p v := by
  rcases offer with ⟨regions, -, C, run, held⟩ | ⟨pointwise, d, init, value⟩
  · exact ⟨_, C, run, held⟩
  · exact Func.holds_of_value? pointwise init value

theorem Graph.Offers.unique (addressed : (g.func f).updates ≠ [] → ∀ regions, T regions → (regions.of g f).Addressed κ α)
    (distinct : ∀ d ∈ (g.func f).updates, d.DistinctFree) (first : g.Offers T P f p v) (second : g.Offers T P f p w) :
    v = w := by
  by_cases pointwise : (g.func f).updates = []
  · obtain ⟨R, A, run, held⟩ := first.holds
    obtain ⟨R', A', run', held'⟩ := second.holds
    exact Func.contents?_agree distinct (absurd pointwise) run run' p v w held held'
  · obtain ⟨regions, mem, C, run, held⟩ := first.resolve_right fun none => pointwise none.1
    obtain ⟨regions', mem', C', run', held'⟩ := second.resolve_right fun none => pointwise none.1
    exact Func.contents?_agree distinct (fun updates => ⟨addressed updates _ mem, addressed updates _ mem'⟩) run run' p v w
      held held'

theorem Graph.Offers.follow {S : FuncId → Prop} (follows : P.Follows P' S)
    (within : ∀ stage k, (g.func f).Reads stage (.func k) → k ≠ f ∨ stage = .initial → S k)
    (offer : g.Offers T P f p v) : g.Offers T P' f p v := by
  refine offer.imp ?_ ?_
  · rintro ⟨regions, mem, C, run, held⟩
    exact ⟨regions, mem, C, Func.contents?_follow follows within run, held⟩
  · rintro ⟨pointwise, d, init, value⟩
    refine ⟨pointwise, d, init, Expr.value?_follow follows (fun r read k target => ?_) value⟩
    exact within .initial k (target ▸ Func.reads_initial init read) (Or.inr rfl)

/-- `P` knows the data, and answers for the funcs of `done` with whatever is offered at their points. -/
structure Answers.Given (P : Answers α) (g : Graph κ) (b : Bindings α) (T : Regions → Prop) (done : List FuncId) :
    Prop where
  load : P.load = b.load? g
  param : P.param = fun i => (b.param g i).toOption
  call {f : FuncId} {p : List Int} {v : α} : f ∈ done → g.Offers T P f p v → P.call f p = some v

theorem Answers.Given.mono {done done' : List FuncId} (given : P.Given g b T done') (sub : done ⊆ done') :
    P.Given g b T done := ⟨given.load, given.param, fun mem offer => given.call (sub mem) offer⟩

theorem Answers.Given.serves (given : P.Given g b T s.funcs) {regions : Regions} (mem : T regions) :
    P.Serves ⟨g, b, regions⟩ (· ∈ s.funcs) := by
  refine ⟨fun found => ?_, fun found => ?_, fun listed run held => ?_, fun listed pointwise init value => ?_⟩
  · rw [given.load]
    exact found
  · rw [given.param]
    exact toOption_eq_some.mpr found
  · exact given.call listed (Or.inl ⟨regions, mem, _, run, held⟩)
  · exact given.call listed (Or.inr ⟨pointwise, _, init, value⟩)

/-- The next func gets what it is offered by the answers so far; older funcs do not read it. -/
theorem Answers.Given.next {done rest : List FuncId} (given : P.Given g b T done) (ordered : s.Ordered g)
    (split : s.funcs = done ++ f :: rest) (distinct : ∀ d ∈ (g.func f).updates, d.DistinctFree)
    (addressed : (g.func f).updates ≠ [] → ∀ regions, T regions → (regions.of g f).Addressed κ α) :
    ∃ P' : Answers α, P'.Given g b T (done ++ [f]) := by
  let values (p : List Int) : Option α := chosen (fun o => ∃ v, o = some v ∧ g.Offers T P f p v) none
  have fresh : f ∉ done := by
    intro mem
    have nodup := ordered.nodup
    rw [split] at nodup
    exact (List.nodup_append.mp nodup).2.2 f mem f List.mem_cons_self rfl
  have follows : (P.set f values).Follows P (· ≠ f) := P.set_follows f values
  -- every func reads earlier ones, and itself in updates only
  have older {h : FuncId} (known : h ∈ done ∨ h = f) {p : List Int} {v : α} (offer : g.Offers T (P.set f values) h p v) :
      g.Offers T P h p v := by
    refine offer.follow follows ?_
    rintro stage k reads other rfl
    rcases known with known | rfl
    · obtain ⟨before, after, rfl⟩ := List.append_of_mem known
      rw [List.append_assoc, List.cons_append] at split
      rcases ordered.before before h _ split stage _ reads with earlier | ⟨self, later⟩
      · exact fresh (List.mem_append_left _ earlier)
      · exact other.elim (· self) later
    · rcases ordered.before done h rest split stage _ reads with earlier | ⟨self, later⟩
      · exact fresh earlier
      · exact other.elim (· self) later
  refine ⟨P.set f values, given.load, given.param, fun {h p v} known offer => ?_⟩
  rcases List.mem_append.mp known with known | known
  · rw [Answers.set_of_ne _ _ fun same : h = f => fresh (same ▸ known)]
    exact given.call known (older (Or.inl known) offer)
  · obtain rfl := List.mem_singleton.mp known
    have offer := older (Or.inr rfl) offer
    rw [Answers.set_self]
    refine chosen_eq ⟨v, rfl, offer⟩ ?_
    rintro o ⟨w, rfl, other⟩
    exact congrArg some (other.unique addressed distinct offer)

theorem exists_given (ordered : s.Ordered g) (distinct : g.DistinctUpdates (· ∈ s.funcs))
    (addressed : g.AddressedUpdates α T (· ∈ s.funcs)) : ∃ P : Answers α, P.Given g b T s.funcs := by
  suffices every : ∀ done rest, s.funcs = done ++ rest → ∃ P : Answers α, P.Given g b T done from
    every s.funcs [] (List.append_nil _).symm
  intro done
  induction done using List.reverseRecOn with
  | nil => exact fun rest split => ⟨⟨fun _ _ => none, _, _⟩, rfl, rfl, fun mem => absurd mem List.not_mem_nil⟩
  | append_singleton done f ih =>
    intro rest split
    rw [List.append_assoc] at split
    obtain ⟨P, given⟩ := ih _ split
    have mem : f ∈ s.funcs := split ▸ List.mem_append_right _ List.mem_cons_self
    exact given.next ordered split (distinct f mem) fun updates regions listed => addressed regions listed f mem updates

end Serving

namespace Graph

variable [Extended κ] [Scalar α] [Embed κ α] {g : Graph κ} {b : Bindings α} {f : FuncId} {D D' : Domain} {t t' : Tensor α}

/-- When `f` is realized over the domain, updates run through coordinates that are addressed by themselves. -/
def AddressedOver (g : Graph κ) (α : Type) [Scalar α] [Embed κ α] (f : FuncId) (D : Domain) : Prop :=
  ∀ s, g.schedule f = .ok s → g.AddressedUpdates α (fun regions => g.inferRegions s f D = .ok regions) (· ∈ s.funcs)

theorem addressedOver [ExactIndex κ α] (f : FuncId) (D : Domain) : g.AddressedOver α f D :=
  fun _ _ _ _ _ _ _ => Domain.addressed _

/-- Realizations of a func over two domains give the same value at every point that both domains have, when updates name
each pure variable once and run through coordinates that are addressed by themselves. -/
theorem realize_overlap (distinct : g.DistinctUpdates fun h => g.Reaches f (.func h))
    (addressed : g.AddressedOver α f D) (addressed' : g.AddressedOver α f D') (run : g.realize f D b = .ok t)
    (run' : g.realize f D' b = .ok t') {p : List Int} (mem : p ∈ D.points) (mem' : p ∈ D'.points) :
    ∃ v, (⟨D, t.values⟩ : Storage α).get? p = some v ∧ (⟨D', t'.values⟩ : Storage α).get? p = some v := by
  obtain ⟨s, order, -⟩ := bind_eq_ok.mp run
  have order := mapError_eq_ok.mp order
  obtain ⟨P, given⟩ : ∃ P : Answers α,
      P.Given g b (fun r => g.inferRegions s f D = .ok r ∨ g.inferRegions s f D' = .ok r) s.funcs := by
    apply exists_given (ordered_schedule order).1
    · exact fun h listed => distinct h ((lists_iff_reaches order).mp listed)
    · exact fun r either => either.elim (addressed s order r) (addressed' s order r)
  obtain ⟨-, values⟩ := realize_serves order (fun r found => given.serves (Or.inl found)) run
  obtain ⟨-, values'⟩ := realize_serves order (fun r found => given.serves (Or.inr found)) run'
  have first := Storage.get?_ofList values p
  have second := Storage.get?_ofList values' p
  have filled := Storage.filled_ofList values.length_eq.symm
  rw [Array.toArray_toList, if_pos mem] at first
  rw [Array.toArray_toList, if_pos mem'] at second
  rw [Array.toArray_toList] at filled
  obtain ⟨v, held⟩ := Option.isSome_iff_exists.mp ((Storage.isSome_get? filled p).mpr mem)
  exact ⟨v, held, second.trans (first.symm.trans held)⟩

end Graph

/-! ### An example -/

/-- `count(x) = 0`, to which 1 is added in a loop with a single step. -/
def counting : Graph (Exact ℚ) where
  funcs := #[
    { name := "count", args := ["x"],
      init := some ⟨[.var "x"], .zero, none⟩,
      updates := [⟨[.var "x"], .binary .add (.call ⟨0⟩ [.var "x"]) .one, some ⟨[("r", ⟨0, 0⟩)]⟩⟩] }]

namespace counting

theorem distinct (S : FuncId → Prop) : counting.DistinctUpdates S := by
  rintro ⟨_ | n⟩ - d update
  · obtain rfl := List.mem_singleton.mp update
    exact List.nodup_singleton _
  · cases update

theorem overlap_agrees : ∃ v : ℚ, (⟨⟨[⟨0, 2⟩]⟩, #[1, 1, 1]⟩ : Storage ℚ).get? [2] = some v ∧
    (⟨⟨[⟨2, 3⟩]⟩, #[1, 1]⟩ : Storage ℚ).get? [2] = some v := by
  have first : counting.realize ⟨0⟩ ⟨[⟨0, 2⟩]⟩ ({} : Bindings ℚ) = .ok ⟨[3], #[1, 1, 1]⟩ := by decide +kernel
  have second : counting.realize ⟨0⟩ ⟨[⟨2, 3⟩]⟩ ({} : Bindings ℚ) = .ok ⟨[2], #[1, 1]⟩ := by decide +kernel
  apply Graph.realize_overlap (distinct _) (Graph.addressedOver _ _) (Graph.addressedOver _ _) first second
  · exact Domain.contains_eq_true.mp (by decide)
  · exact Domain.contains_eq_true.mp (by decide)

end counting

/-- An integer of 24 significant bits. Single precision keeps these of an integer; what leaves the integers is rounded
down here. -/
structure Short where
  value : Int
  deriving DecidableEq

namespace Short

/-- The nearest integer of 24 significant bits; the even one, if two are as near. -/
def round (n : Int) : Short :=
  let unit : Int := 2 ^ (n.natAbs.log2 - 23)
  let below := n / unit
  let rest := n % unit
  if 2 * rest < unit ∨ 2 * rest = unit ∧ below % 2 = 0 then ⟨below * unit⟩ else ⟨(below + 1) * unit⟩

instance : Scalar Short where
  ofInt := round
  neg x := ⟨-x.value⟩
  abs x := ⟨x.value.natAbs⟩
  floor x := x
  sqrt x := round x.value.toNat.sqrt
  exp _ := ⟨1⟩
  log _ := ⟨0⟩
  sin _ := ⟨0⟩
  cos _ := ⟨1⟩
  tanh _ := ⟨0⟩
  add x y := round (x.value + y.value)
  sub x y := round (x.value - y.value)
  mul x y := round (x.value * y.value)
  div x y := round (x.value / y.value)
  min x y := if x.value ≤ y.value then x else y
  max x y := if y.value ≤ x.value then x else y
  pow x y := round (x.value ^ y.value.toNat)
  equal x y := x.value = y.value
  less x y := x.value < y.value
  lessEq x y := x.value ≤ y.value
  index x := x.value

instance : Embed (Exact ℚ) Short := ⟨fun x => round x.floorInt⟩

end Short

/-- In single precision 16777217 is rounded to 16777216, so that a domain with both counts twice at one position. -/
theorem counting.overlap_differs :
    (∀ f, counting.ReadsFit f ∧ counting.WritesFit f ∧ (counting.func f).args.Nodup) ∧
    ¬∀ (D D' : Domain) (t t' : Tensor Short), counting.realize ⟨0⟩ D {} = .ok t → counting.realize ⟨0⟩ D' {} = .ok t' →
      ∀ p ∈ D.points, p ∈ D'.points →
        ∃ v, (⟨D, t.values⟩ : Storage Short).get? p = some v ∧ (⟨D', t'.values⟩ : Storage Short).get? p = some v := by
  refine ⟨?_, fun independent => ?_⟩
  · rintro ⟨_ | n⟩
    · refine ⟨?_, fun d update => by rw [List.mem_singleton.mp update]; rfl, List.nodup_singleton _⟩
      rintro stage d listed r read
      obtain ⟨-, rfl⟩ | ⟨-, rfl⟩ : stage = .initial ∧ d = _ ∨ stage = .update 0 ∧ d = _ := by
        simpa [counting, Graph.func, Func.definitions] using listed
      · cases read
      · obtain rfl := List.mem_singleton.mp read
        rfl
    · refine ⟨fun stage d listed => ?_, fun d update => ?_, List.nodup_nil⟩
      · cases listed
      · cases update
  have alone : counting.realize ⟨0⟩ ⟨[⟨16777216, 16777216⟩]⟩ ({} : Bindings Short) = .ok ⟨[1], #[⟨1⟩]⟩ := by
    decide +kernel
  have beside : counting.realize ⟨0⟩ ⟨[⟨16777216, 16777217⟩]⟩ ({} : Bindings Short) = .ok ⟨[2], #[⟨2⟩, ⟨0⟩]⟩ := by
    decide +kernel
  obtain ⟨v, once, twice⟩ := independent _ _ _ _ alone beside [16777216] (Domain.contains_eq_true.mp (by decide))
    (Domain.contains_eq_true.mp (by decide))
  have first : v = ⟨1⟩ := Option.some.inj (once.symm.trans (by decide))
  have second : v = ⟨2⟩ := Option.some.inj (twice.symm.trans (by decide))
  exact absurd (first.symm.trans second) (by decide)

end ArrayDiff
