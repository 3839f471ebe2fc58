import Mathlib.Logic.Function.Basic
import ArrayDiff.Proofs.Evaluation
import ArrayDiff.Proofs.Points
import ArrayDiff.Proofs.Schedule
import ArrayDiff.Realization

/-!
# What a func holds over a region

`Func.contents?` computes a func over a region without a memory: answers to the reads of other funcs are given. It is
monotone in the answers, and where two regions overlap it gives the same values (`contents?_agree`), since the
iterations that they share run in the same order and the others write elsewhere.
-/

namespace ArrayDiff

variable {κ α : Type}

/-- Values at the positions that have one. -/
abbrev Contents (α : Type) := List Int → Option α

namespace Contents

/-- Replaces the value at a position that has one. -/
def store? (A : Contents α) (p : List Int) (v : α) : Option (Contents α) :=
  if (A p).isSome then some (Function.update A p (some v)) else none

theorem store?_eq_some {A B : Contents α} {p : List Int} {v : α} :
    A.store? p v = some B ↔ (A p).isSome = true ∧ Function.update A p (some v) = B := by
  unfold store?
  split <;> simp_all

theorem isSome_of_store? {A B : Contents α} {p : List Int} {v : α} (h : A.store? p v = some B) (q : List Int) :
    (B q).isSome = (A q).isSome := by
  obtain ⟨held, rfl⟩ := store?_eq_some.mp h
  by_cases same : q = p
  · rw [same, Function.update_self, held]
    rfl
  · rw [Function.update_of_ne same]

/-- Wherever both have a value it is the same. -/
def Agree (A B : Contents α) : Prop := ∀ p v w, A p = some v → B p = some w → v = w

theorem Agree.store {A B A' B' : Contents α} {p : List Int} {v : α} (h : A.Agree B)
    (hA : A.store? p v = some A') (hB : B.store? p v = some B') : A'.Agree B' := by
  obtain ⟨-, rfl⟩ := store?_eq_some.mp hA
  obtain ⟨-, rfl⟩ := store?_eq_some.mp hB
  intro q x y hx hy
  by_cases same : q = p
  · rw [same, Function.update_self] at hx hy
    exact (Option.some.inj hx).symm.trans (Option.some.inj hy)
  · rw [Function.update_of_ne same] at hx hy
    exact h q x y hx hy

theorem Agree.store_left {A B A' : Contents α} {p : List Int} {v : α} (h : A.Agree B)
    (hA : A.store? p v = some A') (off : B p = none) : A'.Agree B := by
  obtain ⟨-, rfl⟩ := store?_eq_some.mp hA
  intro q x y hx hy
  by_cases same : q = p
  · rw [same, off] at hy
    cases hy
  · rw [Function.update_of_ne same] at hx
    exact h q x y hx hy

theorem Agree.symm {A B : Contents α} (h : A.Agree B) : B.Agree A := fun p v w hv hw => (h p w v hw hv).symm

end Contents

namespace Answers

/-- Whatever `P` answers, `P'` answers the same, as far as the funcs of `T` are concerned. -/
structure Follows (P P' : Answers α) (T : FuncId → Prop) : Prop where
  call {f : FuncId} {p : List Int} {v : α} : T f → P.call f p = some v → P'.call f p = some v
  load {b : BufferId} {p : List Int} {v : α} : P.load b p = some v → P'.load b p = some v
  param {i : ParamId} {v : α} : P.param i = some v → P'.param i = some v

variable {P P' : Answers α} {T : FuncId → Prop}

theorem ExtendedBy.follows {ρ : Valuation α} (ext : P.ExtendedBy ρ) : P.Follows ρ.answers T :=
  ⟨fun _ answer => congrArg some (ext.call answer), fun answer => congrArg some (ext.load answer),
    fun answer => congrArg some (ext.param answer)⟩

theorem ExtendedBy.set {ρ : Valuation α} (ext : P.ExtendedBy ρ) {f : FuncId} {A : Contents α} {B : List Int → α}
    (held : ∀ p v, A p = some v → B p = v) : (P.set f A).ExtendedBy (ρ.set f B) := by
  refine ⟨fun {g p v} answer => ?_, ext.load, ext.param⟩
  by_cases same : g = f
  · rw [same, set_self] at answer
    rw [same, Valuation.set_self]
    exact held p v answer
  · rw [set_of_ne _ _ same] at answer
    rw [Valuation.set_of_ne _ _ same]
    exact ext.call answer

theorem follows_set (P : Answers α) (f : FuncId) (A : Contents α) : P.Follows (P.set f A) (· ≠ f) :=
  ⟨fun {g p v} other answer => by rwa [set_of_ne _ _ other], id, id⟩

theorem set_follows (P : Answers α) (f : FuncId) (A : Contents α) : (P.set f A).Follows P (· ≠ f) :=
  ⟨fun {g p v} other answer => by rwa [set_of_ne _ _ other] at answer, id, id⟩

theorem Follows.set (h : P.Follows P' T) (f : FuncId) (A : Contents α) :
    (P.set f A).Follows (P'.set f A) fun g => g ≠ f → T g := by
  refine ⟨?_, h.load, h.param⟩
  intro g p v allowed answer
  by_cases same : g = f
  · rwa [same, set_self] at answer ⊢
  · rw [set_of_ne _ _ same] at answer ⊢
    exact h.call (allowed same) answer

end Answers

section Definitions

variable [Scalar α] [Embed κ α]

namespace Expr

variable {P P' : Answers α} {T : FuncId → Prop} {env : Env α}

theorem mem_reads_of_call {e : Expr κ} {f : FuncId} {args : List (Expr κ)} (mem : call f args ∈ e.nodes) :
    ⟨.func f, args⟩ ∈ e.reads := List.mem_filterMap.mpr ⟨_, mem, rfl⟩

theorem target_ne_of_not_reads {e : Expr κ} {t : Target} (unread : e.readsTarget t = false) {r : Read κ}
    (mem : r ∈ e.reads) : r.target ≠ t := by
  rw [readsTarget, List.any_eq_false] at unread
  exact fun same => unread r mem (decide_eq_true same)

omit [Scalar α] in
theorem related_follow (h : P.Follows P' T) {e : Expr κ} (within : ∀ r ∈ e.reads, ∀ f, r.target = .func f → T f) :
    Related Lifting.follow Eq P.reader P'.reader env env e := by
  refine ⟨fun _ => rfl, ?_, ?_, ?_, ?_, ?_⟩
  · intro x _ v found
    exact ⟨v, found, rfl⟩
  · intro x _ v found
    exact ⟨v, found, rfl⟩
  · intro f args index mem v answer
    exact ⟨v, h.call (within _ (mem_reads_of_call mem) f rfl) answer, rfl⟩
  · intro b index v answer
    exact ⟨v, h.load answer, rfl⟩
  · intro i v answer
    exact ⟨v, h.param answer, rfl⟩

theorem value?_follow (h : P.Follows P' T) {e : Expr κ} (within : ∀ r ∈ e.reads, ∀ f, r.target = .func f → T f)
    {v : α} (hv : e.value? P env = some v) : e.value? P' env = some v := by
  obtain ⟨w, hw, rfl⟩ := eval_rel Respected.eq (related_follow h within) v hv
  exact hw

theorem position?_follow (h : P.Follows P' T) {es : List (Expr κ)}
    (within : ∀ e ∈ es, ∀ r ∈ e.reads, ∀ f, r.target = .func f → T f) {p : List Int}
    (hp : position? P env es = some p) : position? P' env es = some p := by
  obtain ⟨q, hq, rfl⟩ := evalIndex_related Respected.eq (fun a mem => related_follow h (within a mem)) p hp
  exact hq

end Expr

namespace Definition

/-- The position and the value of one iteration. -/
def iterate? (P : Answers α) (d : Definition κ) (env : Env α) : Option (List Int × α) := do
  let p ← Expr.position? P env d.lhs
  let v ← d.value.value? P env
  return (p, v)

/-- One iteration: with a reduction domain it sees the current values of `f`, without one those of `start`. -/
def step? (P : Answers α) (f : FuncId) (d : Definition κ) (start A : Contents α) (env : Env α) :
    Option (Contents α) := do
  let (p, v) ← d.iterate? (P.set f (if d.rdom.isSome then A else start)) env
  A.store? p v

/-- All iterations in order. -/
def run? (P : Answers α) (f : FuncId) (d : Definition κ) (iterations : List (Env α)) (A : Contents α) :
    Option (Contents α) := iterations.foldlM (d.step? P f A) A

end Definition

variable [Scalar κ]

/-- The values of the initial definition over a region. -/
def Func.start? (P : Answers α) (func : Func κ) (region : Domain) : Option (Contents α) :=
  func.init.bind fun d =>
    let A : Contents α := fun p =>
      if p ∈ region.points then d.value.value? P ⟨coordinates κ func.args p, []⟩ else none
    if ∀ p ∈ region.points, (A p).isSome then some A else none

/-- The values over a region after all updates, for given answers of other funcs. -/
def Func.contents? (P : Answers α) (f : FuncId) (func : Func κ) (region : Domain) : Option (Contents α) := do
  let A ← func.start? P region
  func.updates.foldlM (fun A d => d.run? P f (d.iterations region) A) A

theorem Func.start?_eq_some {P : Answers α} {func : Func κ} {region : Domain} {A : Contents α} :
    func.start? P region = some A ↔ ∃ d, func.init = some d ∧ (∀ p ∈ region.points, (A p).isSome) ∧
      A = fun p => if p ∈ region.points then d.value.value? P ⟨coordinates κ func.args p, []⟩ else none := by
  unfold start?
  rw [Option.bind_eq_some_iff]
  refine exists_congr fun d => and_congr_right fun _ => ?_
  simp only [Option.ite_none_right_eq_some, Option.some.injEq]
  constructor
  · rintro ⟨all, rfl⟩
    exact ⟨all, rfl⟩
  · rintro ⟨all, rfl⟩
    exact ⟨all, rfl⟩

end Definitions

/-! ### Loops that can stop -/

theorem foldlM_some_invariant {S X : Type} {f : S → X → Option S} (inv : S → Prop) {l : List X} {s s' : S}
    (run : l.foldlM f s = some s') (start : inv s) (step : ∀ x ∈ l, ∀ t t', inv t → f t x = some t' → inv t') :
    inv s' := by
  induction l generalizing s with
  | nil =>
    obtain rfl := Option.some.inj run
    exact start
  | cons x l ih =>
    obtain ⟨t, first, rest⟩ := Option.bind_eq_some_iff.mp run
    exact ih rest (step x List.mem_cons_self s t start first) fun y mem => step y (List.mem_cons_of_mem x mem)

theorem foldlM_some_mono {S X : Type} {f g : S → X → Option S} {l : List X} {s t : S}
    (step : ∀ x ∈ l, ∀ s t, f s x = some t → g s x = some t) (run : l.foldlM f s = some t) : l.foldlM g s = some t := by
  induction l generalizing s with
  | nil => exact run
  | cons x l ih =>
    obtain ⟨u, first, rest⟩ := Option.bind_eq_some_iff.mp run
    exact Option.bind_eq_some_iff.mpr ⟨u, step x List.mem_cons_self s u first,
      ih (fun y mem => step y (List.mem_cons_of_mem x mem)) rest⟩

theorem foldlM_flatMap {S X Y : Type} (f : S → X → Option S) (k : Y → List X) (l : List Y) (s : S) :
    (l.flatMap k).foldlM f s = l.foldlM (fun s y => (k y).foldlM f s) s := by
  induction l generalizing s with
  | nil => rfl
  | cons y l ih =>
    rw [List.flatMap_cons, List.foldlM_append, List.foldlM_cons]
    exact bind_congr fun t => ih t

theorem foldlM_both {S S' X : Type} {f : S → X → Option S} {g : S' → X → Option S'} (inv : S → S' → Prop)
    {l : List X} (step : ∀ x ∈ l, ∀ s t s' t', f s x = some t → g s' x = some t' → inv s s' → inv t t')
    {s t : S} {s' t' : S'} (run : l.foldlM f s = some t) (run' : l.foldlM g s' = some t') (h : inv s s') :
    inv t t' := by
  induction l generalizing s s' with
  | nil =>
    obtain rfl := Option.some.inj run
    obtain rfl := Option.some.inj run'
    exact h
  | cons x l ih =>
    obtain ⟨u, first, rest⟩ := Option.bind_eq_some_iff.mp run
    obtain ⟨u', first', rest'⟩ := Option.bind_eq_some_iff.mp run'
    exact ih (fun y mem => step y (List.mem_cons_of_mem x mem)) rest rest'
      (step x List.mem_cons_self s u s' u' first first' h)

/-- Two loops over lists with the same entries in common keep what their steps keep: the common entries are run in both
loops at once, the other ones in one loop alone. -/
theorem foldlM_merge {S S' X : Type} {f : S → X → Option S} {g : S' → X → Option S'} {c c' : X → Bool}
    (inv : S → S' → Prop) {l l' : List X} (common : l.filter c = l'.filter c')
    (left : ∀ x ∈ l, c x = false → ∀ s t s', f s x = some t → inv s s' → inv t s')
    (right : ∀ x ∈ l', c' x = false → ∀ s s' t', g s' x = some t' → inv s s' → inv s t')
    (both : ∀ x ∈ l, x ∈ l' → ∀ s t s' t', f s x = some t → g s' x = some t' → inv s s' → inv t t')
    {s t : S} {s' t' : S'} (run : l.foldlM f s = some t) (run' : l'.foldlM g s' = some t') (h : inv s s') :
    inv t t' := by
  induction l generalizing l' s s' with
  | nil =>
    obtain rfl := Option.some.inj run
    refine foldlM_some_invariant (inv s) run' h fun x mem u u' hu step => right x mem ?_ s u u' step hu
    have none := List.filter_eq_nil_iff.mp common.symm x mem
    simpa using none
  | cons x l ih =>
    obtain ⟨u, first, rest⟩ := Option.bind_eq_some_iff.mp run
    have leftRest : ∀ y ∈ l, c y = false → ∀ s t s', f s y = some t → inv s s' → inv t s' :=
      fun y mem => left y (List.mem_cons_of_mem x mem)
    by_cases shared : c x
    · rw [List.filter_cons_of_pos shared] at common
      obtain ⟨before, after, rfl, off, on, same⟩ := List.filter_eq_cons_iff.mp common.symm
      rw [List.foldlM_append] at run'
      obtain ⟨v, skipped, run'⟩ := Option.bind_eq_some_iff.mp run'
      obtain ⟨w, second, rest'⟩ := Option.bind_eq_some_iff.mp run'
      have reached : inv s v := foldlM_some_invariant (inv s) skipped h fun y mem a b ha step =>
        right y (List.mem_append_left _ mem) (by simpa using off y mem) s a b step ha
      have joined : inv u w := both x List.mem_cons_self (by simp) s u v w first second reached
      exact ih same.symm leftRest
        (fun y mem => right y (List.mem_append_right _ (List.mem_cons_of_mem x mem)))
        (fun y mem mem' => both y (List.mem_cons_of_mem x mem) (List.mem_append_right _ (List.mem_cons_of_mem x mem')))
        rest rest' joined
    · rw [List.filter_cons_of_neg shared] at common
      exact ih common leftRest right (fun y mem mem' => both y (List.mem_cons_of_mem x mem) mem') rest run'
        (left x List.mem_cons_self (by simpa using shared) s u s' first h)

section Runs

variable [Scalar κ] [Scalar α] [Embed κ α] {P P' : Answers α} {T : FuncId → Prop} {f : FuncId} {d : Definition κ}

/-! ### More answers -/

section

omit [Scalar κ]

theorem Definition.step?_eq_some {start A B : Contents α} {env : Env α} : d.step? P f start A env = some B ↔
    ∃ p v, Expr.position? (P.set f (if d.rdom.isSome then A else start)) env d.lhs = some p ∧
      d.value.value? (P.set f (if d.rdom.isSome then A else start)) env = some v ∧ A.store? p v = some B := by
  constructor
  · intro run
    obtain ⟨⟨p, v⟩, found, stored⟩ := Option.bind_eq_some_iff.mp run
    obtain ⟨q, position, rest⟩ := Option.bind_eq_some_iff.mp found
    obtain ⟨w, value, same⟩ := Option.bind_eq_some_iff.mp rest
    obtain ⟨rfl, rfl⟩ := Prod.mk.inj (Option.some.inj same)
    exact ⟨q, w, position, value, stored⟩
  · rintro ⟨p, v, position, value, stored⟩
    refine Option.bind_eq_some_iff.mpr ⟨(p, v), ?_, stored⟩
    exact Option.bind_eq_some_iff.mpr ⟨p, position, Option.bind_eq_some_iff.mpr ⟨v, value, rfl⟩⟩

theorem Definition.step?_follow (h : P.Follows P' T) (within : ∀ r ∈ d.reads, ∀ g, r.target = .func g → g ≠ f → T g)
    {start A B : Contents α} {env : Env α} (run : d.step? P f start A env = some B) :
    d.step? P' f start A env = some B := by
  obtain ⟨p, v, position, value, stored⟩ := step?_eq_some.mp run
  have wider := h.set f (if d.rdom.isSome then A else start)
  have inside : ∀ e ∈ d.exprs, ∀ r ∈ e.reads, ∀ g, r.target = .func g → g ≠ f → T g := fun e mem r read =>
    within r (List.mem_flatMap.mpr ⟨e, mem, read⟩)
  refine step?_eq_some.mpr ⟨p, v, ?_, ?_, stored⟩
  · exact Expr.position?_follow wider (fun e mem => inside e (List.mem_append_left _ mem)) position
  · exact Expr.value?_follow wider (inside d.value (by simp [Definition.exprs])) value

theorem Definition.run?_follow (h : P.Follows P' T) (within : ∀ r ∈ d.reads, ∀ g, r.target = .func g → g ≠ f → T g)
    {envs : List (Env α)} {A B : Contents α} (run : d.run? P f envs A = some B) : d.run? P' f envs A = some B :=
  foldlM_some_mono (fun _ _ _ _ step => step?_follow h within step) run

end

/-- With more answers, a func holds the same. -/
theorem Func.contents?_follow {func : Func κ} {region : Domain} {A : Contents α} (h : P.Follows P' T)
    (within : ∀ stage g, func.Reads stage (.func g) → g ≠ f ∨ stage = .initial → T g)
    (run : func.contents? P f region = some A) : func.contents? P' f region = some A := by
  obtain ⟨B, begun, run⟩ := Option.bind_eq_some_iff.mp run
  obtain ⟨d, found, all, rfl⟩ := Func.start?_eq_some.mp begun
  have initial : ∀ r ∈ d.value.reads, ∀ g, r.target = .func g → T g := fun r mem g target =>
    within .initial g (target ▸ Func.reads_initial found mem) (Or.inr rfl)
  refine Option.bind_eq_some_iff.mpr ⟨_, Func.start?_eq_some.mpr ⟨d, found, all, ?_⟩, ?_⟩
  · funext p
    by_cases inside : p ∈ region.points
    · have held := all p inside
      simp only [inside, if_true] at held ⊢
      obtain ⟨v, value⟩ := Option.isSome_iff_exists.mp held
      rw [value, Expr.value?_follow h initial value]
    · simp [inside]
  · have updates : ∀ d ∈ func.updates, ∀ r ∈ d.reads, ∀ g, r.target = .func g → g ≠ f → T g := by
      intro d mem r read g target other
      obtain ⟨i, listed⟩ := Func.mem_definitions_update mem
      exact within (.update i) g ⟨d, listed, r, read, target⟩ (Or.inl other)
    exact foldlM_some_mono (fun d mem _ _ step => Definition.run?_follow h (updates d mem) step) run

/-! ### Positions that have a value -/

omit [Scalar κ] in
theorem Definition.isSome_of_run? {envs : List (Env α)} {A B : Contents α} (run : d.run? P f envs A = some B)
    (q : List Int) : (B q).isSome = (A q).isSome := by
  refine foldlM_some_invariant (fun C : Contents α => (C q).isSome = (A q).isSome) run rfl ?_
  intro env _ C D same step
  obtain ⟨⟨p, v⟩, -, stored⟩ := Option.bind_eq_some_iff.mp step
  rw [Contents.isSome_of_store? stored q, same]

theorem Func.isSome_of_start? {func : Func κ} {region : Domain} {A : Contents α}
    (begun : func.start? P region = some A) (q : List Int) : (A q).isSome = true ↔ q ∈ region.points := by
  obtain ⟨d, -, all, rfl⟩ := Func.start?_eq_some.mp begun
  by_cases inside : q ∈ region.points
  · exact ⟨fun _ => inside, fun _ => all q inside⟩
  · simp [inside]

theorem Func.isSome_of_contents? {func : Func κ} {region : Domain} {A : Contents α}
    (run : func.contents? P f region = some A) (q : List Int) : (A q).isSome = true ↔ q ∈ region.points := by
  obtain ⟨B, begun, run⟩ := Option.bind_eq_some_iff.mp run
  refine foldlM_some_invariant (fun C : Contents α => (C q).isSome = true ↔ q ∈ region.points) run
    (Func.isSome_of_start? begun q) ?_
  intro d _ C D same step
  rw [Definition.isSome_of_run? step q, same]

end Runs

end ArrayDiff
