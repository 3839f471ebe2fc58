import Mathlib.Data.List.Chain
import ArrayDiff.Adjoint.Basic
import ArrayDiff.Proofs.Derivative
import ArrayDiff.Proofs.Schedule

/-!
# The walk over all keys

A sweep sends terms to keys and settles keys. `Sweep.Happens` lists what it does in order: no term comes to a key that
was settled before, every key is settled once, and in the end no term is left over (`Graph.sweep_settles_in_time`).
-/

namespace ArrayDiff

variable {κ : Type} [Extended κ]

/-! ### Computations that fail for unsupported updates only -/

/-- The update of a func cannot be differentiated. -/
def DiffError.IsUnsupported : DiffError → Prop
  | unsupported .. => True
  | _ => False

/-- What `c` yields satisfies `Q`, and only an unsupported update makes it fail. -/
def Meets {A : Type} (c : Except DiffError A) (Q : A → Prop) : Prop :=
  match c with
  | .ok a => Q a
  | .error e => e.IsUnsupported

section Meets

variable {A B : Type} {c : Except DiffError A} {k : A → Except DiffError B} {Q : A → Prop} {R : B → Prop}

theorem Meets.bind (h : Meets c Q) (next : ∀ a, Q a → Meets (k a) R) : Meets (c >>= k) R := by
  cases c with
  | error e => exact h
  | ok a => exact next a h

theorem Meets.mono {Q' : A → Prop} (h : Meets c Q) (weaker : ∀ a, Q a → Q' a) : Meets c Q' := by
  cases c with
  | error e => exact h
  | ok a => exact weaker a h

theorem Meets.of_ok {a : A} (h : Meets c Q) (run : c = .ok a) : Q a := by
  subst run
  exact h

theorem Meets.of_error {e : DiffError} (h : Meets c Q) (run : c = .error e) : e.IsUnsupported := by
  subst run
  exact h

theorem Meets.check {b : Bool} {e : DiffError} {rest : Unit → Except DiffError B} (h : Meets (rest ()) R)
    (unsupported : e.IsUnsupported) : Meets (if b then throw e >>= rest else rest ()) R := by
  cases b with
  | true => exact unsupported
  | false => exact h

end Meets

/-! ### Events -/

/-- The key of a target whose contributions are still coming in. -/
def Graph.keyOf {κ : Type} (g : Graph κ) : Target → Key
  | .func f => ⟨.func f, (g.func f).lastStage⟩
  | t => ⟨t, .initial⟩

theorem Graph.keyOf_target {κ : Type} (g : Graph κ) (t : Target) : (g.keyOf t).target = t := by
  cases t <;> rfl

theorem Graph.keyOf_inj {κ : Type} {g : Graph κ} {t u : Target} (same : g.keyOf t = g.keyOf u) : t = u := by
  rw [← g.keyOf_target t, same, g.keyOf_target]

/-- What a sweep does to a key. -/
inductive Event where
  /-- A term is added to those of the key. -/
  | sent (key : Key)
  /-- The terms of the key become funcs. -/
  | settled (key : Key)

namespace Event

def key : Event → Key
  | sent key => key
  | settled key => key

def settled? : Event → Option Key
  | sent _ => none
  | settled key => some key

end Event

/-- Nothing happens to a key after it was settled: no term is late, and no key is settled again. -/
def Timely (events : List Event) : Prop := events.Pairwise fun a b => ∀ key, a = .settled key → b.key ≠ key

namespace Sweep

/-- The events that lead from one state of a sweep to another; what else changes leaves terms and slots alone. -/
inductive Happens (s : Sweep κ) : List Event → Sweep κ → Prop where
  | start : s.Happens [] s
  | send {events : List Event} {x : Sweep κ} (key : Key) (term : Term κ) :
    s.Happens events x → s.Happens (events ++ [.sent key]) (x.addTerm key term)
  | settle {events : List Event} {x : Sweep κ} (key : Key) :
    s.Happens events x → s.Happens (events ++ [.settled key]) (x.settle key).2
  | aside {events : List Event} {x y : Sweep κ} :
    s.Happens events x → y.terms = x.terms → y.slots = x.slots → s.Happens events y

variable {s x y z : Sweep κ} {events later : List Event} {f : FuncId} {d : Definition κ} {stage : Stage} {key k : Key}

theorem Happens.trans (h : s.Happens events x) (h' : x.Happens later y) : s.Happens (events ++ later) y := by
  induction h' with
  | start => rwa [List.append_nil]
  | send key term _ ih =>
    rw [← List.append_assoc]
    exact ih.send key term
  | settle key _ ih =>
    rw [← List.append_assoc]
    exact ih.settle key
  | aside _ terms slots ih => exact ih.aside terms slots

omit [Extended κ] in
theorem contains_addTerm (s : Sweep κ) (key : Key) (term : Term κ) (k : Key) :
    (s.addTerm key term).terms.contains k = (decide (key = k) || s.terms.contains k) :=
  Table.contains_insert ..

theorem contains_settle (s : Sweep κ) (key k : Key) :
    (s.settle key).2.terms.contains k = (!decide (key = k) && s.terms.contains k) :=
  Table.contains_erase ..

/-- A term that waits was there before and its key was not settled, or it was sent. -/
theorem Happens.waiting (h : s.Happens events x) (waits : x.terms.contains k) :
    s.terms.contains k ∧ .settled k ∉ events ∨ .sent k ∈ events := by
  induction h with
  | start => exact Or.inl ⟨waits, List.not_mem_nil⟩
  | send key term _ ih =>
    rw [contains_addTerm] at waits
    by_cases same : key = k
    · subst same
      exact Or.inr (List.mem_append_right _ List.mem_cons_self)
    · rw [decide_eq_false same, Bool.false_or] at waits
      refine (ih waits).imp (fun old => ⟨old.1, fun mem => ?_⟩) (List.mem_append_left _)
      rcases List.mem_append.mp mem with mem | mem
      · exact old.2 mem
      · cases List.mem_singleton.mp mem
  | settle key _ ih =>
    rw [contains_settle] at waits
    by_cases same : key = k
    · rw [decide_eq_true same] at waits
      cases waits
    · rw [decide_eq_false same] at waits
      refine (ih waits).imp (fun old => ⟨old.1, fun mem => ?_⟩) (List.mem_append_left _)
      rcases List.mem_append.mp mem with mem | mem
      · exact old.2 mem
      · cases List.mem_singleton.mp mem
        exact same rfl
  | aside _ terms _ ih =>
    rw [terms] at waits
    exact ih waits

/-- A key that is settled has funcs from then on. -/
theorem Happens.settles (h : s.Happens events x) (mem : .settled k ∈ events) : x.slots.contains k := by
  induction h with
  | start => cases mem
  | send key term _ ih =>
    refine ih ((List.mem_append.mp mem).resolve_right fun last => ?_)
    cases List.mem_singleton.mp last
  | @settle _ x key _ ih =>
    change (x.slots.insert key (x.settle key).1).contains k = true
    rw [Table.contains_insert, Bool.or_eq_true, decide_eq_true_eq]
    rcases List.mem_append.mp mem with earlier | last
    · exact Or.inr (ih earlier)
    · exact Or.inl (Event.settled.inj (List.mem_singleton.mp last)).symm
  | aside _ _ slots ih =>
    rw [slots]
    exact ih mem

/-! ### Terms under a key -/

/-- The terms that wait under a key. -/
def pending (s : Sweep κ) (key : Key) : List (Term κ) := (s.terms.get? key).getD []

/-- The contribution of a read, with everything it depends on taken from the sweep. -/
def contributed (s : Sweep κ) (key : Key) (f : FuncId) (d : Definition κ) (args : List (Expr κ)) (v : Expr κ) :
    List (Term κ) :=
  (contribution? (s.source.func f) (s.regionOf (.func f)) d (s.source.argsOf key.target) args v).toList

variable {t : Term κ} {args : List (Expr κ)} {v : Expr κ}

omit [Extended κ] in
theorem pending_addTerm : (s.addTerm key t).pending k = s.pending k ++ if key = k then [t] else [] := by
  unfold pending addTerm
  rw [Table.get?_insert]
  split
  · rename_i same
    rw [same]
    rfl
  · rw [List.append_nil]

theorem pending_contribute : (s.contribute key f d args v).pending k =
    s.pending k ++ if key = k then s.contributed key f d args v else [] := by
  unfold contribute contributed
  split
  · rename_i term found
    rw [pending_addTerm, found]
    rfl
  · rename_i none
    rw [none]
    simp

/-! ### Terms that are sent by one stage -/

/-- `x` comes from `s` by sending terms to keys that satisfy `P`. -/
structure Sends (s : Sweep κ) (P : Key → Prop) (x : Sweep κ) : Prop where
  source : x.source = s.source
  regions : x.regions = s.regions
  progress : x.progress = s.progress
  keeps (k : Key) : s.pending k ⊆ x.pending k
  happens : ∃ keys : List Key, (∀ k ∈ keys, P k) ∧ s.Happens (keys.map .sent) x

variable {P : Key → Prop}

theorem Sends.refl (s : Sweep κ) : s.Sends P s :=
  ⟨rfl, rfl, rfl, fun _ => List.Subset.refl _, [], (fun _ mem => absurd mem List.not_mem_nil), .start⟩

theorem Sends.trans (h : s.Sends P x) (h' : x.Sends P y) : s.Sends P y := by
  obtain ⟨keys, first, events⟩ := h.happens
  obtain ⟨keys', second, events'⟩ := h'.happens
  refine ⟨h'.source.trans h.source, h'.regions.trans h.regions, h'.progress.trans h.progress,
    fun k => List.Subset.trans (h.keeps k) (h'.keeps k), keys ++ keys', fun k mem => ?_, ?_⟩
  · exact (List.mem_append.mp mem).elim (first k) (second k)
  · rw [List.map_append]
    exact events.trans events'

theorem sends_addTerm (s : Sweep κ) (allowed : P key) (term : Term κ) : s.Sends P (s.addTerm key term) := by
  refine ⟨rfl, rfl, rfl, fun k => ?_, [key], fun k mem => ?_, Happens.start.send key term⟩
  · rw [pending_addTerm]
    exact List.subset_append_left _ _
  · rwa [List.mem_singleton.mp mem]

theorem sends_contribute (s : Sweep κ) (allowed : P key) (f : FuncId) (d : Definition κ) (args : List (Expr κ))
    (value : Expr κ) : s.Sends P (s.contribute key f d args value) := by
  unfold Sweep.contribute
  split
  · exact sends_addTerm s allowed _
  · exact Sends.refl s

theorem sends_contributeAll {A : Type} (l : List A) (args : A → List (Expr κ)) (value : A → Expr κ) (s : Sweep κ)
    (allowed : P key) (f : FuncId) (d : Definition κ) :
    s.Sends P (l.foldl (fun s a => s.contribute key f d (args a) (value a)) s) := by
  induction l generalizing s with
  | nil => exact Sends.refl s
  | cons a l ih => exact (sends_contribute s allowed f d (args a) (value a)).trans (ih _)

theorem sends_extension (s : Sweep κ) (extension : Extension κ) : s.Sends P { s with extension } :=
  ⟨rfl, rfl, rfl, fun _ => List.Subset.refl _, [], (fun _ mem => absurd mem List.not_mem_nil),
    Happens.start.aside rfl rfl⟩

theorem sends_snapshot (s : Sweep κ) (f : FuncId) (stage : Stage) : s.Sends P (s.snapshot f stage).2 :=
  sends_extension s _

omit [Extended κ] in
theorem keyRead_of_unvisited {t : Target} (unvisited : ∀ h, t = .func h → s.progress.phase h = .unvisited) :
    s.keyRead t = .ok (s.source.keyOf t) := by
  cases t with
  | func h =>
    change (s.progress.accept s.source h >>= fun _ => pure (s.source.keyOf (.func h))) = _
    unfold Progress.accept
    rw [if_pos (unvisited h rfl)]
    rfl
  | buffer b => rfl
  | param p => rfl

/-- The other funcs that are read have not been begun. -/
def Awaits (s : Sweep κ) (f : FuncId) (ps : List (Partial κ)) : Prop :=
  ∀ p ∈ ps, ∀ h, p.read.target = .func h → h ≠ f → s.progress.phase h = .unvisited

/-- The keys of what a list of reads addresses, apart from `f` itself. -/
def ReadKey (g : Graph κ) (f : FuncId) (ps : List (Partial κ)) (k : Key) : Prop :=
  ∃ p ∈ ps, p.read.target ≠ .func f ∧ k = g.keyOf p.read.target

/-- In `x` the contribution of every read apart from those of `f` itself waits under the key of what is read. -/
def Delivers (s : Sweep κ) (f : FuncId) (d : Definition κ) (ps : List (Partial κ)) (adjoint : Expr κ) (copy : FuncId)
    (x : Sweep κ) : Prop :=
  ∀ p ∈ ps, p.read.target ≠ .func f → s.contributed (s.source.keyOf p.read.target) f d p.read.args
    (Smart.mul (p.slope.redirect f copy) adjoint) ⊆ x.pending (s.source.keyOf p.read.target)

theorem Delivers.congr {ps : List (Partial κ)} {adjoint : Expr κ} {copy : FuncId}
    (h : x.Delivers f d ps adjoint copy y) (source : x.source = s.source) (regions : x.regions = s.regions) :
    s.Delivers f d ps adjoint copy y := by
  unfold Delivers contributed regionOf at h ⊢
  rwa [source, regions] at h

theorem contributeReads_meets {ps : List (Partial κ)} (awaits : s.Awaits f ps) (adjoint : Expr κ) (copy : FuncId)
    (allowed : ∀ k, ReadKey s.source f ps k → P k) :
    Meets (s.contributeReads f d ps adjoint copy) fun x => s.Sends P x ∧ s.Delivers f d ps adjoint copy x := by
  induction ps generalizing s with
  | nil => exact ⟨Sends.refl s, fun p mem => absurd mem List.not_mem_nil⟩
  | cons p ps ih =>
    unfold contributeReads
    rw [List.foldlM_cons]
    have rest {x : Sweep κ} (sent : s.Sends P x) (first : s.Delivers f d [p] adjoint copy x) :
        Meets (x.contributeReads f d ps adjoint copy) fun y =>
          s.Sends P y ∧ s.Delivers f d (p :: ps) adjoint copy y := by
      refine (ih (s := x) (fun q mem => ?_) fun k reads => ?_).mono fun y later => ⟨sent.trans later.1, ?_⟩
      · rw [sent.progress]
        exact awaits q (List.mem_cons_of_mem _ mem)
      · obtain ⟨q, mem, other, rfl⟩ := reads
        rw [sent.source]
        exact allowed _ ⟨q, List.mem_cons_of_mem _ mem, other, rfl⟩
      · refine List.forall_mem_cons.mpr ⟨fun other => ?_, later.2.congr sent.source sent.regions⟩
        exact List.Subset.trans (first p List.mem_cons_self other) (later.1.keeps _)
    refine Meets.bind (Q := fun x => s.Sends P x ∧ s.Delivers f d [p] adjoint copy x) ?_ fun x sent =>
      rest sent.1 sent.2
    split
    · rename_i self
      exact ⟨Sends.refl s, List.forall_mem_singleton.mpr fun other => absurd self other⟩
    · rename_i other
      rw [keyRead_of_unvisited fun h same => awaits p List.mem_cons_self h same fun self => other (self ▸ same)]
      refine ⟨sends_contribute s (allowed _ ⟨p, List.mem_cons_self, other, rfl⟩) f d _ _,
        List.forall_mem_singleton.mpr fun _ => ?_⟩
      rw [pending_contribute, if_pos rfl]
      exact List.subset_append_right _ _

/-- The keys that an update sends to: the stage before, and what its value reads. -/
def SentTo (s : Sweep κ) (t : Step κ) (k : Key) : Prop := k = t.priorKey ∨ ReadKey s.source t.func t.partials k

/-- What an update does: it sends terms, among them the contributions of all reads of other targets. -/
structure Serves (s : Sweep κ) (t : Step κ) (x : Sweep κ) : Prop where
  sends : s.Sends (s.SentTo t) x
  delivers : ∃ adjoint copy : FuncId,
    s.Delivers t.func t.definition t.partials (.call adjoint t.definition.lhs) copy x

section Steps

variable {t : Step κ}

theorem Sends.contributeReads (h : s.Sends (s.SentTo t) x) (awaits : s.Awaits t.func t.partials)
    (adjoint copy : FuncId) :
    Meets (x.contributeReads t.func t.definition t.partials (.call adjoint t.definition.lhs) copy) (s.Serves t) := by
  refine (contributeReads_meets (fun p mem => ?_) _ copy fun k reads => ?_).mono fun y sent =>
    ⟨h.trans sent.1, adjoint, copy, sent.2.congr h.source h.regions⟩
  · rw [h.progress]
    exact awaits p mem
  · rw [h.source] at reads
    exact Or.inr reads

theorem overwrite_meets (awaits : s.Awaits t.func t.partials) : Meets (s.overwrite t) (s.Serves t) := by
  have prior : s.SentTo t t.priorKey := Or.inl rfl
  unfold overwrite
  refine Meets.check ?_ (by exact trivial)
  have copied : s.Sends (s.SentTo t) (s.snapshot t.func t.prior).2 := sends_snapshot s t.func t.prior
  generalize s.snapshot t.func t.prior = snap at copied ⊢
  obtain ⟨before, x⟩ := snap
  have kept : s.Sends (s.SentTo t) (if t.definition.rdom.isSome ||
      !Expr.sameList t.definition.lhs (x.source.func t.func).argExprs then
      (x.addTerm t.priorKey (.gather (.call t.adjoint (x.source.func t.func).argExprs))).addTerm t.priorKey
        (.mask t.definition.lhs t.definition.rdom)
    else x) := by
    split
    · exact (copied.trans (sends_addTerm x prior _)).trans (sends_addTerm _ prior _)
    · exact copied
  exact (kept.trans (sends_contributeAll t.selfPartials (fun p => p.read.args)
    (fun p => Smart.mul (p.slope.redirect t.func before) (.call t.adjoint t.definition.lhs)) _ prior t.func
    t.definition)).contributeReads awaits _ _

theorem accumulate_meets (awaits : s.Awaits t.func t.partials) : Meets (s.accumulate t) (s.Serves t) := by
  unfold accumulate
  refine Meets.check (Meets.check ?_ (by exact trivial)) (by exact trivial)
  exact (sends_addTerm s (Or.inl rfl) _).contributeReads awaits _ _

theorem scanSlope_meets (s : Sweep κ) (t : Step κ) (read : List (Expr κ)) (after : FuncId) :
    Meets (s.scanSlope t read after) fun _ => True := by
  unfold scanSlope
  generalize (Expr.zero : Expr κ) = slope
  induction t.selfPartials generalizing slope with
  | nil => trivial
  | cons p ps ih =>
    rw [List.foldlM_cons]
    refine Meets.bind (Q := fun _ => True) ?_ fun slope _ => ih slope
    split
    · trivial
    · split <;> trivial

theorem scan_meets (awaits : s.Awaits t.func t.partials) (read : List (Expr κ)) (accumulates : Bool) :
    Meets (s.scan t read accumulates) (s.Serves t) := by
  have prior : s.SentTo t t.priorKey := Or.inl rfl
  unfold scan
  dsimp only
  split
  · rename_i rdom _
    have copied : s.Sends (s.SentTo t) (s.snapshot t.func t.stage).2 := sends_snapshot s t.func t.stage
    generalize s.snapshot t.func t.stage = snap at copied ⊢
    obtain ⟨after, x⟩ := snap
    refine Meets.bind (scanSlope_meets x t read after) fun slope _ => ?_
    have passed := (copied.trans (sends_extension x
      (x.extension.push (x.scanFunc t x.extension.nextId read slope rdom)).2)).trans (sends_addTerm _ prior
        (.gather (.call (x.extension.push (x.scanFunc t x.extension.nextId read slope rdom)).1
          (x.source.func t.func).argExprs)))
    cases accumulates with
    | true => exact passed.contributeReads awaits _ _
    | false => exact (passed.trans (sends_addTerm _ prior _)).contributeReads awaits _ _
  · trivial

end Steps

/-! ### One stage -/

/-- What processing a stage does: its key is settled first, then terms are sent, one for every contribution to what its
definition reads. -/
structure Processed (s : Sweep κ) (f : FuncId) (stage : Stage) (x : Sweep κ) : Prop where
  source : x.source = s.source
  delivers {d : Definition κ} : (s.source.func f).definition? stage = some d →
    ∃ adjoint copy : FuncId, s.Delivers f d d.value.partials (.call adjoint d.lhs) copy x
  phase (h : FuncId) : x.progress.phase h = if f = h then Phase.after stage else s.progress.phase h
  happens : ∃ keys : List Key, s.Happens (.settled ⟨.func f, stage⟩ :: keys.map .sent) x ∧ ∀ k ∈ keys,
    (∃ prior, stage.prev? = some prior ∧ k = ⟨.func f, prior⟩) ∨
    ∃ d, (s.source.func f).definition? stage = some d ∧ ReadKey s.source f d.value.partials k

theorem process_meets (next : (s.progress.phase f).next? (s.source.func f).lastStage = some stage)
    (awaits : ∀ d, (s.source.func f).definition? stage = some d → s.Awaits f d.value.partials) :
    Meets (s.process f stage) (s.Processed f stage) := by
  have begun : s.progress.begin s.source f stage = .ok { phases := s.progress.phases.insert f (.after stage) } := by
    unfold Progress.begin
    rw [if_pos next]
    rfl
  generalize started : ({ s with progress := ⟨s.progress.phases.insert f (.after stage)⟩ } : Sweep κ) = s₀
  unfold process
  rw [begun]
  have ready : Meets (.ok ⟨s.progress.phases.insert f (.after stage)⟩) fun p : Progress =>
      p = ⟨s.progress.phases.insert f (.after stage)⟩ := Eq.refl _
  refine ready.bind ?_
  rintro _ rfl
  rw [started]
  have source : s₀.source = s.source := by rw [← started]
  have progress : s₀.progress = ⟨s.progress.phases.insert f (.after stage)⟩ := by rw [← started]
  have happens : s.Happens [.settled ⟨.func f, stage⟩] (s₀.settle ⟨.func f, stage⟩).2 :=
    Happens.settle _ (Happens.start.aside (by rw [← started]) (by rw [← started]))
  have regions : s₀.regions = s.regions := by rw [← started]
  have source₁ : (s₀.settle ⟨.func f, stage⟩).2.source = s.source := source
  have regions₁ : (s₀.settle ⟨.func f, stage⟩).2.regions = s.regions := regions
  have progress₁ : (s₀.settle ⟨.func f, stage⟩).2.progress = ⟨s.progress.phases.insert f (.after stage)⟩ := progress
  generalize s₀.settle ⟨.func f, stage⟩ = settled at happens source₁ regions₁ progress₁ ⊢
  obtain ⟨slot, x⟩ := settled
  dsimp only at happens source₁ regions₁ progress₁ ⊢
  -- all that is left to do is to send terms from `x`
  have finish {y : Sweep κ} {P : Key → Prop} (sent : x.Sends P y) (allowed : ∀ k, P k →
      (∃ prior, stage.prev? = some prior ∧ k = ⟨.func f, prior⟩) ∨
      ∃ d, (s.source.func f).definition? stage = some d ∧ ReadKey s.source f d.value.partials k)
      (delivers : ∀ d, (s.source.func f).definition? stage = some d →
        ∃ adjoint copy : FuncId, x.Delivers f d d.value.partials (.call adjoint d.lhs) copy y) :
      s.Processed f stage y := by
    obtain ⟨keys, to', events⟩ := sent.happens
    refine ⟨sent.source.trans source₁, fun found => ?_, fun h => ?_, keys, happens.trans events,
      fun k mem => allowed k (to' k mem)⟩
    · obtain ⟨adjoint, copy, delivered⟩ := delivers _ found
      exact ⟨adjoint, copy, delivered.congr source₁ regions₁⟩
    · rw [sent.progress, progress₁, Progress.phase_insert]
  have waits {d : Definition κ} (found : (s.source.func f).definition? stage = some d) :
      x.Awaits f d.value.partials := by
    intro p mem h target other
    rw [progress₁, Progress.phase_insert, if_neg (Ne.symm other)]
    exact awaits d found p mem h target other
  rw [source₁]
  cases found : (s.source.func f).definition? stage with
  | none => exact finish (P := fun _ => False) (Sends.refl x) (fun _ => False.elim) fun d => by simp [found]
  | some d =>
    have only {d' : Definition κ} (found' : (s.source.func f).definition? stage = some d') : d' = d :=
      Option.some.inj (found'.symm.trans found)
    dsimp only
    cases before : stage.prev? with
    | none =>
      refine (contributeReads_meets (P := ReadKey s.source f d.value.partials) (waits found) _ _ fun k reads => ?_).mono
        fun y sent => finish sent.1 (fun k reads => Or.inr ⟨d, found, reads⟩) fun d' found' => ?_
      · rwa [source₁] at reads
      · obtain rfl := only found'
        exact ⟨slot.bounded, f, sent.2⟩
    | some prior =>
      dsimp only
      let t : Step κ := ⟨f, stage, prior, d, slot.bounded⟩
      have step {c : Except DiffError (Sweep κ)} (served : Meets c (x.Serves t)) : Meets c (s.Processed f stage) := by
        refine served.mono fun y served => finish served.sends (fun k sent => ?_) fun d' found' => ?_
        · rcases sent with rfl | reads
          · exact Or.inl ⟨prior, before, rfl⟩
          · rw [source₁] at reads
            exact Or.inr ⟨d, found, reads⟩
        · obtain rfl := only found'
          exact served.delivers
      refine Meets.bind (Q := fun _ => True) ?_ fun kind _ => ?_
      · unfold Graph.classify
        cases d.kindFor f <;> trivial
      cases kind with
      | overwrite => exact step (overwrite_meets (t := t) (waits found))
      | inPlace => exact step (accumulate_meets (t := t) (waits found))
      | scan read accumulates => exact step (scan_meets (t := t) (waits found) read accumulates)

/-! ### Keys in the order in which they are settled -/

/-- Every event so far was in time, the keys of `done` are settled, and terms wait for keys of `todo` only. -/
structure Due (s x : Sweep κ) (done todo : List Key) : Prop where
  happens : ∃ events, s.Happens events x ∧ Timely events ∧ events.filterMap Event.settled? = done
  waiting {k : Key} : x.terms.contains k → k ∈ todo

variable {done todo : List Key}

theorem mem_settled {events : List Event} : k ∈ events.filterMap Event.settled? ↔ .settled k ∈ events := by
  rw [List.mem_filterMap]
  constructor
  · rintro ⟨e, mem, settled⟩
    cases e with
    | sent _ => cases settled
    | settled _ => rwa [← Option.some.inj settled]
  · exact fun mem => ⟨_, mem, rfl⟩

theorem Due.settle (h : s.Due x done (key :: todo)) (distinct : (done ++ key :: todo).Nodup) {keys : List Key}
    (happens : x.Happens (.settled key :: keys.map .sent) y) (inside : ∀ k ∈ keys, k ∈ todo) :
    s.Due y (done ++ [key]) todo := by
  obtain ⟨events, before, timely, settled⟩ := h.happens
  obtain ⟨-, rest, apart⟩ := List.nodup_append.mp distinct
  obtain ⟨fresh, -⟩ := List.nodup_cons.mp rest
  refine ⟨⟨_, before.trans happens, ?_, ?_⟩, fun {k} waits => ?_⟩
  · -- what happens now does not concern the keys that were settled before
    refine List.pairwise_append.mpr
      ⟨timely, List.pairwise_cons.mpr ⟨fun b mem k same => ?_, ?_⟩, fun a mem b mem' k same => ?_⟩
    · obtain ⟨k', sent, rfl⟩ := List.mem_map.mp mem
      obtain rfl := Event.settled.inj same
      exact fun equal => fresh (equal ▸ inside k' sent)
    · refine List.pairwise_map.mpr (List.Pairwise.imp_of_mem (R := fun _ _ => True) (fun _ _ _ k same => ?_) ?_)
      · cases same
      · exact List.pairwise_of_forall fun _ _ => trivial
    · subst same
      have old : k ∈ done := settled ▸ mem_settled.mpr mem
      refine fun equal => apart k old b.key ?_ equal.symm
      rcases List.mem_cons.mp mem' with rfl | mem'
      · exact List.mem_cons_self
      · obtain ⟨k', sent, rfl⟩ := List.mem_map.mp mem'
        exact List.mem_cons_of_mem _ (inside k' sent)
  · have none : (keys.map Event.sent).filterMap Event.settled? = [] := by
      rw [List.filterMap_map]
      exact List.filterMap_eq_nil_iff.mpr fun _ _ => rfl
    rw [List.filterMap_append, settled]
    change done ++ key :: (keys.map Event.sent).filterMap Event.settled? = _
    rw [none]
  · rcases happens.waiting waits with ⟨old, kept⟩ | sent
    · refine (List.mem_cons.mp (h.waiting old)).resolve_left fun same => kept ?_
      rw [same]
      exact List.mem_cons_self
    · rcases List.mem_cons.mp sent with same | sent
      · cases same
      · obtain ⟨k', mem, same⟩ := List.mem_map.mp sent
        rw [← Event.sent.inj same]
        exact inside k' mem

end Sweep

/-! ### The stages of a func, last one first -/

namespace Adjoints

theorem head?_stagesFrom (n : Nat) : (stagesFrom n).head? = some (.last n) := by
  cases n <;> rfl

/-- Stages follow each other as the walk over a func wants them: first the last one, then each time the one before. -/
theorem next?_of_split {n : Nat} {p q : List Stage} {stage : Stage} (split : stagesFrom n = p ++ stage :: q) :
    (p.getLast?.elim Phase.unvisited Phase.after).next? (.last n) = some stage ∧ q.head? = stage.prev? := by
  induction n generalizing p with
  | zero =>
    cases p with
    | nil =>
      obtain ⟨rfl, rfl⟩ := List.cons.inj split
      exact ⟨rfl, rfl⟩
    | cons a p => simp [stagesFrom] at split
  | succ n ih =>
    cases p with
    | nil =>
      obtain ⟨rfl, rfl⟩ := List.cons.inj split
      refine ⟨rfl, (head?_stagesFrom n).trans ?_⟩
      cases n <;> rfl
    | cons a p =>
      obtain ⟨rfl, rest⟩ := List.cons.inj split
      obtain ⟨next, prev⟩ := ih rest
      refine ⟨?_, prev⟩
      cases p with
      | nil =>
        have first := head?_stagesFrom n
        rw [rest] at first
        obtain rfl := Option.some.inj first
        cases n <;> rfl
      | cons b p =>
        rw [List.getLast?_cons_cons]
        rw [List.getLast?_eq_some_getLast (List.cons_ne_nil b p)] at next ⊢
        generalize (b :: p).getLast _ = last at next ⊢
        cases last <;> exact next

theorem nodup_stagesFrom (n : Nat) : (stagesFrom n).Nodup := by
  have below (n k : Nat) (mem : .update k ∈ stagesFrom n) : k < n := by
    induction n with
    | zero => cases List.mem_singleton.mp mem
    | succ n ih =>
      rcases List.mem_cons.mp mem with same | mem
      · rw [Stage.update.inj same]
        exact Nat.lt_succ_self n
      · exact (ih mem).trans (Nat.lt_succ_self n)
  induction n with
  | zero => exact List.nodup_singleton _
  | succ n ih => exact List.nodup_cons.mpr ⟨fun mem => (below n n mem).false, ih⟩

end Adjoints

theorem Func.stages_reverse {κ : Type} {f : Func κ} (defined : f.init.isSome) :
    (f.definitions.map (·.1)).reverse = Adjoints.stagesFrom f.updates.length := by
  rw [Func.map_fst_definitions defined]
  generalize f.updates.length = n
  induction n with
  | zero => rfl
  | succ n ih =>
    rw [List.range_succ, List.map_append, ← List.cons_append, List.reverse_append, ih]
    rfl

/-! ### All stages of a schedule -/

theorem flatMap_eq_append_cons {A B : Type} {l : List A} {b : A → List B} {done rest : List B} {e : B}
    (split : l.flatMap b = done ++ e :: rest) : ∃ l₁ a l₂ p q, l = l₁ ++ a :: l₂ ∧ b a = p ++ e :: q ∧
      done = l₁.flatMap b ++ p ∧ rest = q ++ l₂.flatMap b := by
  induction l generalizing done with
  | nil => simp at split
  | cons a l ih =>
    rw [List.flatMap_cons] at split
    have later {done' : List B} (first : done = b a ++ done') (split : l.flatMap b = done' ++ e :: rest) :
        ∃ l₁ a' l₂ p q, a :: l = l₁ ++ a' :: l₂ ∧ b a' = p ++ e :: q ∧ done = l₁.flatMap b ++ p ∧
          rest = q ++ l₂.flatMap b := by
      obtain ⟨l₁, a', l₂, p, q, rfl, own, rfl, rfl⟩ := ih split
      exact ⟨a :: l₁, a', l₂, p, q, rfl, own, by rw [first, List.flatMap_cons, List.append_assoc], rfl⟩
    rcases List.append_eq_append_iff.mp split with ⟨done', first, split⟩ | ⟨own, first, split⟩
    · exact later first split
    · cases own with
      | nil =>
        have all : done = b a ++ [] := by rw [first, List.append_nil, List.append_nil]
        exact later all split.symm
      | cons e' q =>
        obtain ⟨rfl, rfl⟩ := List.cons.inj split
        exact ⟨[], a, l, done, q, rfl, first, rfl, rfl⟩

namespace Schedule

/-- The key of a stage. -/
def keyAt (e : FuncId × Stage) : Key := ⟨.func e.1, e.2⟩

/-- All keys in the order in which a sweep settles them: stages consumers first, then buffers and params. -/
def keys (s : Schedule) : List Key := s.reversed.map keyAt ++ s.leaves.map fun t => ⟨t, .initial⟩

/-- The phase of a func after some stages were processed. -/
def phaseAfter (done : List (FuncId × Stage)) (f : FuncId) : Phase :=
  (done.filter (·.1 = f)).getLast?.elim .unvisited fun e => .after e.2

theorem phaseAfter_append (done : List (FuncId × Stage)) (f h : FuncId) (stage : Stage) :
    phaseAfter (done ++ [(f, stage)]) h = if f = h then Phase.after stage else phaseAfter done h := by
  unfold phaseAfter
  rw [List.filter_append, List.filter_singleton]
  by_cases same : f = h
  · rw [if_pos same, decide_eq_true same, cond_true, List.getLast?_append_of_ne_nil _ (List.cons_ne_nil _ _)]
    rfl
  · rw [if_neg same, decide_eq_false same, cond_false, List.append_nil]

theorem phaseAfter_of_not_mem {done : List (FuncId × Stage)} {f : FuncId} (none : ∀ e ∈ done, e.1 ≠ f) :
    phaseAfter done f = .unvisited := by
  unfold phaseAfter
  rw [List.filter_eq_nil_iff.mpr fun e mem => by simpa using none e mem]
  rfl

namespace Ordered

variable {κ : Type} {g : Graph κ} {s : Schedule} {done rest : List (FuncId × Stage)} {f h : FuncId} {stage : Stage}

theorem reversed_eq (ordered : s.Ordered g) : s.reversed =
    s.funcs.reverse.flatMap fun f => (Adjoints.stagesFrom (g.func f).updates.length).map fun stage => (f, stage) := by
  unfold reversed
  rw [ordered.stages, List.reverse_flatMap]
  refine List.flatMap_congr fun f mem => ?_
  have defined := ordered.defined f (List.mem_reverse.mp mem)
  rw [← Func.stages_reverse defined, List.map_reverse, List.map_map]
  rfl

/-- Where a stage stands in the walk: later stages of its func and all stages of consumers are done. -/
theorem split (ordered : s.Ordered g) (at' : s.reversed = done ++ (f, stage) :: rest) :
    ∃ consumers producers p q, s.funcs = producers ++ f :: consumers ∧
      Adjoints.stagesFrom (g.func f).updates.length = p ++ stage :: q ∧
      (∀ e ∈ done, e.1 ∈ consumers ∨ e.1 = f) ∧ done.filter (·.1 = f) = p.map (fun stage => (f, stage)) ∧
      (∀ stage ∈ q, (f, stage) ∈ rest) ∧ ∀ h ∈ producers, (h, (g.func h).lastStage) ∈ rest := by
  rw [ordered.reversed_eq] at at'
  obtain ⟨l₁, a, l₂, p, q, funcs, own, rfl, rfl⟩ := flatMap_eq_append_cons at'
  obtain ⟨p, q', stages, rfl, rest'⟩ := List.map_eq_append_iff.mp own
  obtain ⟨stage', q, rfl, same, rfl⟩ := List.map_eq_cons_iff.mp rest'
  obtain ⟨rfl, rfl⟩ := Prod.mk.inj same
  have reversed : s.funcs = l₂.reverse ++ a :: l₁.reverse := by
    rw [← List.reverse_reverse s.funcs, funcs, List.reverse_append, List.reverse_cons, List.append_assoc]
    rfl
  have distinct := ordered.nodup
  rw [reversed] at distinct
  have fresh : a ∉ l₁ := fun mem =>
    (List.nodup_cons.mp (List.nodup_append.mp distinct).2.1).1 (List.mem_reverse.mpr mem)
  refine ⟨l₁.reverse, l₂.reverse, p, q, reversed, stages, fun e mem => ?_, ?_, fun stage mem => ?_, fun h mem => ?_⟩
  · rcases List.mem_append.mp mem with mem | mem
    · obtain ⟨h, listed, stage, -, rfl⟩ := by simpa only [List.mem_flatMap, List.mem_map] using mem
      exact Or.inl (List.mem_reverse.mpr listed)
    · obtain ⟨stage, -, rfl⟩ := List.mem_map.mp mem
      exact Or.inr rfl
  · rw [List.filter_append, List.filter_eq_nil_iff.mpr, List.nil_append, List.filter_eq_self.mpr]
    · intro e mem
      obtain ⟨stage, -, rfl⟩ := List.mem_map.mp mem
      exact decide_eq_true rfl
    · intro e mem
      obtain ⟨h, listed, stage, -, rfl⟩ := by simpa only [List.mem_flatMap, List.mem_map] using mem
      exact fun same => fresh (of_decide_eq_true same ▸ listed)
  · exact List.mem_append_left _ (List.mem_map_of_mem mem)
  · refine List.mem_append_right _ (List.mem_flatMap.mpr ⟨h, List.mem_reverse.mp mem, List.mem_map_of_mem ?_⟩)
    exact List.mem_of_mem_head? (Adjoints.head?_stagesFrom _)

theorem nodup_reversed (ordered : s.Ordered g) : s.reversed.Nodup := by
  rw [ordered.reversed_eq]
  refine List.nodup_flatMap.mpr ⟨fun f _ => ?_, ?_⟩
  · exact (Adjoints.nodup_stagesFrom _).map fun _ _ same => (Prod.mk.inj same).2
  · refine (List.nodup_reverse.mpr ordered.nodup).imp fun {f h} other => ?_
    intro e left right
    obtain ⟨stage, -, rfl⟩ := List.mem_map.mp left
    obtain ⟨stage', -, same⟩ := List.mem_map.mp right
    exact other (Prod.mk.inj same).1.symm

theorem nodup_keys (ordered : s.Ordered g) : s.keys.Nodup := by
  refine List.Nodup.append (ordered.nodup_reversed.map ?_) (ordered.nodup_leaves.map ?_) ?_
  · intro e e' same
    obtain ⟨func, stage⟩ := Key.mk.inj same
    exact Prod.ext (Target.func.inj func) stage
  · exact fun t u same => (Key.mk.inj same).1
  · intro k left right
    obtain ⟨e, -, rfl⟩ := List.mem_map.mp left
    obtain ⟨t, leaf, same⟩ := List.mem_map.mp right
    obtain rfl := (Key.mk.inj same).1
    rcases List.mem_append.mp leaf with leaf | leaf
    · obtain ⟨b, -, same⟩ := List.mem_map.mp leaf
      cases same
    · obtain ⟨p, -, same⟩ := List.mem_map.mp leaf
      cases same

end Ordered

end Schedule

/-! ### The whole walk -/

namespace Sweep

variable {g : Graph κ} {s : Schedule} {x₀ x x' : Sweep κ} {done rest : List (FuncId × Stage)} {f : FuncId} {stage : Stage}

/-- Where a sweep stands after some stages. -/
structure Advanced (g : Graph κ) (x₀ : Sweep κ) (done rest : List (FuncId × Stage)) (leaves : List Target)
    (x : Sweep κ) : Prop where
  source : x.source = g
  phase (f : FuncId) : x.progress.phase f = Schedule.phaseAfter done f
  due : x₀.Due x (done.map Schedule.keyAt) (rest.map Schedule.keyAt ++ leaves.map fun t => ⟨t, .initial⟩)

/-- The next stage is in turn, and everything that it sends is in time. -/
theorem Advanced.process_meets (h : Advanced g x₀ done ((f, stage) :: rest) s.leaves x) (ordered : s.Ordered g)
    (at' : s.reversed = done ++ (f, stage) :: rest) :
    Meets (x.process f stage) fun y =>
      x.Processed f stage y ∧ Advanced g x₀ (done ++ [(f, stage)]) rest s.leaves y := by
  obtain ⟨consumers, producers, p, q, funcs, stages, doneFuncs, own, later, lasts⟩ := ordered.split at'
  obtain ⟨next, prev⟩ := Adjoints.next?_of_split stages
  have distinct := ordered.nodup
  rw [funcs] at distinct
  obtain ⟨-, -, apart⟩ := List.nodup_append.mp distinct
  have reads {d : Definition κ} (found : (g.func f).definition? stage = some d) {r : Partial κ}
      (mem : r ∈ d.value.partials) : s.Allows producers f stage r.read.target := by
    have listed : (stage, d) ∈ (g.func f).definitions := Func.mem_definitions.mpr found
    exact ordered.before producers f consumers funcs stage _
      ⟨d, listed, r.read, Definition.mem_reads_value (Expr.read_mem_of_mem_partials mem), rfl⟩
  have turn : (x.progress.phase f).next? (x.source.func f).lastStage = some stage := by
    rw [h.phase, h.source]
    unfold Schedule.phaseAfter
    rw [own, List.getLast?_map, Option.elim_map]
    exact next
  have awaits : ∀ d, (x.source.func f).definition? stage = some d → x.Awaits f d.value.partials := by
    intro d found r mem k target other
    rw [h.source] at found
    have before : k ∈ producers := by
      have allowed := reads found mem
      rw [target] at allowed
      exact allowed.resolve_right fun self => other self.1
    rw [h.phase, Schedule.phaseAfter_of_not_mem]
    intro e inside same
    rcases doneFuncs e inside with mem | self
    · exact apart k before e.1 (List.mem_cons_of_mem _ mem) same.symm
    · exact other (same.symm.trans self)
  refine (Sweep.process_meets turn awaits).mono fun y processed => ?_
  obtain ⟨keys, happens, sent⟩ := processed.happens
  refine ⟨processed, processed.source.trans h.source, fun k => ?_, ?_⟩
  · rw [processed.phase, Schedule.phaseAfter_append, h.phase]
  · rw [List.map_append]
    refine h.due.settle ?_ happens fun k mem => ?_
    · have all := ordered.nodup_keys
      unfold Schedule.keys at all
      rwa [at', List.map_append, List.append_assoc] at all
    · rw [h.source] at sent
      rcases sent k mem with ⟨prior, before, rfl⟩ | ⟨d, found, r, listed, other, rfl⟩
      · rw [← prev] at before
        exact List.mem_append_left _ (List.mem_map_of_mem (f := Schedule.keyAt)
          (later prior (List.mem_of_mem_head? before)))
      · have allowed := reads found listed
        generalize r.read.target = t at allowed other
        cases t with
        | func k =>
          have before := allowed.resolve_right fun self => other (congrArg Target.func self.1)
          exact List.mem_append_left _ (List.mem_map_of_mem (f := Schedule.keyAt) (lasts k before))
        | buffer b =>
          refine List.mem_append_right _ (List.mem_map.mpr ⟨.buffer b, ?_, rfl⟩)
          exact List.mem_append_left _ (List.mem_map_of_mem allowed)
        | param p =>
          refine List.mem_append_right _ (List.mem_map.mpr ⟨.param p, ?_, rfl⟩)
          exact List.mem_append_right _ (List.mem_map_of_mem allowed)

theorem Advanced.run_meets (ordered : s.Ordered g) {more : List (FuncId × Stage)}
    (h : Advanced g x₀ done (rest ++ more) s.leaves x) (at' : s.reversed = done ++ (rest ++ more)) :
    Meets (rest.foldlM (fun x (f, stage) => x.process f stage) x) (Advanced g x₀ (done ++ rest) more s.leaves) := by
  induction rest generalizing done x with
  | nil =>
    rw [List.append_nil]
    exact h
  | cons e rest ih =>
    obtain ⟨f, stage⟩ := e
    rw [List.foldlM_cons]
    refine (h.process_meets ordered at').bind fun x' advanced => ?_
    have next := ih advanced.2 (by rw [at', List.append_assoc]; rfl)
    rwa [List.append_assoc] at next

theorem Due.settleLeaves {keys : List Key} {leaves : List Target}
    (h : x₀.Due x keys (leaves.map fun t => ⟨t, .initial⟩))
    (distinct : (keys ++ leaves.map fun t => (⟨t, .initial⟩ : Key)).Nodup) :
    x₀.Due (leaves.foldl (fun x t => (x.settle ⟨t, .initial⟩).2) x) (keys ++ leaves.map fun t => ⟨t, .initial⟩) [] := by
  induction leaves generalizing keys x with
  | nil =>
    rw [List.map_nil, List.append_nil]
    exact h
  | cons t leaves ih =>
    have alone : x.Happens (.settled ⟨t, .initial⟩ :: ([] : List Key).map .sent) (x.settle ⟨t, .initial⟩).2 :=
      Happens.start.settle _
    have settled := h.settle distinct alone fun _ mem => absurd mem List.not_mem_nil
    have rest := ih settled (by rwa [List.append_assoc])
    rwa [List.append_assoc] at rest

theorem Due.terms_eq_nil {keys : List Key} (h : x₀.Due x keys []) : x.terms.entries = [] := by
  cases entries : x.terms.entries with
  | nil => rfl
  | cons e l =>
    have waits : x.terms.contains e.1 := by
      unfold Table.contains Table.get?
      rw [entries, List.find?_cons, decide_eq_true rfl]
      rfl
    exact nomatch h.waiting waits

theorem advanced_start {output : FuncId} {regions : Regions} (seed : ResolvedSeed κ) (ordered : s.Ordered g)
    (mem : output ∈ s.funcs) : Advanced g (start g regions) [] s.reversed s.leaves
      ((start g regions).addSeed output seed) := by
  refine ⟨rfl, fun f => rfl, ⟨_, Happens.start.send _ _, List.pairwise_singleton _ _, rfl⟩, fun {k} waits => ?_⟩
  have here : (⟨.func output, (g.func output).lastStage⟩ : Key) = k := by
    unfold addSeed at waits
    rw [contains_addTerm] at waits
    exact of_decide_eq_true ((Bool.or_eq_true _ _).mp waits |>.resolve_right Bool.false_ne_true)
  rw [← here]
  refine List.mem_append_left _ (List.mem_map.mpr ⟨(output, (g.func output).lastStage), ?_, rfl⟩)
  rw [ordered.reversed_eq]
  refine List.mem_flatMap.mpr ⟨output, List.mem_reverse.mpr mem, List.mem_map_of_mem ?_⟩
  exact List.mem_of_mem_head? (Adjoints.head?_stagesFrom _)

/-- Every part of the walk keeps to the order of the keys. -/
theorem meets_walk {output : FuncId} (resolved : ResolvedSeed κ) (regions : Regions) (order : g.schedule output = .ok s)
    (split : s.reversed = done ++ rest) :
    Meets (done.foldlM (fun x (f, stage) => x.process f stage) ((start g regions).addSeed output resolved))
      (Advanced g (start g regions) done rest s.leaves) := by
  obtain ⟨ordered, mem⟩ := Graph.ordered_schedule order
  have initial : Advanced g (start g regions) [] s.reversed s.leaves _ := advanced_start resolved ordered mem
  rw [split] at initial
  exact initial.run_meets ordered split

end Sweep

namespace Graph

variable {g : Graph κ} {output : FuncId} {seed : Seed κ}

/-- A stage out of order is never an error: seeds, schedules and regions have errors of their own, and the walk keeps to
the order. -/
theorem adjoints_ne_outOfOrder (name : Name) (stage : Stage) :
    g.adjoints output seed ≠ .error (.outOfOrder name stage) := by
  intro failed
  rcases bind_eq_error.mp failed with failed | ⟨_, -, failed⟩
  swap
  · cases failed
  unfold sweep at failed
  rcases bind_eq_error.mp failed with failed | ⟨resolved, -, failed⟩
  · obtain ⟨_, -, other⟩ := mapError_eq_error.mp failed
    cases other
  rcases bind_eq_error.mp failed with failed | ⟨s, order, failed⟩
  · obtain ⟨_, -, other⟩ := mapError_eq_error.mp failed
    cases other
  rcases bind_eq_error.mp failed with failed | ⟨regions, -, failed⟩
  · obtain ⟨_, -, other⟩ := mapError_eq_error.mp failed
    cases other
  rcases bind_eq_error.mp failed with failed | ⟨_, -, failed⟩
  · exact (Sweep.meets_walk resolved regions (mapError_eq_ok.mp order) (List.append_nil _).symm).of_error failed
  · cases failed

/-- With a seed, a schedule and regions, a sweep that succeeds ends when everything due has been settled. -/
theorem due_of_sweep {resolved : ResolvedSeed κ} {s : Schedule} {regions : Regions} {final : Sweep κ}
    (found : g.resolveSeed output seed = .ok resolved) (order : g.schedule output = .ok s)
    (inferred : g.inferRegions s output resolved.domain = .ok regions) (run : g.sweep output seed = .ok final) :
    (Sweep.start g regions).Due final s.keys [] := by
  obtain ⟨resolved', found', run⟩ := bind_eq_ok.mp run
  obtain rfl := Except.ok.inj (found.symm.trans (mapError_eq_ok.mp found'))
  obtain ⟨s', order', run⟩ := bind_eq_ok.mp run
  obtain rfl := Except.ok.inj (order.symm.trans (mapError_eq_ok.mp order'))
  obtain ⟨regions', inferred', run⟩ := bind_eq_ok.mp run
  obtain rfl := Except.ok.inj (inferred.symm.trans (mapError_eq_ok.mp inferred'))
  obtain ⟨x, swept, made⟩ := bind_eq_ok.mp run
  obtain rfl := pure_eq_ok.mp made
  have advanced := (Sweep.meets_walk resolved regions order (List.append_nil _).symm).of_ok swept
  exact advanced.due.settleLeaves (ordered_schedule order).1.nodup_keys

/-- No term comes late and none is lost or left over: differentiation never meets a stage out of order; at every point
of the walk all events so far were in time and have settled the keys of the stages so far, once each; after a stage
every contribution to what it reads waits under the key of what is read; and when the walk succeeds all keys are
settled, once each, all of them have funcs, and no term waits any more. -/
theorem sweep_settles_in_time (g : Graph κ) (output : FuncId) (seed : Seed κ) :
    (∀ name stage, g.adjoints output seed ≠ .error (.outOfOrder name stage)) ∧
    ∀ resolved s regions, g.resolveSeed output seed = .ok resolved → g.schedule output = .ok s →
      g.inferRegions s output resolved.domain = .ok regions →
      s.keys.Nodup ∧
      (∀ done rest x, s.reversed = done ++ rest →
        done.foldlM (fun x (f, stage) => x.process f stage) ((Sweep.start g regions).addSeed output resolved) = .ok x →
        (∃ events, (Sweep.start g regions).Happens events x ∧ Timely events ∧
          events.filterMap Event.settled? = done.map Schedule.keyAt) ∧
        ∀ f stage later y d, rest = (f, stage) :: later → x.process f stage = .ok y →
          (g.func f).definition? stage = some d →
          ∃ adjoint copy : FuncId, x.Delivers f d d.value.partials (.call adjoint d.lhs) copy y) ∧
      ∀ final, g.sweep output seed = .ok final →
        (∃ events, (Sweep.start g regions).Happens events final ∧ Timely events ∧
          events.filterMap Event.settled? = s.keys) ∧
        (∀ key ∈ s.keys, final.slots.contains key) ∧ final.terms.entries = [] := by
  refine ⟨adjoints_ne_outOfOrder, fun resolved s regions found order inferred => ?_⟩
  obtain ⟨ordered, -⟩ := ordered_schedule order
  refine ⟨ordered.nodup_keys, fun done rest x split run => ?_, fun final run => ?_⟩
  · have advanced := (Sweep.meets_walk resolved regions order split).of_ok run
    refine ⟨advanced.due.happens, ?_⟩
    rintro f stage later y d rfl processed found
    rw [← advanced.source] at found
    exact ((advanced.process_meets ordered split).of_ok processed).1.delivers found
  · have due := due_of_sweep found order inferred run
    obtain ⟨events, happens, timely, settled⟩ := due.happens
    refine ⟨⟨events, happens, timely, settled⟩, fun key mem => happens.settles (Sweep.mem_settled.mp ?_),
      due.terms_eq_nil⟩
    rw [settled]
    exact mem

end Graph

end ArrayDiff
