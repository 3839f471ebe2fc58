import ArrayDiff.Proofs.Walk

/-!
# Stages in turn

Whatever a progress is asked, about any funcs and in any order, it begins the stages of every func from the last one to
the initial one, and lets others contribute to a func before the first of them only. What is refused changes nothing,
and no func is concerned by what is asked about another one (`Progress.enforces_turns`).
-/

namespace ArrayDiff

variable {κ : Type}

/-- What a progress can be asked. -/
inductive Request where
  /-- To begin a stage of a func. -/
  | begin (f : FuncId) (stage : Stage)
  /-- To let another func contribute to a func. -/
  | accept (f : FuncId)

/-- The func that a request is about. -/
def Request.func : Request → FuncId
  | begin f _ => f
  | accept f => f

/-- The phase of a func of which these stages were begun. -/
def Phase.following (begun : List Stage) : Phase := begun.getLast?.elim unvisited after

namespace Progress

/-- The answer to a request, and the progress after it. -/
def perform (g : Graph κ) (p : Progress) : Request → Except DiffError Unit × Progress
  | .begin f stage =>
    match p.begin g f stage with
    | .ok p' => (.ok (), p')
    | .error e => (.error e, p)
  | .accept f => (p.accept g f, p)

/-- The answers to requests that are made one after the other. -/
def answers (g : Graph κ) : Progress → List Request → List (Request × Except DiffError Unit)
  | _, [] => []
  | p, r :: rest => (r, (p.perform g r).1) :: answers g (p.perform g r).2 rest

/-- The progress after requests that are made one after the other. -/
def performAll (g : Graph κ) (p : Progress) (requests : List Request) : Progress :=
  requests.foldl (fun p r => (p.perform g r).2) p

/-- The stages of `f` that were begun, by the answers to all requests. -/
def begun (f : FuncId) (answered : List (Request × Except DiffError Unit)) : List Stage :=
  answered.filterMap fun
    | (.begin h stage, .ok _) => if h = f then some stage else none
    | _ => none

/-- What a progress does about `f` once some of its stages are begun: these are the first ones of the walk from the last
stage to the initial one, the next one of them is the only one that can be begun, and others can contribute as long as
there are none. -/
structure InTurn (g : Graph κ) (f : FuncId) (begun : List Stage) (p : Progress) : Prop where
  order : begun <+: Adjoints.stagesFrom (g.func f).updates.length
  once : begun.Nodup
  phase : p.phase f = .following begun
  begins (stage : Stage) : (p.perform g (.begin f stage)).1 =
    if begun ++ [stage] <+: Adjoints.stagesFrom (g.func f).updates.length then .ok ()
    else .error (.outOfOrder (g.func f).name stage)
  accepts : (p.perform g (.accept f)).1 =
    if begun = [] then .ok () else .error (.outOfOrder (g.func f).name (g.func f).lastStage)

variable {g : Graph κ} {p q : Progress} {f : FuncId} {r : Request} {b : List Stage} {stage : Stage}

/-! ### One request -/

theorem perform_begin (g : Graph κ) (p : Progress) (f : FuncId) (stage : Stage) : p.perform g (.begin f stage) =
    if (p.phase f).next? (g.func f).lastStage = some stage then (.ok (), ⟨p.phases.insert f (.after stage)⟩)
    else (.error (.outOfOrder (g.func f).name stage), p) := by
  unfold perform begin
  by_cases turn : (p.phase f).next? (g.func f).lastStage = some stage
  · simp only [if_pos turn]
    rfl
  · simp only [if_neg turn]
    rfl

theorem perform_accept (g : Graph κ) (p : Progress) (f : FuncId) : p.perform g (.accept f) =
    (if p.phase f = .unvisited then .ok () else .error (.outOfOrder (g.func f).name (g.func f).lastStage), p) :=
  rfl

theorem perform_refused {e : DiffError} (refused : (p.perform g r).1 = .error e) : (p.perform g r).2 = p := by
  cases r with
  | begin f stage =>
    rw [perform_begin] at refused ⊢
    split at refused
    · cases refused
    · rename_i late
      rw [if_neg late]
  | accept f => rfl

theorem phase_perform_of_ne (other : r.func ≠ f) : (p.perform g r).2.phase f = p.phase f := by
  cases r with
  | begin h stage =>
    have other : h ≠ f := other
    rw [perform_begin]
    split
    · rw [phase_insert, if_neg other]
    · rfl
  | accept h => rfl

/-- What comes of a request depends on the phase of its func only. -/
theorem perform_congr (same : p.phase r.func = q.phase r.func) :
    (p.perform g r).1 = (q.perform g r).1 ∧ (p.perform g r).2.phase r.func = (q.perform g r).2.phase r.func := by
  cases r with
  | begin f stage =>
    have same : p.phase f = q.phase f := same
    rw [perform_begin, perform_begin, same]
    split
    · refine ⟨rfl, ?_⟩
      change Progress.phase ⟨_⟩ f = Progress.phase ⟨_⟩ f
      rw [phase_insert, phase_insert, if_pos rfl, if_pos rfl]
    · exact ⟨rfl, same⟩
  | accept f =>
    have same : p.phase f = q.phase f := same
    rw [perform_accept, perform_accept, same]
    exact ⟨rfl, same⟩

/-! ### Requests one after the other -/

theorem performAll_append (g : Graph κ) (p : Progress) (requests : List Request) (r : Request) :
    p.performAll g (requests ++ [r]) = ((p.performAll g requests).perform g r).2 := by
  simp only [performAll, List.foldl_append, List.foldl_cons, List.foldl_nil]

theorem answers_append (g : Graph κ) (p : Progress) (requests : List Request) (r : Request) :
    p.answers g (requests ++ [r]) = p.answers g requests ++ [(r, ((p.performAll g requests).perform g r).1)] := by
  induction requests generalizing p with
  | nil => rfl
  | cons first rest ih =>
    rw [List.cons_append, answers, answers, ih, List.cons_append]
    rfl

theorem performAll_filter (g : Graph κ) (p : Progress) (f : FuncId) (requests : List Request) :
    (p.performAll g requests).phase f = (p.performAll g (requests.filter (·.func = f))).phase f ∧
      (p.answers g requests).filter (·.1.func = f) = p.answers g (requests.filter (·.func = f)) := by
  induction requests using List.reverseRecOn with
  | nil => exact ⟨rfl, rfl⟩
  | append_singleton requests r ih =>
    obtain ⟨phase, answered⟩ := ih
    rw [performAll_append, answers_append, List.filter_append, List.filter_append, answered]
    by_cases own : r.func = f
    · subst own
      obtain ⟨answer, next⟩ := perform_congr (g := g) phase
      rw [List.filter_singleton, List.filter_singleton, decide_eq_true rfl, cond_true, cond_true, performAll_append,
        answers_append, answer]
      exact ⟨next, rfl⟩
    · rw [List.filter_singleton, List.filter_singleton, decide_eq_false own, cond_false, cond_false, List.append_nil,
        List.append_nil, phase_perform_of_ne own]
      exact ⟨phase, rfl⟩

/-! ### The walk over one func -/

theorem following_append (b : List Stage) (stage : Stage) : Phase.following (b ++ [stage]) = .after stage := by
  rw [Phase.following, List.getLast?_concat]
  rfl

theorem following_eq_unvisited : Phase.following b = .unvisited ↔ b = [] := by
  refine ⟨fun start => ?_, fun none => none ▸ rfl⟩
  induction b using List.reverseRecOn with
  | nil => rfl
  | append_singleton b stage =>
    rw [following_append] at start
    cases stage <;> cases start

theorem getLast?_stagesFrom (n : Nat) : (Adjoints.stagesFrom n).getLast? = some .initial := by
  induction n with
  | zero => rfl
  | succ n ih => rw [Adjoints.stagesFrom, List.getLast?_cons, ih, Option.getD_some]

/-- A stage comes next exactly when it goes on with the walk. -/
theorem next?_following {n : Nat} (order : b <+: Adjoints.stagesFrom n) :
    (Phase.following b).next? (.last n) = some stage ↔ b ++ [stage] <+: Adjoints.stagesFrom n := by
  constructor
  · intro turn
    obtain ⟨rest, split⟩ := order
    cases rest with
    | nil =>
      -- nothing comes after the initial stage
      have done : b.getLast? = some .initial := by rw [← getLast?_stagesFrom n, ← split, List.append_nil]
      rw [Phase.following, done] at turn
      cases turn
    | cons next rest =>
      have expected : (Phase.following b).next? (.last n) = some next := (Adjoints.next?_of_split split.symm).1
      obtain rfl := Option.some.inj (expected.symm.trans turn)
      exact ⟨rest, by rw [← split, List.append_assoc]; rfl⟩
  · rintro ⟨rest, split⟩
    rw [List.append_assoc] at split
    exact (Adjoints.next?_of_split split.symm).1

theorem inTurn_of_phase (order : b <+: Adjoints.stagesFrom (g.func f).updates.length)
    (phase : p.phase f = .following b) : p.InTurn g f b where
  order := order
  once := order.sublist.nodup (Adjoints.nodup_stagesFrom _)
  phase := phase
  begins stage := by
    have turn : _ = some stage ↔ _ := next?_following order
    rw [perform_begin, phase, Func.lastStage]
    by_cases next : b ++ [stage] <+: Adjoints.stagesFrom (g.func f).updates.length
    · rw [if_pos (turn.mpr next), if_pos next]
    · rw [if_neg (mt turn.mp next), if_neg next]
  accepts := by
    rw [perform_accept, phase]
    simp only [following_eq_unvisited]

theorem begun_append (f : FuncId) (answered : List (Request × Except DiffError Unit))
    (e : Request × Except DiffError Unit) : begun f (answered ++ [e]) = begun f answered ++ begun f [e] :=
  List.filterMap_append

theorem begun_begin (f : FuncId) (stage : Stage) : begun f [(.begin f stage, .ok ())] = [stage] := by
  simp [begun]

theorem begun_refused (f : FuncId) (r : Request) (e : DiffError) : begun f [(r, .error e)] = [] := by
  cases r <;> rfl

theorem begun_of_ne (other : r.func ≠ f) (answer : Except DiffError Unit) : begun f [(r, answer)] = [] := by
  cases r with
  | begin h stage =>
    have other : h ≠ f := other
    cases answer <;> simp [begun, other]
  | accept h => rfl

/-- A stage that is begun in turn is counted; any other is refused, and all stays as it is. -/
theorem InTurn.begin (h : p.InTurn g f b) (stage : Stage) : (p.perform g (.begin f stage)).2.InTurn g f
    (b ++ begun f [(.begin f stage, (p.perform g (.begin f stage)).1)]) := by
  by_cases next : b ++ [stage] <+: Adjoints.stagesFrom (g.func f).updates.length
  · have performed := perform_begin g p f stage
    rw [h.phase, Func.lastStage, if_pos ((next?_following h.order).mpr next)] at performed
    rw [performed, begun_begin]
    refine inTurn_of_phase next ?_
    rw [phase_insert, if_pos rfl, following_append]
  · have answer := h.begins stage
    rw [if_neg next] at answer
    rw [perform_refused answer, answer, begun_refused, List.append_nil]
    exact h

theorem InTurn.perform (h : p.InTurn g f b) (r : Request) :
    (p.perform g r).2.InTurn g f (b ++ begun f [(r, (p.perform g r).1)]) := by
  by_cases own : r.func = f
  · cases r with
    | begin k stage =>
      obtain rfl : k = f := own
      exact h.begin stage
    | accept k =>
      have none : begun f [(.accept k, (p.perform g (.accept k)).1)] = [] := rfl
      rw [none, List.append_nil]
      exact h
  · rw [begun_of_ne own, List.append_nil]
    exact inTurn_of_phase h.order ((phase_perform_of_ne own).trans h.phase)

theorem inTurn_performAll (g : Graph κ) (f : FuncId) (requests : List Request) :
    (performAll g {} requests).InTurn g f (begun f (answers g {} requests)) := by
  induction requests using List.reverseRecOn with
  | nil => exact inTurn_of_phase List.nil_prefix rfl
  | append_singleton requests r ih =>
    rw [performAll_append, answers_append, begun_append]
    exact ih.perform r

/-- In every session each func is walked in turn, whatever is refused leaves the progress as it is, and what becomes of
a func is the same without the requests about others. -/
theorem enforces_turns (g : Graph κ) (requests : List Request) :
    (∀ f, (performAll g {} requests).InTurn g f (begun f (answers g {} requests))) ∧
      (∀ r e, ((performAll g {} requests).perform g r).1 = .error e →
        ((performAll g {} requests).perform g r).2 = performAll g {} requests) ∧
      ∀ f, (performAll g {} requests).phase f = (performAll g {} (requests.filter (·.func = f))).phase f ∧
        (answers g {} requests).filter (·.1.func = f) = answers g {} (requests.filter (·.func = f)) :=
  ⟨fun f => inTurn_performAll g f requests, fun _ _ refused => perform_refused refused,
    fun f => performAll_filter g {} f requests⟩

end Progress

end ArrayDiff
