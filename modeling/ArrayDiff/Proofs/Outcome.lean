import Mathlib.Data.List.Forall2

/-!
# Successful computations

What it means for a computation that can fail to succeed: a sequence succeeds when all of its parts do, and a loop that
succeeds keeps every invariant of its step.
-/

namespace ArrayDiff

variable {ε A B S : Type}

theorem bind_eq_ok {c : Except ε A} {k : A → Except ε B} {b : B} :
    c >>= k = .ok b ↔ ∃ a, c = .ok a ∧ k a = .ok b := by
  cases c with
  | error e => simp [bind, Except.bind]
  | ok a => simp [bind, Except.bind]

theorem pure_eq_ok {a b : A} : (pure a : Except ε A) = .ok b ↔ a = b := by simp [pure, Except.pure]

theorem bind_eq_error {c : Except ε A} {k : A → Except ε B} {e : ε} :
    c >>= k = .error e ↔ c = .error e ∨ ∃ a, c = .ok a ∧ k a = .error e := by
  cases c with
  | error e' => simp [bind, Except.bind]
  | ok a => simp [bind, Except.bind]

theorem mapError_eq_ok {ε' : Type} {c : Except ε A} {f : ε → ε'} {a : A} : c.mapError f = .ok a ↔ c = .ok a := by
  cases c <;> simp [Except.mapError]

theorem mapError_eq_error {ε' : Type} {c : Except ε A} {f : ε → ε'} {e : ε'} :
    c.mapError f = .error e ↔ ∃ e', c = .error e' ∧ f e' = e := by
  cases c <;> simp [Except.mapError]

theorem toOption_eq_some {c : Except ε A} {a : A} : c.toOption = some a ↔ c = .ok a := by
  cases c <;> simp [Except.toOption]

/-- A loop that succeeds keeps what every step keeps; `done` is the part of the list that was gone through. -/
theorem foldlM_invariant {f : S → A → Except ε S} {l : List A} {s s' : S} (run : l.foldlM f s = .ok s')
    (inv : List A → S → Prop) (start : inv [] s)
    (step : ∀ done a rest t t', l = done ++ a :: rest → inv done t → f t a = .ok t' → inv (done ++ [a]) t') :
    inv l s' := by
  suffices general : ∀ done rest t, l = done ++ rest → inv done t → rest.foldlM f t = .ok s' → inv l s' from
    general [] l s rfl start run
  intro done rest
  induction rest generalizing done with
  | nil =>
    intro t split h run
    obtain rfl := pure_eq_ok.mp run
    rwa [split, List.append_nil]
  | cons a rest ih =>
    intro t split h run
    rw [List.foldlM_cons] at run
    obtain ⟨t', first, run⟩ := bind_eq_ok.mp run
    exact ih (done ++ [a]) t' (by rw [split, List.append_assoc]; rfl) (step done a rest t t' split h first) run

theorem foldlM_preserves {f : S → A → Except ε S} {l : List A} {s t : S} (run : l.foldlM f s = .ok t) (inv : S → Prop)
    (start : inv s) (step : ∀ a ∈ l, ∀ s s', inv s → f s a = .ok s' → inv s') : inv t := by
  refine foldlM_invariant run (fun _ => inv) start ?_
  rintro done a rest s s' split before run
  exact step a (split ▸ List.mem_append_right _ List.mem_cons_self) s s' before run

theorem mapM_eq_ok {f : A → Except ε B} {l : List A} {bs : List B} (run : l.mapM f = .ok bs) :
    List.Forall₂ (fun a b => f a = .ok b) l bs := by
  induction l generalizing bs with
  | nil =>
    rw [List.mapM_nil] at run
    obtain rfl := pure_eq_ok.mp run
    exact List.Forall₂.nil
  | cons a l ih =>
    rw [List.mapM_cons] at run
    obtain ⟨b, first, run⟩ := bind_eq_ok.mp run
    obtain ⟨rest, second, run⟩ := bind_eq_ok.mp run
    obtain rfl := pure_eq_ok.mp run
    exact List.Forall₂.cons first (ih second)

theorem mapM_of_forall₂ {f : A → Except ε B} {l : List A} {bs : List B}
    (each : List.Forall₂ (fun a b => f a = .ok b) l bs) : l.mapM f = .ok bs := by
  induction each with
  | nil => rfl
  | cons first _ ih =>
    rw [List.mapM_cons, first, ih]
    rfl

theorem eq_map_of_forall₂ {f : A → B} {l : List A} {bs : List B} (each : List.Forall₂ (fun a b => f a = b) l bs) :
    bs = l.map f := by
  have same : List.Forall₂ Eq (l.map f) bs := List.forall₂_map_left_iff.mpr each
  rw [List.forall₂_eq_eq_eq] at same
  exact same.symm

theorem exists_of_mem_mapM {f : A → Except ε B} {l : List A} {bs : List B} (run : l.mapM f = .ok bs) {b : B}
    (mem : b ∈ bs) : ∃ a ∈ l, f a = .ok b := by
  have each := mapM_eq_ok run
  obtain ⟨i, less, rfl⟩ := List.mem_iff_getElem.mp mem
  have inside : i < l.length := each.length_eq ▸ less
  exact ⟨l[i], List.getElem_mem inside, (List.forall₂_iff_get.mp each).2 i inside less⟩

theorem exists_bind_ok {c : Except ε A} {k : A → Except ε B} {a : A} {P : B → Prop} (first : c = .ok a)
    (rest : ∃ b, k a = .ok b ∧ P b) : ∃ b, c >>= k = .ok b ∧ P b := by
  obtain ⟨b, second, held⟩ := rest
  exact ⟨b, bind_eq_ok.mpr ⟨a, first, second⟩, held⟩

theorem foldlM_succeeds {f : S → A → Except ε S} {l : List A} {s : S} (inv : S → Prop) (start : inv s)
    (step : ∀ a ∈ l, ∀ s, inv s → ∃ t, f s a = .ok t ∧ inv t) : ∃ t, l.foldlM f s = .ok t ∧ inv t := by
  induction l generalizing s with
  | nil => exact ⟨s, rfl, start⟩
  | cons a l ih =>
    obtain ⟨t, first, kept⟩ := step a List.mem_cons_self s start
    obtain ⟨t', rest, kept'⟩ := ih kept fun b mem => step b (List.mem_cons_of_mem _ mem)
    exact ⟨t', by rw [List.foldlM_cons, first]; exact rest, kept'⟩

theorem foldlM_follows {S' : Type} {f : S → A → Except ε S} {f' : S' → A → Except ε S'} {l : List A} {s : S}
    {s' t' : S'} (R : S → S' → Prop) (run : l.foldlM f' s' = .ok t') (start : R s s')
    (step : ∀ a ∈ l, ∀ s s' t', R s s' → f' s' a = .ok t' → ∃ t, f s a = .ok t ∧ R t t') :
    ∃ t, l.foldlM f s = .ok t ∧ R t t' := by
  induction l generalizing s s' with
  | nil =>
    obtain rfl := pure_eq_ok.mp run
    exact ⟨s, rfl, start⟩
  | cons a l ih =>
    rw [List.foldlM_cons] at run
    obtain ⟨x', first', run⟩ := bind_eq_ok.mp run
    obtain ⟨x, first, kept⟩ := step a List.mem_cons_self s s' x' start first'
    obtain ⟨t, rest, kept'⟩ := ih run kept fun b mem => step b (List.mem_cons_of_mem _ mem)
    exact ⟨t, by rw [List.foldlM_cons, first]; exact rest, kept'⟩

theorem foldlM_isOk {f : S → A → Except ε S} {l : List A} (step : ∀ a ∈ l, ∀ s, ∃ s', f s a = .ok s') (s : S) :
    ∃ s', l.foldlM f s = .ok s' := by
  obtain ⟨s', run, -⟩ := foldlM_succeeds (fun _ => True) trivial fun a mem s _ => by
    obtain ⟨t, first⟩ := step a mem s
    exact ⟨t, first, trivial⟩
  exact ⟨s', run⟩

theorem mapM_isOk {f : A → Except ε B} {l : List A} (each : ∀ a ∈ l, ∃ b, f a = .ok b) : ∃ bs, l.mapM f = .ok bs := by
  induction l with
  | nil => exact ⟨[], rfl⟩
  | cons a l ih =>
    obtain ⟨b, first⟩ := each a List.mem_cons_self
    obtain ⟨bs, rest⟩ := ih fun a mem => each a (List.mem_cons_of_mem _ mem)
    exact ⟨b :: bs, by rw [List.mapM_cons, first, rest]; rfl⟩

/-! ### Failures -/

theorem exists_of_mapM_error {f : A → Except ε B} {l : List A} {e : ε} (run : l.mapM f = .error e) :
    ∃ a ∈ l, f a = .error e := by
  induction l with
  | nil => cases run
  | cons a l ih =>
    rw [List.mapM_cons] at run
    rcases bind_eq_error.mp run with failed | ⟨b, -, run⟩
    · exact ⟨a, List.mem_cons_self, failed⟩
    rcases bind_eq_error.mp run with failed | ⟨bs, -, run⟩
    · obtain ⟨a', mem, failed⟩ := ih failed
      exact ⟨a', List.mem_cons_of_mem a mem, failed⟩
    · cases run

theorem exists_of_foldlM_error {f : S → A → Except ε S} {l : List A} {s : S} {e : ε} (run : l.foldlM f s = .error e)
    (inv : S → Prop) (start : inv s) (step : ∀ a ∈ l, ∀ s s', inv s → f s a = .ok s' → inv s') :
    ∃ a ∈ l, ∃ s, inv s ∧ f s a = .error e := by
  induction l generalizing s with
  | nil => cases run
  | cons a l ih =>
    rw [List.foldlM_cons] at run
    rcases bind_eq_error.mp run with failed | ⟨s', first, run⟩
    · exact ⟨a, List.mem_cons_self, s, start, failed⟩
    · obtain ⟨b, mem, t, held, failed⟩ := ih run (step a List.mem_cons_self s s' start first)
        fun b mem => step b (List.mem_cons_of_mem a mem)
      exact ⟨b, List.mem_cons_of_mem a mem, t, held, failed⟩

/-! ### Equal steps -/

theorem bind_congr_ok {c : Except ε A} {k k' : A → Except ε B} (same : ∀ a, c = .ok a → k a = k' a) :
    c >>= k = c >>= k' := by
  cases c with
  | error e => rfl
  | ok a => exact same a rfl

section Congruence

variable {m : Type → Type} [Monad m] {l : List A}

theorem foldlM_congr {f f' : S → A → m S} (same : ∀ a ∈ l, ∀ s, f s a = f' s a) (s : S) :
    l.foldlM f s = l.foldlM f' s := by
  induction l generalizing s with
  | nil => rfl
  | cons a l ih =>
    rw [List.foldlM_cons, List.foldlM_cons, same a List.mem_cons_self]
    exact congrArg _ (funext fun s => ih (fun b mem => same b (List.mem_cons_of_mem a mem)) s)

theorem forM_congr {f f' : A → m PUnit} (same : ∀ a ∈ l, f a = f' a) : l.forM f = l.forM f' := by
  induction l with
  | nil => rfl
  | cons a l ih =>
    change (f a >>= fun _ => l.forM f) = (f' a >>= fun _ => l.forM f')
    rw [same a List.mem_cons_self, ih fun b mem => same b (List.mem_cons_of_mem a mem)]

end Congruence

end ArrayDiff
