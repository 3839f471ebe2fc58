import Std.Data.String.ToNat
import ArrayDiff.Proofs.Extending

/-!
# Names

Whatever is built and differentiated, the funcs, buffers and params of a graph have names of their own, so that a name
leads back to its target. A fresh name is found after as many tries as there are names, since no two of the names that
are tried agree (`Graph.names_unique`).
-/

namespace ArrayDiff

variable {κ : Type}

namespace Graph

/-- The names in use, in the order in which a lookup goes through them. -/
def names (g : Graph κ) : List Name := g.funcs.toList.map (·.name) ++ g.buffers.toList.map (·.name) ++ g.params.toList

/-- The names that are tried in search of a fresh one. -/
def candidate (g : Graph κ) (base : Name) : Nat → Name
  | 0 => base
  | n + 1 => s!"{base}${g.counter + n + 1}"

/-- No name is used twice, and the name of a target leads back to it. -/
structure Named (g : Graph κ) : Prop where
  distinct : g.names.Nodup
  lookup (t : Target) (name : Name) : g.nameOf? t = some name → g.lookup? name = some t

/-- A call that builds a graph, or that differentiates it and goes on with the result. -/
inductive Command (κ : Type) where
  | addFunc (name : Name) (args : List Name)
  | addBuffer (name : Name) (domain : Domain)
  | addParam (name : Name)
  | define (f : FuncId) (value : Expr κ)
  | update (f : FuncId) (d : Definition κ)
  | setEstimate (f : FuncId) (domain : Domain)
  | adjoints (output : FuncId) (seed : Seed κ)
  | tangents (output : FuncId) (directions : List (Name × FuncId))

/-- The graph that a command leads to, unless it is refused. -/
def result? [Extended κ] (g : Graph κ) : Command κ → Option (Graph κ)
  | .addFunc name args => (g.addFunc name args).toOption.map (·.2)
  | .addBuffer name domain => (g.addBuffer name domain).toOption.map (·.2)
  | .addParam name => (g.addParam name).toOption.map (·.2)
  | .define f value => (g.define f value).toOption
  | .update f d => (g.update f d).toOption
  | .setEstimate f domain => (g.setEstimate f domain).toOption
  | .adjoints output seed => (g.adjoints output seed).toOption.map (·.graph)
  | .tangents output directions => (g.tangents output directions).toOption.map (·.graph)

/-- One command after another, from the graph without names; a refused one leaves the graph as it is. -/
def session [Extended κ] (commands : List (Command κ)) : Graph κ :=
  commands.foldl (fun g c => (g.result? c).getD g) {}

variable {g g' : Graph κ} {name base : Name} {f : FuncId}

/-! ### Lookups -/

section Search

variable {A : Type} (xs : Array A) (key : A → Name)

theorem findIdx?_eq_none : xs.findIdx? (fun a => key a = name) = none ↔ name ∉ xs.toList.map key := by
  rw [Array.findIdx?_eq_none_iff]
  simp

theorem findIdx?_of_nodup (distinct : (xs.toList.map key).Nodup) {i : Nat} (found : xs[i]?.map key = some name) :
    xs.findIdx? (fun a => key a = name) = some i := by
  obtain ⟨a, at', rfl⟩ := Option.map_eq_some_iff.mp found
  obtain ⟨inside, rfl⟩ := Array.getElem?_eq_some_iff.mp at'
  refine Array.findIdx?_eq_some_iff_getElem.mpr ⟨inside, decide_eq_true rfl, fun j less same => ?_⟩
  refine List.nodup_iff_getElem?_ne_getElem?.mp distinct j i less (by simpa using inside) ?_
  simpa [inside, less.trans inside] using same

end Search

theorem lookup?_eq_none : g.lookup? name = none ↔ name ∉ g.names := by
  have params : g.params.findIdx? (fun p => p = name) = none ↔ name ∉ g.params.toList := by
    have searched : g.params.findIdx? (fun p => id p = name) = none ↔ _ := findIdx?_eq_none g.params id
    rwa [List.map_id] at searched
  unfold names lookup?
  rw [List.mem_append, List.mem_append, not_or, not_or, ← findIdx?_eq_none g.funcs, ← findIdx?_eq_none g.buffers,
    ← params]
  cases g.funcs.findIdx? fun f => f.name = name <;> cases g.buffers.findIdx? fun b => b.name = name <;> simp

theorem lookup?_of_nameOf? (distinct : g.names.Nodup) {t : Target} (named : g.nameOf? t = some name) :
    g.lookup? name = some t := by
  obtain ⟨declared, params, apart⟩ := List.nodup_append.mp distinct
  obtain ⟨funcs, buffers, apart'⟩ := List.nodup_append.mp declared
  cases t with
  | func f =>
    unfold lookup?
    rw [findIdx?_of_nodup g.funcs _ funcs named]
  | buffer b =>
    have used : name ∈ g.buffers.toList.map (·.name) := by
      obtain ⟨buffer, at', rfl⟩ := Option.map_eq_some_iff.mp named
      exact List.mem_map_of_mem (Array.mem_toList_iff.mpr (Array.mem_of_getElem? at'))
    have other : name ∉ g.funcs.toList.map (·.name) := fun mem => apart' _ mem _ used rfl
    unfold lookup?
    rw [(findIdx?_eq_none g.funcs _).mpr other, findIdx?_of_nodup g.buffers _ buffers named]
  | param p =>
    have used : name ∈ g.params.toList := Array.mem_toList_iff.mpr (Array.mem_of_getElem? named)
    have other : name ∉ g.funcs.toList.map (·.name) :=
      fun mem => apart _ (List.mem_append_left _ mem) _ used rfl
    have other' : name ∉ g.buffers.toList.map (·.name) :=
      fun mem => apart _ (List.mem_append_right _ mem) _ used rfl
    have found : g.params.findIdx? (fun p => p = name) = some p.index :=
      findIdx?_of_nodup g.params id (by rwa [List.map_id]) (by rwa [Option.map_id])
    unfold lookup?
    rw [(findIdx?_eq_none g.funcs _).mpr other, (findIdx?_eq_none g.buffers _).mpr other']
    dsimp only
    rw [found]
    rfl

/-! ### Fresh names -/

theorem length_names (g : Graph κ) : g.names.length = g.nameCount := by
  simp [names, nameCount, Nat.add_assoc]

theorem candidate_injective (g : Graph κ) (base : Name) : Function.Injective (g.candidate base) := by
  have longer (n : Nat) : base ≠ g.candidate base (n + 1) := by
    intro same
    have mark : "$".length = 1 := rfl
    have lengths := congrArg String.length same
    simp only [candidate, String.length_append] at lengths
    change base.length = base.length + "$".length + _ at lengths
    omega
  intro n m same
  match n, m with
  | 0, 0 => rfl
  | 0, m + 1 => exact absurd same (longer m)
  | n + 1, 0 => exact absurd same.symm (longer n)
  | n + 1, m + 1 =>
    have digits : (toString (g.counter + n + 1)).toList = (toString (g.counter + m + 1)).toList := by
      simpa [candidate, String.ext_iff] using same
    have numbers := Nat.repr_injective (String.toList_inj.mp digits)
    omega

/-- The search goes through candidates in use and stops at one that is not, unless it runs out of tries. -/
theorem unusedName_candidate (g : Graph κ) (base : Name) (tries n : Nat) :
    ∃ m ≤ tries, (∀ k, n ≤ k → k < n + m → g.candidate base k ∈ g.names) ∧
      (g.candidate base (n + m) ∉ g.names ∨ m = tries) ∧
      g.unusedName base tries (g.counter + n) (g.candidate base n) =
        (g.candidate base (n + m), g.counter + (n + m)) := by
  induction tries generalizing n with
  | zero => exact ⟨0, le_refl 0, fun k low high => by omega, Or.inr rfl, rfl⟩
  | succ tries ih =>
    unfold unusedName
    split
    · rename_i unused
      exact ⟨0, Nat.zero_le _, fun k low high => by omega,
        Or.inl (lookup?_eq_none.mp (Option.isNone_iff_eq_none.mp unused)), rfl⟩
    · rename_i used
      have used : g.candidate base n ∈ g.names := by
        by_contra unused
        exact used (Option.isNone_iff_eq_none.mpr (lookup?_eq_none.mpr unused))
      obtain ⟨m, less, before, final, search⟩ := ih (n + 1)
      rw [Nat.add_right_comm] at before final search
      refine ⟨m + 1, Nat.succ_le_succ less, fun k low high => ?_, final.imp id (congrArg (· + 1)), search⟩
      rcases low.eq_or_lt with rfl | later
      · exact used
      · exact before k later high

theorem freshName_candidate (g : Graph κ) (base : Name) :
    ∃ tries ≤ g.nameCount, (∀ k < tries, g.candidate base k ∈ g.names) ∧ g.candidate base tries ∉ g.names ∧
      g.freshName base = (g.candidate base tries, { g with counter := g.counter + tries }) := by
  obtain ⟨tries, less, before, final, search⟩ := g.unusedName_candidate base g.nameCount 0
  rw [Nat.zero_add] at before final search
  refine ⟨tries, less, fun k => before k (Nat.zero_le k), fun used => ?_, ?_⟩
  · -- All candidates up to this one would be in use, and these are more than there are names.
    obtain rfl := final.resolve_left (not_not.mpr used)
    have all : (List.range (g.nameCount + 1)).map (g.candidate base) ⊆ g.names := by
      intro tried mem
      obtain ⟨k, below, rfl⟩ := List.mem_map.mp mem
      rcases (Nat.lt_succ_iff.mp (List.mem_range.mp below)).eq_or_lt with rfl | less
      · exact used
      · exact before k (Nat.zero_le k) less
    have count := (List.nodup_range.map (g.candidate_injective base)).length_le_of_subset all
    rw [List.length_map, List.length_range, length_names] at count
    exact absurd count (Nat.not_succ_le_self _)
  · unfold freshName
    rw [show g.unusedName base g.nameCount g.counter base = _ from search]

/-! ### Steps -/

theorem names_push (g : Graph κ) (f : Func κ) : (g.push f).2.names.Perm (f.name :: g.names) := by
  unfold names push
  simp only [Array.toList_push, List.map_append, List.map_cons, List.map_nil, List.append_assoc, List.cons_append,
    List.nil_append]
  exact List.perm_middle

theorem names_modifyFunc {change : Func κ → Func κ} (kept : ∀ func, (change func).name = func.name) :
    (g.modifyFunc f change).names = g.names := by
  have funcs : (g.funcs.modify f.index change).toList.map (·.name) = g.funcs.toList.map (·.name) := by
    refine List.ext_getElem? fun i => ?_
    rw [List.getElem?_map, List.getElem?_map, Array.toList_modify, List.getElem?_modify]
    cases g.funcs.toList[i]? with
    | none => rfl
    | some func =>
      change some (if f.index = i then change func else func).name = some func.name
      split
      · rw [kept func]
      · rfl
  unfold names modifyFunc
  rw [funcs]

theorem nodup_pushFresh (distinct : g.names.Nodup) (f : Func κ) : (g.pushFresh f).2.names.Nodup := by
  obtain ⟨tries, -, -, unused, fresh⟩ := g.freshName_candidate f.name
  unfold pushFresh
  rw [fresh]
  exact (names_push _ _).nodup_iff.mpr (List.nodup_cons.mpr ⟨unused, distinct⟩)

theorem ExtendsTo.nodup_names (extended : g.ExtendsTo g') (distinct : g.names.Nodup) : g'.names.Nodup := by
  induction extended with
  | refl => exact distinct
  | push _ f ih => exact nodup_pushFresh ih f
  | modify _ _ kept ih => rwa [names_modifyFunc kept]

theorem unused_of_check {u : Unit} (run : g.checkUnused name = .ok u) : name ∉ g.names := by
  unfold checkUnused at run
  split at run
  · cases run
  · rename_i unused
    exact lookup?_eq_none.mp (by simpa using unused)

theorem nodup_of_check {u : Unit} (distinct : g.names.Nodup) (run : g.checkUnused name = .ok u)
    (listed : g'.names.Perm (name :: g.names)) : g'.names.Nodup :=
  listed.nodup_iff.mpr (List.nodup_cons.mpr ⟨unused_of_check run, distinct⟩)

theorem nodup_addFunc {args : List Name} {r : FuncId × Graph κ} (distinct : g.names.Nodup)
    (run : g.addFunc name args = .ok r) : r.2.names.Nodup := by
  obtain ⟨u, checked, made⟩ := bind_eq_ok.mp run
  rw [← pure_eq_ok.mp made]
  exact nodup_of_check distinct checked (names_push g _)

theorem nodup_addBuffer {domain : Domain} {r : BufferId × Graph κ} (distinct : g.names.Nodup)
    (run : g.addBuffer name domain = .ok r) : r.2.names.Nodup := by
  obtain ⟨u, checked, made⟩ := bind_eq_ok.mp run
  rw [← pure_eq_ok.mp made]
  refine nodup_of_check distinct checked ?_
  unfold names
  rw [Array.toList_push, List.map_append, ← List.append_assoc, List.append_assoc]
  exact List.perm_middle

theorem nodup_addParam {r : ParamId × Graph κ} (distinct : g.names.Nodup) (run : g.addParam name = .ok r) :
    r.2.names.Nodup := by
  obtain ⟨u, checked, made⟩ := bind_eq_ok.mp run
  rw [← pure_eq_ok.mp made]
  refine nodup_of_check distinct checked ?_
  unfold names
  rw [Array.toList_push, ← List.append_assoc]
  exact List.perm_append_singleton _ _

theorem names_define {value : Expr κ} (run : g.define f value = .ok g') : g'.names = g.names := by
  unfold Graph.define at run
  split at run
  · cases run
  · rw [← pure_eq_ok.mp run]
    exact names_modifyFunc fun func => rfl

theorem names_update {d : Definition κ} (run : g.update f d = .ok g') : g'.names = g.names := by
  unfold Graph.update at run
  dsimp only at run
  split at run
  · cases run
  split at run
  · cases run
  split at run
  · cases run
  · rw [← pure_eq_ok.mp run]
    exact names_modifyFunc fun func => rfl

theorem names_setEstimate {domain : Domain} (run : g.setEstimate f domain = .ok g') : g'.names = g.names := by
  unfold Graph.setEstimate at run
  dsimp only at run
  split at run
  · cases run
  · rw [← pure_eq_ok.mp run]
    exact names_modifyFunc fun func => rfl

variable [Extended κ]

/-- Every command that is not refused keeps names apart. -/
theorem nodup_names_of_result? {c : Command κ} (distinct : g.names.Nodup) (made : g.result? c = some g') :
    g'.names.Nodup := by
  cases c with
  | addFunc name args =>
    obtain ⟨r, run, rfl⟩ := Option.map_eq_some_iff.mp made
    exact nodup_addFunc distinct (toOption_eq_some.mp run)
  | addBuffer name domain =>
    obtain ⟨r, run, rfl⟩ := Option.map_eq_some_iff.mp made
    exact nodup_addBuffer distinct (toOption_eq_some.mp run)
  | addParam name =>
    obtain ⟨r, run, rfl⟩ := Option.map_eq_some_iff.mp made
    exact nodup_addParam distinct (toOption_eq_some.mp run)
  | define f value => rwa [names_define (toOption_eq_some.mp made)]
  | update f d => rwa [names_update (toOption_eq_some.mp made)]
  | setEstimate f domain => rwa [names_setEstimate (toOption_eq_some.mp made)]
  | adjoints output seed =>
    obtain ⟨a, run, rfl⟩ := Option.map_eq_some_iff.mp made
    exact (extends_of_adjoints (toOption_eq_some.mp run)).nodup_names distinct
  | tangents output directions =>
    obtain ⟨t, run, rfl⟩ := Option.map_eq_some_iff.mp made
    exact (extends_of_tangents (toOption_eq_some.mp run)).nodup_names distinct

theorem nodup_names_session (commands : List (Command κ)) : (session commands).names.Nodup := by
  suffices general : ∀ g : Graph κ, g.names.Nodup →
      (commands.foldl (fun g c => (g.result? c).getD g) g).names.Nodup from general {} List.nodup_nil
  induction commands with
  | nil => exact fun g distinct => distinct
  | cons c commands ih =>
    refine fun g distinct => ih _ ?_
    change ((g.result? c).getD g).names.Nodup
    cases made : g.result? c with
    | none => exact distinct
    | some g' => exact nodup_names_of_result? distinct made

/-- Whatever is built and differentiated, names stay unique; and in every graph the search for a fresh name ends, after
at most as many tries as there are names, at the first candidate that is not in use. -/
theorem names_unique :
    (∀ commands : List (Command κ), (session commands).Named) ∧
      ∀ (g : Graph κ) (base : Name), ∃ tries ≤ g.nameCount, (∀ k < tries, g.candidate base k ∈ g.names) ∧
        g.candidate base tries ∉ g.names ∧
        g.freshName base = (g.candidate base tries, { g with counter := g.counter + tries }) :=
  ⟨fun commands => ⟨nodup_names_session commands, fun _ _ => lookup?_of_nameOf? (nodup_names_session commands)⟩,
    freshName_candidate⟩

end Graph

/-- A name that looks made up does not get in the way, and neither does a name that was made up before. -/
example : (Graph.session (κ := Exact ℚ) [
    .addFunc "f" [], .addFunc "f_d" [], .addParam "f_d$1", .define ⟨0⟩ (.param ⟨0⟩), .addBuffer "f" .scalar,
    .adjoints ⟨0⟩ .unit, .adjoints ⟨0⟩ .unit]).names =
    ["f", "f_d", "f_d$2", "f_d$1_d", "f_d$3", "f_d$1_d$4", "f_d$1"] := by
  decide +kernel

end ArrayDiff
