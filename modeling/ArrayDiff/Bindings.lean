import ArrayDiff.Error
import ArrayDiff.Graph.Basic

/-!
# Bindings

Data bound to the buffers and params of a graph. Data counts only if it has the shape that its buffer declares.
-/

namespace ArrayDiff

/-- Values in row-major order, last dimension fastest. -/
structure Tensor (α : Type) where
  shape : List Nat
  values : Array α
  deriving DecidableEq

/-- Whether arrays of a shape hold so many values. The length of an array is a signed word of 64 bits, also of an empty
one with its empty dimensions left out. -/
def shapeHolds (shape : List Nat) (count : Nat) : Bool :=
  (shape.filter (· ≠ 0)).foldr (· * ·) 1 < 9223372036854775808 && shape.foldr (· * ·) 1 = count

/-- Values over a domain as a tensor. The name is the one to be shown if the shape of the domain does not fit. -/
def Domain.tensor {α : Type} (d : Domain) (name : Name) (values : List α) : Except EvalError (Tensor α) :=
  if shapeHolds d.shape values.length then return ⟨d.shape, values.toArray⟩
  else throw (.shapeMismatch name d.shape [values.length])

theorem Domain.tensor_eq_ok {α : Type} {d : Domain} {name : Name} {values : List α} {t : Tensor α} :
    d.tensor name values = .ok t ↔ shapeHolds d.shape values.length ∧ t = ⟨d.shape, values.toArray⟩ := by
  unfold tensor
  split
  · rename_i holds
    exact ⟨fun made => ⟨holds, (Except.ok.inj made).symm⟩, fun made => congrArg Except.ok made.2.symm⟩
  · rename_i short
    exact ⟨nofun, fun made => absurd made.1 short⟩

theorem Domain.tensor_eq_error {α : Type} {d : Domain} {name : Name} {values : List α} {e : EvalError} :
    d.tensor name values = .error e ↔
      ¬shapeHolds d.shape values.length ∧ e = .shapeMismatch name d.shape [values.length] := by
  unfold tensor
  split
  · rename_i holds
    exact ⟨nofun, fun failed => absurd holds failed.1⟩
  · rename_i short
    exact ⟨fun failed => ⟨short, (Except.error.inj failed).symm⟩, fun failed => congrArg Except.error failed.2.symm⟩

/-- Data by buffer and value by param. -/
structure Bindings (α : Type) where
  tensors : Table BufferId (Tensor α) := {}
  params : Table ParamId α := {}

namespace Bindings

variable {κ α : Type}

def bind (b : Bindings α) (buffer : BufferId) (data : Tensor α) : Bindings α :=
  { b with tensors := b.tensors.insert buffer data }

def setParam (b : Bindings α) (param : ParamId) (value : α) : Bindings α :=
  { b with params := b.params.insert param value }

/-- The data of a buffer, checked against its declared shape. -/
def tensor (b : Bindings α) (g : Graph κ) (id : BufferId) : Except EvalError (Tensor α) :=
  let buffer := g.buffer id
  match b.tensors.get? id with
  | none => throw (.missingBuffer buffer.name)
  | some data =>
    if data.shape = buffer.domain.shape then return data
    else throw (.shapeMismatch buffer.name buffer.domain.shape data.shape)

def param (b : Bindings α) (g : Graph κ) (id : ParamId) : Except EvalError α :=
  match b.params.get? id with
  | none => throw (.missingParam (g.param id))
  | some value => return value

end Bindings

end ArrayDiff
