/-!
# Domains

Inclusive integer intervals and their products. `Domain.points` lists a domain with the last dimension fastest, and
`Domain.position?` is the place of a point in that list; a reduction domain is run through with the first dimension
fastest. Ends of intervals are compared as they are; what is added up from them, and sizes of domains, are machine words.
-/

namespace ArrayDiff

/-- The signed word of 64 bits that a sum of coordinates is computed to. -/
def wrapped (v : Int) : Int := v.bmod UInt64.size

/-- The range from `min` to `max`, empty when `max < min`. -/
structure Interval where
  min : Int
  max : Int
  deriving DecidableEq

namespace Interval

def point (v : Int) : Interval := ⟨v, v⟩

def ofExtent (min extent : Int) : Interval := ⟨min, wrapped (min + extent - 1)⟩

def empty : Interval := ⟨0, -1⟩

def isEmpty (i : Interval) : Bool := i.max < i.min

def extent (i : Interval) : Int := Max.max (wrapped (i.max - i.min + 1)) 0

/-- How many members there are; the extent, unless that overflows. -/
def size (i : Interval) : Nat := (i.max - i.min + 1).toNat

/-- The sum of the ends, from which a coordinate is subtracted to mirror it in the middle. -/
def endSum (i : Interval) : Int := wrapped (i.min + i.max)

def contains (i : Interval) (v : Int) : Bool := i.min ≤ v && v ≤ i.max

def union (i j : Interval) : Interval :=
  if i.isEmpty then j else if j.isEmpty then i else ⟨Min.min i.min j.min, Max.max i.max j.max⟩

def toList (i : Interval) : List Int := (List.range i.size).map fun (k : Nat) => i.min + k

theorem mem_toList {i : Interval} {v : Int} : v ∈ i.toList ↔ i.min ≤ v ∧ v ≤ i.max := by
  simp only [toList, size, List.mem_map, List.mem_range]
  constructor
  · rintro ⟨k, hk, rfl⟩
    omega
  · intro h
    exact ⟨(v - i.min).toNat, by omega, by omega⟩

theorem length_toList (i : Interval) : i.toList.length = i.size := by simp [toList]

end Interval

/-- A product of intervals. Without dimensions it has one point. -/
structure Domain where
  intervals : List Interval
  deriving DecidableEq

namespace Domain

def scalar : Domain := ⟨[]⟩

def empty (dims : Nat) : Domain := ⟨List.replicate dims .empty⟩

def ofShape (shape : List Nat) : Domain := ⟨shape.map fun (n : Nat) => .ofExtent 0 n⟩

def dims (d : Domain) : Nat := d.intervals.length

/-- Extents per dimension, 0 for an empty one. -/
def extents (d : Domain) : List Int := d.intervals.map Interval.extent

def shape (d : Domain) : List Nat := d.intervals.map fun i => i.extent.toNat

/-- The product of the extents, as an unsigned word. -/
def size (d : Domain) : Nat := d.shape.foldr (· * ·) 1 % UInt64.size

def isEmpty (d : Domain) : Bool := d.intervals.any Interval.isEmpty

def contains (d : Domain) (point : List Int) : Bool :=
  point.length = d.dims && (d.intervals.zip point).all fun (i, v) => i.contains v

/-- The smallest box around both; an empty domain adds nothing. -/
def union (d e : Domain) : Domain :=
  if d.isEmpty then e else if e.isEmpty then d else ⟨d.intervals.zipWith Interval.union e.intervals⟩

/-- Distances from the minimums, for a point of the domain. -/
def offset? (d : Domain) (point : List Int) : Option (List Nat) :=
  if d.contains point then some (d.intervals.zipWith (fun i v => (v - i.min).toNat) point) else none

/-- All lists with one member of each interval, the last one varying fastest. -/
def product : List Interval → List (List Int)
  | [] => [[]]
  | i :: rest => i.toList.flatMap fun v => (product rest).map (v :: ·)

/-- All points, last dimension fastest. -/
def points (d : Domain) : List (List Int) := product d.intervals

end Domain

/-- The place of an offset in an array of the given shape, last dimension fastest. -/
def rowMajor : List Nat → List Nat → Nat
  | _ :: shape, k :: offset => k * shape.foldr (· * ·) 1 + rowMajor shape offset
  | _, _ => 0

/-- The place of a point in the list of points. -/
def Domain.position? (d : Domain) (point : List Int) : Option Nat :=
  (d.offset? point).map (rowMajor (d.intervals.map Interval.size))

/-- Reduction variables with their ranges, iterated sequentially, first dimension innermost. -/
structure ReductionDomain where
  dims : List (String × Interval)
  deriving DecidableEq

namespace ReductionDomain

def ofExtents (dims : List (String × Int × Int)) : ReductionDomain :=
  ⟨dims.map fun (name, min, extent) => (name, .ofExtent min extent)⟩

def names (r : ReductionDomain) : List String := r.dims.map (·.1)

def domain (r : ReductionDomain) : Domain := ⟨r.dims.map (·.2)⟩

/-- Both domains, `r` innermost. -/
def join (r outer : ReductionDomain) : ReductionDomain := ⟨r.dims ++ outer.dims⟩

/-- The points in iteration order, each in the order of the dimensions. -/
def points (r : ReductionDomain) : List (List Int) :=
  (Domain.product (r.dims.map (·.2)).reverse).map List.reverse

/-- Ranges as they are shown after a definition. -/
def text (r : ReductionDomain) : String :=
  ", ".intercalate (r.dims.map fun (name, i) => s!"{name} in [{i.min}, {i.max}]")

end ReductionDomain

end ArrayDiff
