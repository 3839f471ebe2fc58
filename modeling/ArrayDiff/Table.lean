/-!
# Tables

Finite maps kept as lists of entries, one entry per key. `get?_insert` says what a table holds after an insertion.
-/

namespace ArrayDiff

structure Table (α β : Type) where
  entries : List (α × β) := []

namespace Table

variable {α β : Type} [DecidableEq α]

def empty : Table α β := {}

instance : Inhabited (Table α β) := ⟨empty⟩

def get? (t : Table α β) (a : α) : Option β := (t.entries.find? (·.1 = a)).map (·.2)

def contains (t : Table α β) (a : α) : Bool := (t.get? a).isSome

def erase (t : Table α β) (a : α) : Table α β := { entries := t.entries.filter (·.1 ≠ a) }

/-- Replaces the entry of `a`, if there is one. -/
def insert (t : Table α β) (a : α) (b : β) : Table α β := { entries := (a, b) :: (t.erase a).entries }

/-- Changes the value at `a`, if there is one. -/
def modify (t : Table α β) (a : α) (f : β → β) : Table α β :=
  { entries := t.entries.map fun (k, b) => if k = a then (k, f b) else (k, b) }

def keys (t : Table α β) : List α := t.entries.map (·.1)

def values (t : Table α β) : List β := t.entries.map (·.2)

/-- Later entries win over earlier ones with the same key. -/
def ofList (entries : List (α × β)) : Table α β := entries.foldl (fun t (a, b) => t.insert a b) empty

theorem get?_empty (a : α) : (empty : Table α β).get? a = none := rfl

theorem get?_insert (t : Table α β) (a a' : α) (b : β) :
    (t.insert a b).get? a' = if a = a' then some b else t.get? a' := by
  unfold insert get? erase
  by_cases h : a = a'
  · simp [h]
  · simp only [List.find?_cons, decide_eq_false h, List.find?_filter, if_neg h]
    congr 2
    funext e
    by_cases he : e.1 = a'
    · simp [he, Ne.symm h]
    · simp [he]

theorem get?_erase (t : Table α β) (a a' : α) : (t.erase a).get? a' = if a = a' then none else t.get? a' := by
  unfold erase get?
  by_cases h : a = a'
  · simp [h]
  · rw [if_neg h, List.find?_filter]
    congr 2
    funext e
    by_cases he : e.1 = a'
    · simp [he, Ne.symm h]
    · simp [he]

theorem contains_insert (t : Table α β) (a a' : α) (b : β) :
    (t.insert a b).contains a' = (decide (a = a') || t.contains a') := by
  unfold contains
  rw [get?_insert]
  by_cases same : a = a' <;> simp [same]

theorem contains_erase (t : Table α β) (a a' : α) :
    (t.erase a).contains a' = (!decide (a = a') && t.contains a') := by
  unfold contains
  rw [get?_erase]
  by_cases same : a = a' <;> simp [same]

theorem get?_modify (t : Table α β) (a a' : α) (f : β → β) :
    (t.modify a f).get? a' = if a = a' then (t.get? a').map f else t.get? a' := by
  have key (e : α × β) : ((fun (k, b) => if k = a then (k, f b) else (k, b)) e : α × β).1 = e.1 := by
    simp only
    split <;> rfl
  unfold modify get?
  rw [List.find?_map]
  simp only [Function.comp_def, key]
  cases found : t.entries.find? fun e => decide (e.1 = a') with
  | none => simp
  | some e =>
    have at' : e.1 = a' := by simpa using List.find?_some found
    by_cases same : a = a'
    · simp [at', same]
    · simp [at', same, Ne.symm same]

theorem mem_entries {t : Table α β} {a : α} {b : β} (found : t.get? a = some b) : (a, b) ∈ t.entries := by
  obtain ⟨e, first, rfl⟩ := Option.map_eq_some_iff.mp found
  have same : e.1 = a := by simpa using List.find?_some first
  exact same ▸ List.mem_of_find?_eq_some first

theorem mem_keys {t : Table α β} {a : α} : a ∈ t.keys ↔ ∃ b, t.get? a = some b := by
  unfold keys get?
  rw [List.mem_map]
  constructor
  · rintro ⟨e, mem, rfl⟩
    obtain ⟨found, same⟩ := Option.isSome_iff_exists.mp (List.find?_isSome (p := (·.1 = e.1)).mpr ⟨e, mem, decide_eq_true rfl⟩)
    exact ⟨found.2, by rw [same]; rfl⟩
  · rintro ⟨b, found⟩
    exact ⟨(a, b), mem_entries found, rfl⟩

/-- A new entry is put in front of the others. -/
theorem entries_insert {t : Table α β} {a : α} (fresh : a ∉ t.keys) (b : β) :
    (t.insert a b).entries = (a, b) :: t.entries := by
  have kept : t.entries.filter (·.1 ≠ a) = t.entries :=
    List.filter_eq_self.mpr fun e mem => decide_eq_true fun same => fresh (List.mem_map.mpr ⟨e, mem, same⟩)
  unfold insert erase
  rw [kept]

/-- A table made from a list holds the last entry of a key. -/
theorem get?_ofList (entries : List (α × β)) (a : α) :
    (ofList entries).get? a = (entries.reverse.find? (·.1 = a)).map (·.2) := by
  suffices general : ∀ t : Table α β, (entries.foldl (fun t (a, b) => t.insert a b) t).get? a =
      ((entries.reverse.find? (·.1 = a)).map (·.2)).or (t.get? a) by
    rw [ofList, general, get?_empty, Option.or_none]
  induction entries with
  | nil => exact fun t => rfl
  | cons e entries ih =>
    intro t
    rw [List.foldl_cons, ih, get?_insert, List.reverse_cons, List.find?_append]
    cases entries.reverse.find? fun e => decide (e.1 = a) with
    | some found => rfl
    | none =>
      by_cases same : e.1 = a
      · simp [same]
      · simp [same]

end Table

end ArrayDiff
