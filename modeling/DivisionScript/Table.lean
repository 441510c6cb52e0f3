/-!
# Table

Finite tables from names to entries. A table lists its entries in the order in which their names
were first written, each name once; the lemmas say what writing an entry does to `get?`.
-/

namespace DivisionScript

/-- A finite table from names to entries. -/
structure Table (α : Type) where
  /-- The entries with their names. -/
  entries : List (String × α)
  /-- No name occurs twice. -/
  distinct : (entries.map Prod.fst).Nodup

namespace Table

variable {α : Type}

/-- The table without entries. -/
def empty : Table α :=
  ⟨[], by simp⟩

/-- The names of a table in the order in which they were first written. -/
def names (t : Table α) : List String :=
  t.entries.map Prod.fst

/-- How many names a table has. -/
def size (t : Table α) : Nat :=
  t.entries.length

/-- The entry of a name. -/
def get? (t : Table α) (name : String) : Option α :=
  t.entries.lookup name

/-- Whether a name has an entry. -/
def contains (t : Table α) (name : String) : Bool :=
  (t.get? name).isSome

/-- Overwrites the entry of a name where it stands, or adds one at the end. -/
def putEntry (name : String) (a : α) : List (String × α) → List (String × α)
  | [] => [(name, a)]
  | (key, b) :: rest => if key = name then (key, a) :: rest else (key, b) :: putEntry name a rest

theorem map_fst_putEntry (name : String) (a : α) (entries : List (String × α)) :
    (putEntry name a entries).map Prod.fst =
      if name ∈ entries.map Prod.fst then entries.map Prod.fst
      else entries.map Prod.fst ++ [name] := by
  induction entries with
  | nil => simp [putEntry]
  | cons entry rest ih =>
    obtain ⟨key, b⟩ := entry
    by_cases h : key = name
    · simp [putEntry, h]
    · have h' : ¬name = key := fun e => h e.symm
      by_cases hm : name ∈ rest.map Prod.fst
      · rw [if_pos hm] at ih
        have hm' : name ∈ ((key, b) :: rest).map Prod.fst := by simp [hm]
        rw [if_pos hm']
        simp [putEntry, h, ih]
      · rw [if_neg hm] at ih
        have hm' : name ∉ ((key, b) :: rest).map Prod.fst := by
          rw [List.map_cons, List.mem_cons]
          rintro (e | e)
          · exact h' e
          · exact hm e
        rw [if_neg hm']
        simp [putEntry, h, ih]

theorem nodup_putEntry (name : String) (a : α) {entries : List (String × α)}
    (h : (entries.map Prod.fst).Nodup) : ((putEntry name a entries).map Prod.fst).Nodup := by
  rw [map_fst_putEntry]
  split
  · exact h
  · next hm =>
    rw [List.nodup_append]
    refine ⟨h, by simp, ?_⟩
    intro x hx y hy e
    rw [List.mem_singleton] at hy
    exact hm (hy ▸ e ▸ hx)

/-- The table with the entry of a name overwritten or added. -/
def put (t : Table α) (name : String) (a : α) : Table α :=
  ⟨putEntry name a t.entries, nodup_putEntry name a t.distinct⟩

/-- The entries in the order of their names, which are compared code point by code point. -/
def sorted (t : Table α) : List (String × α) :=
  t.entries.mergeSort fun a b => a.1 ≤ b.1

/-! ## What the operations do -/

theorem lookup_putEntry (name : String) (a : α) (entries : List (String × α)) (needle : String) :
    (putEntry name a entries).lookup needle =
      if needle = name then some a else entries.lookup needle := by
  induction entries with
  | nil =>
    by_cases h : needle = name
    · simp [putEntry, h]
    · have hb : (needle == name) = false := by simpa using h
      simp [putEntry, List.lookup_cons, h, hb]
  | cons entry rest ih =>
    obtain ⟨key, b⟩ := entry
    by_cases hk : key = name
    · subst hk
      by_cases hn : needle = key
      · simp [putEntry, hn]
      · have hb : (needle == key) = false := by simpa using hn
        simp [putEntry, List.lookup_cons, hn, hb]
    · rw [putEntry, if_neg hk]
      by_cases hn : needle = key
      · subst hn
        simp [hk]
      · have hb : (needle == key) = false := by simpa using hn
        simp only [List.lookup_cons, hb, ih]

/-- A written name has its new entry, every other name its old one. -/
theorem get?_put (t : Table α) (name : String) (a : α) (needle : String) :
    (t.put name a).get? needle = if needle = name then some a else t.get? needle :=
  lookup_putEntry name a t.entries needle

@[simp] theorem get?_put_self (t : Table α) (name : String) (a : α) :
    (t.put name a).get? name = some a := by
  simp [get?_put]

theorem size_eq_length_names (t : Table α) : t.size = t.names.length := by
  simp [size, names]

end Table

end DivisionScript
