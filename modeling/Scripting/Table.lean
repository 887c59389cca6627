/-!
Tables of named entries in the order in which the names were first entered. Entering a name again
replaces its entry and keeps its place.
-/

set_option autoImplicit false

namespace Scripting

structure Table (α : Type) where
  entries : List (String × α)
deriving Inhabited

namespace Table

variable {α : Type}

def empty : Table α := ⟨[]⟩

def get? (t : Table α) (name : String) : Option α :=
  t.entries.lookup name

def contains (t : Table α) (name : String) : Bool :=
  (t.get? name).isSome

def names (t : Table α) : List String :=
  t.entries.map (·.1)

def replace (name : String) (a : α) : List (String × α) → List (String × α)
  | [] => [(name, a)]
  | (n, b) :: rest => if n = name then (name, a) :: rest else (n, b) :: replace name a rest

def put (t : Table α) (name : String) (a : α) : Table α :=
  ⟨replace name a t.entries⟩

theorem lookup_cons (name other : String) (a : α) (rest : List (String × α)) :
    ((name, a) :: rest).lookup other = if other = name then some a else rest.lookup other := by
  by_cases h : other = name
  · simp [h]
  · have hb : (other == name) = false := beq_eq_false_iff_ne.mpr h
    rw [List.lookup_cons, hb, if_neg h]

theorem lookup_replace (name other : String) (a : α) (entries : List (String × α)) :
    (replace name a entries).lookup other =
      if other = name then some a else entries.lookup other := by
  induction entries with
  | nil => exact lookup_cons name other a []
  | cons e rest ih =>
    obtain ⟨n, b⟩ := e
    unfold replace
    by_cases hn : n = name
    · subst hn
      rw [if_pos rfl, lookup_cons, lookup_cons]
      by_cases h : other = n <;> simp [h]
    · rw [if_neg hn, lookup_cons, lookup_cons, ih]
      by_cases h : other = n
      · subst h
        simp [hn]
      · simp [h]

theorem get?_put (t : Table α) (name other : String) (a : α) :
    (t.put name a).get? other = if other = name then some a else t.get? other :=
  lookup_replace name other a t.entries

theorem map_replace (name : String) (a : α) (entries : List (String × α)) :
    (replace name a entries).map (·.1) =
      if name ∈ entries.map (·.1) then entries.map (·.1) else entries.map (·.1) ++ [name] := by
  induction entries with
  | nil => rfl
  | cons e rest ih =>
    obtain ⟨n, b⟩ := e
    by_cases hn : n = name
    · simp [replace, hn]
    · have hm : name ≠ n := fun h => hn h.symm
      by_cases h : name ∈ rest.map (·.1) <;> simp_all [replace]

/-- A known name keeps its place, and a new one goes last. -/
theorem names_put (t : Table α) (name : String) (a : α) :
    (t.put name a).names = if name ∈ t.names then t.names else t.names ++ [name] :=
  map_replace name a t.entries

end Table

end Scripting
