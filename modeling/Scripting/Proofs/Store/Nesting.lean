import Mathlib
import Scripting.Proofs.Store.Data

/-!
How deeply arrays and records stand in each other. A value has a text unless it is nested more deeply than
there is room for. One that contains itself is nested to any depth, and no other is nested more deeply than
there are arrays and records.
-/

set_option autoImplicit false

namespace Scripting

open Relation (ReflTransGen TransGen)

def Value.isCollection : Value → Bool
  | .array _ | .record _ => true
  | _ => false

namespace Store

def parts (s : Store) : Value → List Value
  | .array a => (s.items a).toList
  | .record r => (s.fields r).entries.map (·.2)
  | _ => []

/-- The value is an array or a record, and `n` more of them stand below it, each in the one before. -/
def Deep (s : Store) : Nat → Value → Prop
  | 0, v => v.isCollection
  | n + 1, v => ∃ w ∈ s.parts v, s.Deep n w

def HasPart (s : Store) (v w : Value) : Prop :=
  w ∈ s.parts v

/-- What contains itself stands in the value, or is the value. -/
def Cyclic (s : Store) (v : Value) : Prop :=
  ∃ w, ReflTransGen s.HasPart v w ∧ TransGen s.HasPart w w

variable {s : Store} {v w : Value} {m n : Nat}

theorem HasPart.isCollection (h : s.HasPart v w) : v.isCollection := by
  cases v with
  | array | record => rfl
  | _ => cases h

theorem HasPart.exists_target (h : s.HasPart v w) : ∃ ref, s.target ref = v := by
  cases v with
  | array a =>
    have hlt : a.index < s.arrays.size := by
      by_contra hge
      simp [HasPart, parts, items, Array.getD_eq_getD_getElem?, Array.getElem?_eq_none (Nat.not_lt.1 hge)] at h
    exact ⟨.inl ⟨a.index, hlt⟩, rfl⟩
  | record r =>
    have hlt : r.index < s.records.size := by
      by_contra hge
      simp [HasPart, parts, fields, Array.getD_eq_getD_getElem?, Array.getElem?_eq_none (Nat.not_lt.1 hge),
        Table.empty] at h
    exact ⟨.inr ⟨r.index, hlt⟩, rfl⟩
  | _ => cases h

theorem Deep.mono (h : s.Deep n v) (hle : m ≤ n) : s.Deep m v := by
  induction n generalizing m v with
  | zero => rwa [Nat.le_zero.1 hle]
  | succ n ih =>
    obtain ⟨w, hw, hdeep⟩ := h
    cases m with
    | zero => exact HasPart.isCollection hw
    | succ m => exact ⟨w, hw, ih hdeep (Nat.le_of_succ_le_succ hle)⟩

/-! Values that contain themselves. -/

theorem Cyclic.exists_part (h : s.Cyclic v) : ∃ w, s.HasPart v w ∧ s.Cyclic w := by
  obtain ⟨w, hreach, hcycle⟩ := h
  rcases hreach.cases_head with rfl | ⟨u, hu, hreach⟩
  · obtain ⟨u, hu, hback⟩ := TransGen.head'_iff.1 hcycle
    exact ⟨u, hu, v, hback, hcycle⟩
  · exact ⟨u, hu, w, hreach, hcycle⟩

theorem Cyclic.deep (h : s.Cyclic v) (n : Nat) : s.Deep n v := by
  induction n generalizing v with
  | zero =>
    obtain ⟨w, hw, -⟩ := h.exists_part
    exact hw.isCollection
  | succ n ih =>
    obtain ⟨w, hw, hcyclic⟩ := h.exists_part
    exact ⟨w, hw, ih hcyclic⟩

theorem Deep.exists_path (h : s.Deep n v) :
    ∃ path : List Value, path.length = n ∧
      (∀ w ∈ path, ReflTransGen s.HasPart v w ∧ ∃ u, s.HasPart w u) ∧ path.Pairwise (TransGen s.HasPart) := by
  induction n generalizing v with
  | zero => exact ⟨[], rfl, List.forall_mem_nil _, .nil⟩
  | succ n ih =>
    obtain ⟨u, hu, hdeep⟩ := h
    obtain ⟨path, hlength, hpath, hpairs⟩ := ih hdeep
    refine ⟨v :: path, congrArg (· + 1) hlength, List.forall_mem_cons.2 ⟨⟨.refl, u, hu⟩, fun w hw => ?_⟩,
      List.pairwise_cons.2 ⟨fun w hw => ?_, hpairs⟩⟩
    · exact ⟨.head hu (hpath w hw).1, (hpath w hw).2⟩
    · exact .head' hu (hpath w hw).1

theorem Deep.le_of_not_cyclic (h : s.Deep n v) (hv : ¬s.Cyclic v) : n ≤ s.arrays.size + s.records.size := by
  -- Without a cycle no value comes twice on the way down, so there are no more than arrays and records.
  obtain ⟨path, rfl, hpath, hpairs⟩ := h.exists_path
  have hnodup : path.Nodup := by
    refine hpairs.imp_of_mem fun {w u} hw _ hwu => ?_
    rintro rfl
    exact hv ⟨w, (hpath w hw).1, hwu⟩
  have htargets : ∀ w ∈ path, w ∈ Set.range s.target := by
    intro w hw
    obtain ⟨u, hu⟩ := (hpath w hw).2
    exact hu.exists_target
  obtain ⟨refs, rfl⟩ : path ∈ Set.range (List.map s.target) := by
    rw [Set.range_list_map]
    exact htargets
  simpa using (hnodup.of_map s.target).length_le_card

/-- A value that is nested as deeply as none without a cycle is nested to any depth. -/
theorem deep_min_deepest_iff : s.Deep (min s.deepest n) v ↔ s.Deep n v := by
  refine ⟨fun h => ?_, fun h => h.mono (Nat.min_le_right _ _)⟩
  by_cases hv : s.Cyclic v
  · exact hv.deep n
  · have hle := h.le_of_not_cyclic hv
    rw [deepest] at h hle
    exact h.mono (by omega)

/-! Rendering. -/

theorem mapM_eq_none_iff {α β : Type} {f : α → Option β} {xs : List α} :
    xs.mapM f = none ↔ ∃ x ∈ xs, f x = none := by
  induction xs with
  | nil => simp
  | cons x xs ih =>
    rw [List.mapM_cons]
    cases hx : f x with
    | none => simp [hx]
    | some y =>
      cases hxs : xs.mapM f with
      | none => simpa [hx, hxs] using ih.1 hxs
      | some ys => simpa [hx, hxs] using ih

theorem bind_pure_eq_none_iff {α β : Type} {o : Option α} {f : α → β} :
    (do return f (← o)) = none ↔ o = none := by
  cases o <;> simp

theorem renderWithin_eq_none_iff : s.renderWithin n v = none ↔ s.Deep n v := by
  induction n generalizing v with
  | zero => cases v <;> simp [renderWithin, Deep, Value.isCollection]
  | succ n ih =>
    cases v with
    | array a =>
      rw [renderWithin, bind_pure_eq_none_iff, mapM_eq_none_iff]
      simp only [ih, Deep, parts]
    | record r =>
      rw [renderWithin, bind_pure_eq_none_iff, mapM_eq_none_iff]
      simp only [bind_pure_eq_none_iff, ih, Deep, parts, List.mem_map, exists_exists_and_eq_and]
    | _ => simp [renderWithin, Deep, parts]

theorem render_eq_none_iff {levels : Nat} : s.render (some levels) v = none ↔ s.Deep levels v := by
  rw [render, renderWithin_eq_none_iff, deep_min_deepest_iff]

end Store

end Scripting
