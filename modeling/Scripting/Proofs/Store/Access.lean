import Mathlib
import Scripting.Proofs.Evaluation.CountedLoop
import Scripting.Proofs.Evaluation.Growth

/-!
The laws of items and fields. Under a key an array has a place for each of its items, and a record one for
each field that it has or may get; every place has one name. Filling a place changes what is read there and
nothing else in the whole store, whatever refers to the array or record and whatever value is put there. The
members that every array has can be read, and are no places.
-/

set_option autoImplicit false

namespace Scripting

theorem modify_modify_eq {α : Type} (xs : Array α) (i : Nat) (f g : α → α) (h : ∀ x, g (f x) = g x) :
    (xs.modify i f).modify i g = xs.modify i g := by
  refine Array.ext_getElem? fun j => ?_
  simp only [Array.getElem?_modify]
  split
  · rw [Option.map_map]
    exact congrArg (Option.map · xs[j]?) (funext h)
  · rfl

theorem Table.replace_replace {α : Type} (name : String) (a b : α) (entries : List (String × α)) :
    replace name b (replace name a entries) = replace name b entries := by
  induction entries with
  | nil => simp [replace]
  | cons e entries ih =>
    obtain ⟨other, c⟩ := e
    by_cases h : other = name
    · simp [replace, h]
    · simp [replace, h, ih]

theorem Table.put_put {α : Type} (t : Table α) (name : String) (a b : α) :
    (t.put name a).put name b = t.put name b :=
  congrArg Table.mk (replace_replace name a b t.entries)

namespace Store

variable {s t : Store} {base key v : Value} {slot : Slot}

/-- An assignment can fill what the key names: an item that an array has, or any field of a record. -/
def Settable (s : Store) (base key : Value) : Prop :=
  (∃ a i, base = .array a ∧ key = .number i ∧ 0 ≤ i ∧ i < (s.items a).size) ∨
    ∃ r name, base = .record r ∧ key = .string name

def refusal (s : Store) : Value → Value → Fault
  | .array a, .number i => if i < 0 then .negativeIndex i else .indexOutOfRange i (s.items a).size
  | base, key => .invalidAccess base.typeName key.typeName

inductive Locates (s : Store) : Value → Value → Slot → Prop where
  | item {a : ArrayId} {k : Nat} (lt : k < (s.items a).size) : Locates s (.array a) (.number k) (.item a k)
  | field (r : RecordId) (name : String) : Locates s (.record r) (.string name) (.field r name)

theorem index_eq_ok_iff {length k : Nat} {i : Int} : index length i = .ok k ↔ i = k ∧ k < length := by
  unfold index
  split
  · simp only [reduceCtorEq, false_iff]
    omega
  · split
    · rw [Except.ok.injEq]
      omega
    · simp only [reduceCtorEq, false_iff]
      omega

theorem slot_eq_ok_iff : s.slot base key = .ok slot ↔ s.Locates base key slot := by
  constructor
  · intro h
    unfold Store.slot at h
    split at h
    · rename_i a i
      cases hi : index (s.items a).size i with
      | error fault =>
        rw [hi] at h
        cases h
      | ok k =>
        rw [hi] at h
        cases h
        obtain ⟨rfl, hk⟩ := index_eq_ok_iff.1 hi
        exact .item hk
    · cases h
      exact .field _ _
    · cases h
  · rintro (lt | ⟨r, name⟩)
    · rw [Store.slot, index_eq_ok_iff.2 ⟨rfl, lt⟩]
      rfl
    · rfl

theorem settable_iff : s.Settable base key ↔ ∃ slot, s.Locates base key slot := by
  constructor
  · rintro (⟨a, i, rfl, rfl, hi, hlt⟩ | ⟨r, name, rfl, rfl⟩)
    · obtain ⟨k, rfl⟩ := Int.eq_ofNat_of_zero_le hi
      exact ⟨_, .item (Int.ofNat_lt.1 hlt)⟩
    · exact ⟨_, .field r name⟩
  · rintro ⟨slot, lt | ⟨r, name⟩⟩
    · exact .inl ⟨_, _, rfl, rfl, Int.natCast_nonneg _, Int.ofNat_lt.2 lt⟩
    · exact .inr ⟨r, name, rfl, rfl⟩

theorem eq_refusal_of_slot {fault : Fault} (h : s.slot base key = .error fault) : fault = s.refusal base key := by
  unfold slot at h
  split at h
  · rename_i a i
    unfold index at h
    rw [refusal]
    split at h
    · rename_i hneg
      cases h
      rw [if_pos hneg]
    · rename_i hpos
      split at h
      · cases h
      · cases h
        rw [if_neg hpos]
  · cases h
  · rename_i hitem hfield
    cases h
    rw [refusal]
    exact hitem

theorem setItem_eq_ok_iff : s.setItem base key v = .ok t ↔ ∃ slot, s.Locates base key slot ∧ t = s.fill v slot := by
  rw [setItem]
  cases h : s.slot base key with
  | error fault =>
    simp [Except.map, ← slot_eq_ok_iff, h]
  | ok slot =>
    simp [Except.map, ← slot_eq_ok_iff, h, eq_comm]

theorem setItem_eq_error_iff_slot {fault : Fault} :
    s.setItem base key v = .error fault ↔ s.slot base key = .error fault := by
  rw [setItem]
  cases s.slot base key <;> simp [Except.map]

theorem setItem_eq_error_iff {fault : Fault} :
    s.setItem base key v = .error fault ↔ ¬s.Settable base key ∧ fault = s.refusal base key := by
  rw [setItem_eq_error_iff_slot, settable_iff]
  simp only [← slot_eq_ok_iff]
  cases h : s.slot base key with
  | error other => simp [← eq_refusal_of_slot h, eq_comm]
  | ok slot => simp

/-! What is read after a place has been filled. -/

theorem items_fill_item {a : ArrayId} {k : Nat} (lt : k < (s.items a).size) (b : ArrayId) :
    (s.fill v (.item a k)).items b = if b = a then (s.items a).setIfInBounds k v else s.items b := by
  have ha : a.index < s.arrays.size := by
    by_contra hge
    rw [items_of_size_le (Nat.le_of_not_lt hge)] at lt
    exact Nat.not_lt_zero k lt
  rw [fill, items_modifyArray]
  by_cases hb : b = a
  · rw [if_pos ⟨congrArg ArrayId.index hb.symm, hb ▸ ha⟩, if_pos hb, hb]
  · rw [if_neg fun h => hb (congrArg ArrayId.mk h.1.symm), if_neg hb]

theorem fields_fill_field {r : RecordId} (hr : r.index < s.records.size) (name : String) (q : RecordId) :
    (s.fill v (.field r name)).fields q = if q = r then (s.fields r).put name v else s.fields q := by
  rw [fill, fields_modifyRecord]
  by_cases hq : q = r
  · rw [if_pos ⟨congrArg RecordId.index hq.symm, hq ▸ hr⟩, if_pos hq, hq]
  · rw [if_neg fun h => hq (congrArg RecordId.mk h.1.symm), if_neg hq]

theorem getItem_array_congr {a : ArrayId} (hsize : (t.items a).size = (s.items a).size)
    (hitem : ∀ k : Nat, key = .number k → (t.items a).getD k .nothing = (s.items a).getD k .nothing) :
    t.getItem (.array a) key = s.getItem (.array a) key := by
  cases key with
  | number i =>
    simp only [getItem, hsize]
    cases hi : index (s.items a).size i with
    | error fault => rfl
    | ok k =>
      obtain ⟨rfl, -⟩ := index_eq_ok_iff.1 hi
      exact congrArg Except.ok (hitem k rfl)
  | string name => simp only [getItem, arrayMember, hsize]
  | _ => rfl

theorem getItem_record_congr {r : RecordId}
    (hfield : ∀ name, key = .string name → (t.fields r).get? name = (s.fields r).get? name) :
    t.getItem (.record r) key = s.getItem (.record r) key := by
  cases key with
  | string name => simp only [getItem, hfield name rfl]
  | _ => rfl

/-- The second store is the first one with a value in the place that the key names in the base. -/
structure Updated (s : Store) (base key v : Value) (t : Store) : Prop where
  written : t.getItem base key = .ok v
  elsewhere : ∀ base' key', ¬(base' = base ∧ key' = key) → t.getItem base' key' = s.getItem base' key'
  lengths : ∀ a, (t.items a).size = (s.items a).size
  arrays : ∀ a, base ≠ .array a → t.items a = s.items a
  records : ∀ r, base ≠ .record r → t.fields r = s.fields r
  names : ∀ r name, base = .record r → key = .string name → (t.fields r).names =
    if name ∈ (s.fields r).names then (s.fields r).names else (s.fields r).names ++ [name]
  sizes : t.arrays.size = s.arrays.size ∧ t.records.size = s.records.size
  frames : t.frames = s.frames
  output : t.output = s.output
  again : ∀ w, t.setItem base key w = s.setItem base key w

theorem fill_fill (s : Store) (v w : Value) (slot : Slot) : (s.fill v slot).fill w slot = s.fill w slot := by
  cases slot with
  | item a k =>
    have harrays := modify_modify_eq s.arrays a.index (·.setIfInBounds k v) (·.setIfInBounds k w)
      fun _ => Array.setIfInBounds_setIfInBounds v
    simp only [fill, modifyArray, harrays]
  | field r name =>
    have hrecords := modify_modify_eq s.records r.index (·.put name v) (·.put name w)
      fun table => table.put_put name v w
    simp only [fill, modifyRecord, hrecords]

theorem Locates.setItem_eq (h : s.Locates base key slot) (v : Value) :
    s.setItem base key v = .ok (s.fill v slot) :=
  setItem_eq_ok_iff.2 ⟨slot, h, rfl⟩

theorem updated_fill_item {a : ArrayId} {k : Nat} (lt : k < (s.items a).size) (v : Value) :
    s.Updated (.array a) (.number k) v (s.fill v (.item a k)) := by
  have hitems := items_fill_item (v := v) lt
  have hsize (b : ArrayId) : ((s.fill v (.item a k)).items b).size = (s.items b).size := by
    rw [hitems]
    split
    · rename_i hb
      rw [hb, Array.size_setIfInBounds]
    · rfl
  have hitem (j : Nat) : ((s.fill v (.item a k)).items a).getD j .nothing =
      if j = k then v else (s.items a).getD j .nothing := by
    rw [hitems, if_pos rfl, Array.getD_eq_getD_getElem?, Array.getElem?_setIfInBounds, Array.getD_eq_getD_getElem?]
    by_cases hj : j = k
    · simp [hj, lt]
    · simp [hj, Ne.symm hj]
  have hlocates : (s.fill v (.item a k)).Locates (.array a) (.number k) (.item a k) := .item (hsize a ▸ lt)
  refine ⟨?_, fun base' key' hne => ?_, hsize, fun b hb => ?_, fun r _ => rfl, fun r name hr => ?_,
    ⟨size_arrays_modifyArray _ _ _, rfl⟩, rfl, rfl, fun w => ?_⟩
  · rw [getItem, hsize, index_eq_ok_iff.2 ⟨rfl, lt⟩]
    exact congrArg Except.ok ((hitem k).trans (if_pos rfl))
  · cases base' with
    | array b =>
      refine getItem_array_congr (hsize b) fun j hj => ?_
      by_cases hb : b = a
      · subst hb
        have hjk : j ≠ k := by
          rintro rfl
          exact hne ⟨rfl, hj⟩
        rw [hitem, if_neg hjk]
      · rw [hitems, if_neg hb]
    | record r => exact getItem_record_congr fun _ _ => rfl
    | _ => rfl
  · rw [hitems, if_neg]
    rintro rfl
    exact hb rfl
  · cases hr
  · rw [hlocates.setItem_eq, fill_fill, Locates.setItem_eq (.item lt)]

theorem updated_fill_field {r : RecordId} (hr : r.index < s.records.size) (name : String) (v : Value) :
    s.Updated (.record r) (.string name) v (s.fill v (.field r name)) := by
  have hfields := fields_fill_field (v := v) hr name
  have hself : (s.fill v (.field r name)).fields r = (s.fields r).put name v := (hfields r).trans (if_pos rfl)
  refine ⟨?_, fun base' key' hne => ?_, fun a => rfl, fun a _ => rfl, fun q hq => ?_, ?_,
    ⟨rfl, size_records_modifyRecord _ _ _⟩, rfl, rfl, fun w => ?_⟩
  · rw [getItem, hself, Table.get?_put, if_pos rfl]
  · cases base' with
    | array b => exact getItem_array_congr rfl fun _ _ => rfl
    | record q =>
      refine getItem_record_congr fun other hother => ?_
      by_cases hq : q = r
      · subst hq
        have hne : other ≠ name := by
          rintro rfl
          exact hne ⟨rfl, hother⟩
        rw [hself, Table.get?_put, if_neg hne]
      · rw [hfields, if_neg hq]
    | _ => rfl
  · rw [hfields, if_neg]
    rintro rfl
    exact hq rfl
  · rintro _ _ ⟨⟩ ⟨⟩
    rw [hself, Table.names_put]
  · rw [Locates.setItem_eq (.field r name), fill_fill, Locates.setItem_eq (.field r name)]

theorem Locates.updated (h : s.Locates base key slot) (hbase : ∀ ref ∈ base.refs, ref.In s) (v : Value) :
    s.Updated base key v (s.fill v slot) := by
  cases h with
  | item lt => exact updated_fill_item lt v
  | field r name => exact updated_fill_field (hbase _ (List.mem_singleton_self _)) name v

end Store

/-! Assignments to items and fields in programs. -/

section Assignment

variable {limits : Limits} {depth : Nat} {f : FrameId} {b k e : Node} {s₀ s₁ s₂ s : Store}
  {base key v : Value}

theorem Activation.ends_setItem (room : limits.allows (depth + 4))
    (hb : Activation.Ends limits ⟨b, f, depth + 4⟩ s₀ (.value base) s₁)
    (hk : Activation.Ends limits ⟨k, f, depth + 4⟩ s₁ (.value key) s₂)
    (he : Activation.Ends limits ⟨e, f, depth + 4⟩ s₂ (.value v) s) (p : Option Place) :
    (∀ t, s.setItem base key v = .ok t → Activation.Ends limits ⟨.setItem b k e p, f, depth⟩ s₀ (.value v) t) ∧
    ∀ fault, s.setItem base key v = .error fault →
      Activation.Ends limits ⟨.setItem b k e p, f, depth⟩ s₀ (.failed ⟨fault, p⟩) s := by
  have hstart {out : Outcome} {t : Store}
      (hok : ∀ slot, s.slot base key = .ok slot → out = .value v ∧ t = s.fill v slot)
      (herror : ∀ fault, s.slot base key = .error fault → out = .failed ⟨fault, p⟩ ∧ t = s) :
      Activation.Ends limits ⟨.setItem b k e p, f, depth⟩ s₀ out t := by
    refine Activation.ends_iff_start.2 (Task.ends_value_of_ends room hb ?_)
    refine Task.ends_value_of_ends room hk (Task.ends_value_of_ends room he ?_)
    cases h : s.slot base key with
    | ok slot => exact Task.ends_done.2 (hok slot h)
    | error fault => exact Task.ends_done.2 (herror fault h)
  refine ⟨fun t h => hstart (fun slot hslot => ?_) fun fault hfault => ?_,
    fun fault h => hstart (fun slot hslot => ?_) fun other hother => ?_⟩
  · rw [Store.setItem, hslot] at h
    cases h
    exact ⟨rfl, rfl⟩
  · rw [Store.setItem, hfault] at h
    cases h
  · rw [Store.setItem, hslot] at h
    cases h
  · rw [Store.setItem, hother] at h
    cases h
    exact ⟨rfl, rfl⟩

end Assignment

/-- An item or field can be assigned exactly where the key names a place; otherwise nothing changes. The value
    is then read there through every reference, all else is as before, and a later assignment is all that
    counts. -/
theorem item_access_laws {s : Store} {base : Value} (hbase : ∀ ref ∈ base.refs, ref.In s) (key v : Value) :
    ((∃ t, s.setItem base key v = .ok t) ↔ s.Settable base key) ∧
    (∀ fault, s.setItem base key v = .error fault ↔ ¬s.Settable base key ∧ fault = s.refusal base key) ∧
    (∀ t, s.setItem base key v = .ok t → s.Updated base key v t) ∧
    (∀ a t, base = .array a → s.setItem base key v = .ok t → ∃ w, s.getItem base key = .ok w) ∧
    ∀ (limits : Limits) (depth : Nat) (f : FrameId) (b k e : Node) (p : Option Place) (s₀ s₁ s₂ : Store),
      limits.allows (depth + 4) →
      Activation.Ends limits ⟨b, f, depth + 4⟩ s₀ (.value base) s₁ →
      Activation.Ends limits ⟨k, f, depth + 4⟩ s₁ (.value key) s₂ →
      Activation.Ends limits ⟨e, f, depth + 4⟩ s₂ (.value v) s →
      (∀ t, s.setItem base key v = .ok t →
        Activation.Ends limits ⟨.setItem b k e p, f, depth⟩ s₀ (.value v) t) ∧
      ∀ fault, s.setItem base key v = .error fault →
        Activation.Ends limits ⟨.setItem b k e p, f, depth⟩ s₀ (.failed ⟨fault, p⟩) s := by
  refine ⟨?_, fun fault => Store.setItem_eq_error_iff, fun t h => ?_, fun a t ha h => ?_, ?_⟩
  · simp only [Store.settable_iff, Store.setItem_eq_ok_iff]
    constructor
    · rintro ⟨_, slot, hslot, -⟩
      exact ⟨slot, hslot⟩
    · rintro ⟨slot, hslot⟩
      exact ⟨_, slot, hslot, rfl⟩
  · obtain ⟨slot, hslot, rfl⟩ := Store.setItem_eq_ok_iff.1 h
    exact hslot.updated hbase v
  · obtain ⟨slot, hslot, rfl⟩ := Store.setItem_eq_ok_iff.1 h
    cases hslot with
    | item lt => exact Store.readable_item.2 ⟨Int.natCast_nonneg _, Int.ofNat_lt.2 lt⟩
    | field => cases ha
  · exact fun limits depth f b k e p s₀ s₁ s₂ room hb hk he => Activation.ends_setItem room hb hk he p

/-- An array that a record holds under two names is put into itself. -/
theorem item_access_laws_self_containing :
    let s : Store := ⟨#[], #[#[.number 1, .number 2]], #[⟨[("x", .array ⟨0⟩), ("y", .array ⟨0⟩)]⟩], ""⟩
    let a := Value.array ⟨0⟩
    (∀ ref ∈ a.refs, ref.In s) ∧
    ∃ t, s.setItem a (.number 1) a = .ok t ∧ t.getItem a (.number 1) = .ok a ∧
      t.getItem a (.number 0) = .ok (.number 1) ∧ t.getItem a (.string "length") = .ok (.number 2) ∧
      t.getItem (.record ⟨0⟩) (.string "x") = .ok a ∧ t.getItem (.record ⟨0⟩) (.string "y") = .ok a ∧
      t.setItem a (.number 1) (.number 7) = s.setItem a (.number 1) (.number 7) ∧
      s.setItem a (.number 2) a = .error (.indexOutOfRange 2 2) := by
  intro s a
  have hbase : ∀ ref ∈ a.refs, ref.In s := List.forall_mem_singleton.2 Nat.zero_lt_one
  have hset := (item_access_laws hbase (.number 1) a).1.2 (.inl ⟨⟨0⟩, 1, rfl, rfl, by decide, by decide⟩)
  obtain ⟨t, ht⟩ := hset
  have hupdated := (item_access_laws hbase (.number 1) a).2.2.1 t ht
  refine ⟨hbase, t, ht, hupdated.written, ?_, ?_, ?_, ?_, hupdated.again _, ?_⟩
  · exact hupdated.elsewhere _ _ (by simp)
  · exact hupdated.elsewhere _ _ (by simp)
  · exact hupdated.elsewhere _ _ (by simp [a])
  · exact hupdated.elsewhere _ _ (by simp [a])
  · refine ((item_access_laws hbase (.number 2) a).2.1 _).2 ⟨?_, rfl⟩
    rintro (⟨_, _, ha, ⟨⟩, -, hlt⟩ | ⟨_, _, ha, -⟩)
    · rw [← Value.array.inj ha] at hlt
      exact absurd hlt (by decide)
    · exact Value.noConfusion ha

end Scripting
