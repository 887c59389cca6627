import Scripting.Proofs.Store.Extension

/-!
The references in a store. A store is well-formed if everything that it refers to exists in it and every
frame is younger than the frame around it; then the chain of frames from any frame outwards is finite,
and a name is looked up along it.
-/

set_option autoImplicit false

namespace Scripting

theorem Table.mem_replace {α : Type} {name : String} {a : α} {entries : List (String × α)}
    {e : String × α} (h : e ∈ Table.replace name a entries) : e ∈ entries ∨ e = (name, a) := by
  induction entries with
  | nil => exact .inr (List.mem_singleton.1 h)
  | cons x rest ih =>
    obtain ⟨n, b⟩ := x
    unfold replace at h
    split at h
    · rcases List.mem_cons.1 h with rfl | h
      · exact .inr rfl
      · exact .inl (List.mem_cons_of_mem _ h)
    · rcases List.mem_cons.1 h with rfl | h
      · exact .inl List.mem_cons_self
      · rcases ih h with h | h
        · exact .inl (List.mem_cons_of_mem _ h)
        · exact .inr h

theorem Table.mem_put {α : Type} {t : Table α} {name : String} {a : α} {e : String × α}
    (h : e ∈ (t.put name a).entries) : e ∈ t.entries ∨ e = (name, a) :=
  Table.mem_replace h

theorem Table.mem_of_get? {α : Type} {t : Table α} {name : String} {a : α}
    (h : t.get? name = some a) : (name, a) ∈ t.entries := by
  obtain ⟨entries⟩ := t
  change entries.lookup name = some a at h
  obtain ⟨xs, ys, rfl, -⟩ := List.lookup_eq_some_iff.1 h
  simp

inductive Ref where
  | frame (f : FrameId)
  | array (a : ArrayId)
  | record (r : RecordId)
deriving DecidableEq, Repr

def Ref.In (s : Store) : Ref → Prop
  | .frame f => f.index < s.frames.size
  | .array a => a.index < s.arrays.size
  | .record r => r.index < s.records.size

theorem Ref.In.mono {s t : Store} (h : s.Extends t) {ref : Ref} (hr : ref.In s) : ref.In t := by
  cases ref with
  | frame f => exact Nat.lt_of_lt_of_le hr h.frames_size
  | array a => exact Nat.lt_of_lt_of_le hr h.arrays_size
  | record r => exact Nat.lt_of_lt_of_le hr h.records_size

/-- The references of the value itself: the content of an array is not part of it. -/
def Value.refs : Value → List Ref
  | .array a => [.array a]
  | .record r => [.record r]
  | .function c => [.frame c.scope]
  | .native fn => fn.bound.toList.map .array
  | .nothing | .number _ | .string _ | .boolean _ => []

namespace Store

/-- The value stands in a frame, an array or a record of the store. -/
inductive Holds (s : Store) : Value → Prop where
  | binding {f : FrameId} {e : String × Value} (h : e ∈ (s.frame f).vars.entries) : Holds s e.2
  | item {a : ArrayId} {v : Value} (h : v ∈ s.items a) : Holds s v
  | field {r : RecordId} {e : String × Value} (h : e ∈ (s.fields r).entries) : Holds s e.2

inductive Refers (s : Store) : Ref → Prop where
  | held {v : Value} {ref : Ref} (h : s.Holds v) (hr : ref ∈ v.refs) : Refers s ref
  | parent {f p : FrameId} (h : (s.frame f).parent = some p) : Refers s (.frame p)

structure WellFormed (s : Store) : Prop where
  exists_of_refers : ∀ ref, s.Refers ref → ref.In s
  parent_lt : ∀ f p, (s.frame f).parent = some p → p.index < f.index

/-- The frames from a frame outwards, to one that stands in no other. -/
inductive Chain (s : Store) : FrameId → List FrameId → Prop where
  | last {f : FrameId} (h : (s.frame f).parent = none) : Chain s f [f]
  | more {f p : FrameId} {fs : List FrameId} (h : (s.frame f).parent = some p)
      (rest : Chain s p fs) : Chain s f (f :: fs)

theorem exists_chain {s : Store} (h : ∀ f p, (s.frame f).parent = some p → p.index < f.index)
    (f : FrameId) : ∃ fs, s.Chain f fs ∧ fs.length ≤ f.index + 1 := by
  induction hf : f.index using Nat.strongRecOn generalizing f with
  | _ i ih =>
    subst hf
    cases hp : (s.frame f).parent with
    | none => exact ⟨[f], .last hp, by simp⟩
    | some p =>
      have hlt := h f p hp
      obtain ⟨fs, hfs, hlength⟩ := ih p.index hlt p rfl
      refine ⟨f :: fs, .more hp hfs, ?_⟩
      rw [List.length_cons]
      omega

theorem Chain.holder?_eq {s : Store} (h : ∀ f p, (s.frame f).parent = some p → p.index < f.index)
    {f : FrameId} {fs : List FrameId} (hc : s.Chain f fs) (name : String) :
    s.holder? f name = fs.find? fun g => (s.frame g).vars.contains name := by
  induction hc with
  | last hp =>
    rw [holder?]
    split
    · rename_i hn; simp [hn]
    · rename_i hn; simp [hp, hn]
  | more hp _ ih =>
    rw [holder?]
    split
    · rename_i hn; simp [hn]
    · rename_i hn
      simp only [hp, h _ _ hp, if_true, ih]
      simp [hn]

theorem not_holds_empty {v : Value} : ¬Store.empty.Holds v := by
  intro h
  cases h with
  | binding h =>
    rw [frame_of_size_le (Nat.zero_le _)] at h
    cases h
  | item h =>
    rw [items_of_size_le (Nat.zero_le _)] at h
    simp at h
  | field h =>
    rw [fields_of_size_le (Nat.zero_le _)] at h
    cases h

/-! The values that are read from a store. -/

theorem holds_of_get? {s : Store} {f : FrameId} {name : String} {v : Value}
    (h : s.get? f name = some v) : s.Holds v := by
  obtain ⟨g, -, hg⟩ := Option.bind_eq_some_iff.1 h
  exact .binding (Table.mem_of_get? hg)

theorem lt_of_index {length k : Nat} {i : Int} (h : index length i = .ok k) : k < length := by
  unfold index at h
  split at h
  · cases h
  · split at h
    · cases h
      omega
    · cases h

/-- An item stands in the array or record it is read from, unless it is a member that is made on the
    spot: the length of an array, or its `push`. -/
theorem getItem_cases {s : Store} {base key v : Value} (h : s.getItem base key = .ok v) :
    (∃ a, base = .array a ∧ v ∈ s.items a) ∨
      (∃ r name, base = .record r ∧ (name, v) ∈ (s.fields r).entries) ∨
      (∃ a, base = .array a ∧ v = .native ⟨"push", .push, some a⟩) ∨
      ∃ a, base = .array a ∧ v = .number (s.items a).size := by
  unfold getItem at h
  split at h
  · rename_i a i
    cases hi : index (s.items a).size i with
    | error fault => rw [hi] at h; cases h
    | ok k =>
      rw [hi] at h
      cases h
      refine .inl ⟨a, rfl, ?_⟩
      rw [Array.getD_eq_getD_getElem?, Array.getElem?_eq_getElem (lt_of_index hi)]
      exact Array.getElem_mem _
  · rename_i a name
    unfold arrayMember at h
    split at h
    · cases h
      exact .inr (.inr (.inr ⟨a, rfl, rfl⟩))
    · cases h
      exact .inr (.inr (.inl ⟨a, rfl, rfl⟩))
    · cases h
  · rename_i r name
    split at h
    · rename_i hf
      cases h
      exact .inr (.inl ⟨r, name, rfl, Table.mem_of_get? hf⟩)
    · cases h
  · cases h

/-! The values that a store holds after an operation. -/

theorem Holds.of_define {s : Store} {f : FrameId} {name : String} {v w : Value}
    (h : (s.define f name v).Holds w) : s.Holds w ∨ w = v := by
  cases h with
  | binding h =>
    rw [frame_define] at h
    split at h
    · rcases Table.mem_put h with h | h
      · exact .inl (.binding h)
      · exact .inr (by rw [h])
    · exact .inl (.binding h)
  | item h => exact .inl (.item h)
  | field h => exact .inl (.field h)

theorem Holds.of_newFrame {s : Store} {parent : Option FrameId} {source : Option String}
    {depth : Option Int} {w : Value} (h : (s.newFrame parent source depth).2.Holds w) :
    s.Holds w := by
  cases h with
  | binding h =>
    rw [frame_newFrame] at h
    split at h
    · cases h
    · exact .binding h
  | item h => exact .item h
  | field h => exact .field h

theorem Holds.of_newArray {s : Store} {items : Array Value} {w : Value}
    (h : (s.newArray items).2.Holds w) : s.Holds w ∨ w ∈ items := by
  cases h with
  | binding h => exact .inl (.binding h)
  | item h =>
    rw [items_newArray] at h
    split at h
    · exact .inr h
    · exact .inl (.item h)
  | field h => exact .inl (.field h)

theorem Holds.of_newRecord {s : Store} {fields : Table Value} {w : Value}
    (h : (s.newRecord fields).2.Holds w) : s.Holds w ∨ ∃ e ∈ fields.entries, w = e.2 := by
  cases h with
  | binding h => exact .inl (.binding h)
  | item h => exact .inl (.item h)
  | field h =>
    rw [fields_newRecord] at h
    split at h
    · exact .inr ⟨_, h, rfl⟩
    · exact .inl (.field h)

theorem Holds.of_modifyArray {s : Store} {a : ArrayId} {g : Array Value → Array Value} {w : Value}
    (h : (s.modifyArray a g).Holds w) : s.Holds w ∨ w ∈ g (s.items a) := by
  cases h with
  | binding h => exact .inl (.binding h)
  | @item b _ h =>
    rw [items_modifyArray] at h
    split at h
    · rename_i hb
      obtain rfl : a = b := congrArg ArrayId.mk hb.1
      exact .inr h
    · exact .inl (.item h)
  | field h => exact .inl (.field h)

theorem Holds.of_fill {s : Store} {v w : Value} {slot : Slot} (h : (s.fill v slot).Holds w) :
    s.Holds w ∨ w = v := by
  cases slot with
  | item a k =>
    rcases Holds.of_modifyArray h with h | h
    · exact .inl h
    · rcases Array.mem_or_eq_of_mem_setIfInBounds h with h | h
      · exact .inl (.item h)
      · exact .inr h
  | field r name =>
    cases h with
    | binding h => exact .inl (.binding h)
    | item h => exact .inl (.item h)
    | field h =>
      rw [fill, fields_modifyRecord] at h
      split at h
      · rcases Table.mem_put h with h | h
        · exact .inl (.field h)
        · exact .inr (by rw [h])
      · exact .inl (.field h)

theorem Holds.of_write {s : Store} {text : String} {w : Value} (h : (s.write text).Holds w) :
    s.Holds w := by
  cases h with
  | binding h => exact .binding h
  | item h => exact .item h
  | field h => exact .field h

def AllHold (p : Value → Prop) (s : Store) : Prop :=
  ∀ v, s.Holds v → p v

namespace AllHold

variable {p : Value → Prop} {s : Store}

theorem empty : AllHold p .empty :=
  fun _ hv => (not_holds_empty hv).elim

theorem define {v : Value} (hs : s.AllHold p) (f : FrameId) (name : String) (hv : p v) :
    (s.define f name v).AllHold p := by
  intro w hw
  rcases hw.of_define with hw | rfl
  · exact hs w hw
  · exact hv

theorem bind {vs : List Value} (hs : s.AllHold p) (f : FrameId) (names : List String)
    (hnothing : p .nothing) (hv : ∀ v ∈ vs, p v) : (s.bind f names vs).AllHold p := by
  induction names generalizing s vs with
  | nil => exact hs
  | cons name names ih =>
    cases vs with
    | nil => exact ih (hs.define f name hnothing) nofun
    | cons v vs =>
      rw [List.forall_mem_cons] at hv
      exact ih (hs.define f name hv.1) hv.2

theorem newFrame (hs : s.AllHold p) (parent : Option FrameId) (source : Option String)
    (depth : Option Int) : (s.newFrame parent source depth).2.AllHold p :=
  fun w hw => hs w hw.of_newFrame

theorem newArray {items : Array Value} (hs : s.AllHold p) (hv : ∀ v ∈ items, p v) :
    (s.newArray items).2.AllHold p := by
  intro w hw
  rcases hw.of_newArray with hw | hw
  · exact hs w hw
  · exact hv w hw

theorem newRecord {fields : Table Value} (hs : s.AllHold p) (hv : ∀ e ∈ fields.entries, p e.2) :
    (s.newRecord fields).2.AllHold p := by
  intro w hw
  rcases hw.of_newRecord with hw | ⟨e, he, rfl⟩
  · exact hs w hw
  · exact hv e he

theorem append {args : List Value} (hs : s.AllHold p) (a : ArrayId) (hv : ∀ v ∈ args, p v) :
    (s.modifyArray a (· ++ args.toArray)).AllHold p := by
  intro w hw
  rcases hw.of_modifyArray with hw | hw
  · exact hs w hw
  · rcases Array.mem_append.1 hw with hw | hw
    · exact hs w (.item hw)
    · exact hv w (by simpa using hw)

theorem fill {v : Value} (hs : s.AllHold p) (slot : Slot) (hv : p v) : (s.fill v slot).AllHold p := by
  intro w hw
  rcases hw.of_fill with hw | rfl
  · exact hs w hw
  · exact hv

theorem write (hs : s.AllHold p) (text : String) : (s.write text).AllHold p :=
  fun w hw => hs w hw.of_write

theorem getItem {base key v : Value} (hs : s.AllHold p)
    (hpush : ∀ a, p (.native ⟨"push", .push, some a⟩)) (hlength : ∀ a, p (.number (s.items a).size))
    (h : s.getItem base key = .ok v) : p v := by
  rcases getItem_cases h with ⟨a, -, hm⟩ | ⟨r, name, -, hm⟩ | ⟨a, -, rfl⟩ | ⟨a, -, rfl⟩
  · exact hs v (.item hm)
  · exact hs _ (.field hm)
  · exact hpush a
  · exact hlength a

end AllHold

end Store

end Scripting
