import Scripting.Evaluation.Call
import Scripting.Store.Item

/-!
What the operations on a store leave as it was. A store extends another one if nothing was taken back on
the way: frames keep their place in the chain, their depth and their names, arrays do not get shorter,
records keep their names, and the printed text goes on.
-/

set_option autoImplicit false

namespace Scripting

section Arrays

variable {α : Type}

theorem getD_push (xs : Array α) (x d : α) (i : Nat) :
    (xs.push x).getD i d = if i = xs.size then x else xs.getD i d := by
  simp only [Array.getD_eq_getD_getElem?, Array.getElem?_push]
  split <;> rfl

theorem getD_modify (xs : Array α) (j i : Nat) (g : α → α) (d : α) :
    (xs.modify j g).getD i d = if j = i ∧ i < xs.size then g (xs.getD i d) else xs.getD i d := by
  simp only [Array.getD_eq_getD_getElem?, Array.getElem?_modify]
  by_cases hj : j = i
  · by_cases hi : i < xs.size
    · simp [hj, hi]
    · simp [hj, hi]
  · simp [hj]

end Arrays

theorem Table.names_prefix_put {α : Type} (t : Table α) (name : String) (a : α) :
    t.names <+: (t.put name a).names := by
  rw [Table.names_put]
  split
  · exact List.prefix_rfl
  · exact List.prefix_append _ _

namespace Store

/-! What is found in a frame, an array or a record after an operation. -/

theorem frame_newFrame (s : Store) (parent : Option FrameId) (source : Option String)
    (depth : Option Int) (f : FrameId) :
    (s.newFrame parent source depth).2.frame f = if f.index = s.frames.size then
      ⟨parent, source <|> (parent.map s.frame).bind (·.source),
        (depth <|> (parent.map s.frame).map (·.depth)).getD 0, .empty⟩
    else s.frame f :=
  getD_push _ _ _ _

theorem frame_newFrame_self (s : Store) (parent : Option FrameId) (source : Option String)
    (depth : Option Int) :
    (s.newFrame parent source depth).2.frame (s.newFrame parent source depth).1 =
      ⟨parent, source <|> (parent.map s.frame).bind (·.source),
        (depth <|> (parent.map s.frame).map (·.depth)).getD 0, .empty⟩ :=
  (frame_newFrame s parent source depth _).trans (if_pos rfl)

theorem frame_define (s : Store) (f : FrameId) (name : String) (v : Value) (g : FrameId) :
    (s.define f name v).frame g = if f.index = g.index ∧ g.index < s.frames.size then
      { s.frame g with vars := (s.frame g).vars.put name v } else s.frame g :=
  getD_modify _ _ _ _ _

theorem frame_define_self (s : Store) {f : FrameId} (hf : f.index < s.frames.size) (name : String)
    (v : Value) :
    (s.define f name v).frame f = { s.frame f with vars := (s.frame f).vars.put name v } :=
  (frame_define s f name v f).trans (if_pos ⟨rfl, hf⟩)

theorem frame_define_of_ne (s : Store) {f g : FrameId} (h : f ≠ g) (name : String) (v : Value) :
    (s.define f name v).frame g = s.frame g :=
  (frame_define s f name v g).trans (if_neg fun hc => h (congrArg FrameId.mk hc.1))

theorem items_newArray (s : Store) (items : Array Value) (a : ArrayId) :
    (s.newArray items).2.items a = if a.index = s.arrays.size then items else s.items a :=
  getD_push _ _ _ _

theorem items_modifyArray (s : Store) (a b : ArrayId) (g : Array Value → Array Value) :
    (s.modifyArray a g).items b =
      if a.index = b.index ∧ b.index < s.arrays.size then g (s.items b) else s.items b :=
  getD_modify _ _ _ _ _

theorem fields_newRecord (s : Store) (fields : Table Value) (r : RecordId) :
    (s.newRecord fields).2.fields r = if r.index = s.records.size then fields else s.fields r :=
  getD_push _ _ _ _

theorem fields_modifyRecord (s : Store) (r q : RecordId) (g : Table Value → Table Value) :
    (s.modifyRecord r g).fields q =
      if r.index = q.index ∧ q.index < s.records.size then g (s.fields q) else s.fields q :=
  getD_modify _ _ _ _ _

theorem frame_of_size_le {s : Store} {f : FrameId} (h : s.frames.size ≤ f.index) :
    s.frame f = default := by
  rw [frame, Array.getD_eq_getD_getElem?, Array.getElem?_eq_none h]
  rfl

theorem items_of_size_le {s : Store} {a : ArrayId} (h : s.arrays.size ≤ a.index) :
    s.items a = #[] := by
  rw [items, Array.getD_eq_getD_getElem?, Array.getElem?_eq_none h]
  rfl

theorem fields_of_size_le {s : Store} {r : RecordId} (h : s.records.size ≤ r.index) :
    s.fields r = .empty := by
  rw [fields, Array.getD_eq_getD_getElem?, Array.getElem?_eq_none h]
  rfl

@[simp] theorem size_frames_define (s : Store) (f : FrameId) (name : String) (v : Value) :
    (s.define f name v).frames.size = s.frames.size :=
  Array.size_modify

@[simp] theorem size_frames_newFrame (s : Store) (parent : Option FrameId)
    (source : Option String) (depth : Option Int) :
    (s.newFrame parent source depth).2.frames.size = s.frames.size + 1 :=
  Array.size_push _

theorem newFrame_lt (s : Store) (parent : Option FrameId) (source : Option String)
    (depth : Option Int) :
    (s.newFrame parent source depth).1.index < (s.newFrame parent source depth).2.frames.size := by
  rw [size_frames_newFrame]
  exact Nat.lt_succ_self _

@[simp] theorem size_arrays_newArray (s : Store) (items : Array Value) :
    (s.newArray items).2.arrays.size = s.arrays.size + 1 :=
  Array.size_push _

@[simp] theorem size_arrays_modifyArray (s : Store) (a : ArrayId) (g : Array Value → Array Value) :
    (s.modifyArray a g).arrays.size = s.arrays.size :=
  Array.size_modify

@[simp] theorem size_records_newRecord (s : Store) (fields : Table Value) :
    (s.newRecord fields).2.records.size = s.records.size + 1 :=
  Array.size_push _

@[simp] theorem size_records_modifyRecord (s : Store) (r : RecordId)
    (g : Table Value → Table Value) : (s.modifyRecord r g).records.size = s.records.size :=
  Array.size_modify

end Store

/-- A frame later on: it stands where it stood and has kept its names. -/
structure Frame.Extends (f g : Frame) : Prop where
  parent : g.parent = f.parent
  source : g.source = f.source
  depth : g.depth = f.depth
  names : f.vars.names <+: g.vars.names

structure Store.Extends (s t : Store) : Prop where
  frames_size : s.frames.size ≤ t.frames.size
  frame : ∀ f : FrameId, f.index < s.frames.size → (s.frame f).Extends (t.frame f)
  arrays_size : s.arrays.size ≤ t.arrays.size
  items : ∀ a : ArrayId, (s.items a).size ≤ (t.items a).size
  records_size : s.records.size ≤ t.records.size
  fields : ∀ r : RecordId, (s.fields r).names <+: (t.fields r).names
  output : ∃ text, t.output = s.output ++ text

theorem Frame.Extends.refl (f : Frame) : f.Extends f :=
  ⟨rfl, rfl, rfl, List.prefix_rfl⟩

theorem Frame.Extends.trans {f g h : Frame} (hg : f.Extends g) (hh : g.Extends h) : f.Extends h :=
  ⟨hh.parent.trans hg.parent, hh.source.trans hg.source, hh.depth.trans hg.depth,
    hg.names.trans hh.names⟩

namespace Store.Extends

theorem refl (s : Store) : s.Extends s where
  frames_size := Nat.le_refl _
  frame _ _ := .refl _
  arrays_size := Nat.le_refl _
  items _ := Nat.le_refl _
  records_size := Nat.le_refl _
  fields _ := List.prefix_rfl
  output := ⟨"", String.append_empty.symm⟩

theorem trans {s t u : Store} (h : s.Extends t) (h' : t.Extends u) : s.Extends u where
  frames_size := Nat.le_trans h.frames_size h'.frames_size
  frame f hf := (h.frame f hf).trans (h'.frame f (Nat.lt_of_lt_of_le hf h.frames_size))
  arrays_size := Nat.le_trans h.arrays_size h'.arrays_size
  items a := Nat.le_trans (h.items a) (h'.items a)
  records_size := Nat.le_trans h.records_size h'.records_size
  fields r := (h.fields r).trans (h'.fields r)
  output := by
    obtain ⟨x, hx⟩ := h.output
    obtain ⟨y, hy⟩ := h'.output
    exact ⟨x ++ y, by rw [hy, hx, String.append_assoc]⟩

theorem write (s : Store) (text : String) : s.Extends (s.write text) :=
  { refl s with output := ⟨text, rfl⟩ }

theorem newArray (s : Store) (items : Array Value) : s.Extends (s.newArray items).2 :=
  { refl s with
    arrays_size := by rw [size_arrays_newArray]; omega
    items := fun a => by
      rw [items_newArray]
      split
      · rename_i h
        rw [items_of_size_le (Nat.le_of_eq h.symm)]
        exact Nat.zero_le _
      · exact Nat.le_refl _ }

theorem newRecord (s : Store) (fields : Table Value) : s.Extends (s.newRecord fields).2 :=
  { refl s with
    records_size := by rw [size_records_newRecord]; omega
    fields := fun r => by
      rw [fields_newRecord]
      split
      · rename_i h
        rw [fields_of_size_le (Nat.le_of_eq h.symm)]
        exact List.nil_prefix
      · exact List.prefix_rfl }

theorem modifyArray (s : Store) (a : ArrayId) {g : Array Value → Array Value}
    (hg : ∀ xs, xs.size ≤ (g xs).size) : s.Extends (s.modifyArray a g) :=
  { refl s with
    arrays_size := Nat.le_of_eq (size_arrays_modifyArray s a g).symm
    items := fun b => by
      rw [items_modifyArray]
      split
      · exact hg _
      · exact Nat.le_refl _ }

theorem modifyRecord (s : Store) (r : RecordId) {g : Table Value → Table Value}
    (hg : ∀ t, t.names <+: (g t).names) : s.Extends (s.modifyRecord r g) :=
  { refl s with
    records_size := Nat.le_of_eq (size_records_modifyRecord s r g).symm
    fields := fun q => by
      rw [fields_modifyRecord]
      split
      · exact hg _
      · exact List.prefix_rfl }

theorem fill (s : Store) (v : Value) (slot : Slot) : s.Extends (s.fill v slot) := by
  cases slot with
  | item a k => exact .modifyArray s a fun xs => Nat.le_of_eq Array.size_setIfInBounds.symm
  | field r name => exact .modifyRecord s r fun t => t.names_prefix_put name v

theorem newFrame (s : Store) (parent : Option FrameId) (source : Option String)
    (depth : Option Int) : s.Extends (s.newFrame parent source depth).2 :=
  { refl s with
    frames_size := by rw [size_frames_newFrame]; omega
    frame := fun f hf => by
      rw [frame_newFrame, if_neg (Nat.ne_of_lt hf)]
      exact .refl _ }

theorem define (s : Store) (f : FrameId) (name : String) (v : Value) :
    s.Extends (s.define f name v) :=
  { refl s with
    frames_size := Nat.le_of_eq (size_frames_define s f name v).symm
    frame := fun g _ => by
      rw [frame_define]
      split
      · exact ⟨rfl, rfl, rfl, Table.names_prefix_put _ _ _⟩
      · exact .refl _ }

theorem bind (s : Store) (f : FrameId) (names : List String) (vs : List Value) :
    s.Extends (s.bind f names vs) := by
  induction names generalizing s vs with
  | nil => exact refl s
  | cons name names ih =>
    cases vs with
    | nil => exact (define s f name .nothing).trans (ih _ _)
    | cons v vs => exact (define s f name v).trans (ih _ _)

end Store.Extends

end Scripting
