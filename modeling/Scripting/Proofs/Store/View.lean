import Scripting.Proofs.Store.Likeness

/-!
Stores of which only a part is seen. A view leaves the shape of a store as it is and replaces the depth of
each frame and each value it holds by what is seen of them. Two stores look the same exactly if they hold,
in the same places, depths and values that look the same; then names are found in the same frames, and the
operations on frames keep it so.
-/

set_option autoImplicit false

namespace Scripting

def Table.map {α β : Type} (g : α → β) (t : Table α) : Table β :=
  ⟨t.entries.map fun e => (e.1, g e.2)⟩

/-- What is seen of a store, if `depth` is seen of a depth and `value` of a value. -/
def Store.view (depth : Int → Int) (value : Value → Value) (s : Store) : Store where
  frames := s.frames.map fun f => ⟨f.parent, f.source, depth f.depth, f.vars.map value⟩
  arrays := s.arrays.map (·.map value)
  records := s.records.map (·.map value)
  output := s.output

structure Frame.Alike (D : Int → Int → Prop) (V : Value → Value → Prop) (f f' : Frame) : Prop where
  parent : f'.parent = f.parent
  source : f'.source = f.source
  depth : D f.depth f'.depth
  vars : f.vars.Alike id V f'.vars

structure Store.FramesAlike (D : Int → Int → Prop) (V : Value → Value → Prop) (s s' : Store) : Prop where
  size : s'.frames.size = s.frames.size
  frame : ∀ f, (s.frame f).Alike D V (s'.frame f)

section Views

variable {α β : Type}

theorem map_eq_map_iff_forall₂ {V : α → α → Prop} {g : α → β} (hV : ∀ a a', V a a' ↔ g a' = g a)
    {l l' : List α} : l'.map g = l.map g ↔ List.Forall₂ V l l' := by
  constructor
  · intro h
    have hrel : List.Forall₂ (· = ·) (l.map g) (l'.map g) := by
      rw [h]
      exact List.forall₂_same.2 fun _ _ => rfl
    rw [List.forall₂_map_left_iff, List.forall₂_map_right_iff] at hrel
    exact hrel.imp fun a a' he => (hV a a').2 he.symm
  · exact fun h => map_eq_of_forall₂ h fun a a' ha => (hV a a').1 ha

theorem map_eq_map_iff_getD {g : α → β} {xs ys : Array α} (d : α) :
    ys.map g = xs.map g ↔ ys.size = xs.size ∧ ∀ i, g (ys.getD i d) = g (xs.getD i d) := by
  constructor
  · intro h
    refine ⟨by simpa using congrArg Array.size h, fun i => ?_⟩
    have hi := congrArg (fun zs => zs[i]?) h
    simp only [Array.getElem?_map] at hi
    simp only [Array.getD_eq_getD_getElem?, ← Option.getD_map g d, hi]
  · rintro ⟨hsize, h⟩
    refine Array.ext (by simpa using hsize) fun i hi hi' => ?_
    have hx := h i
    rw [Array.size_map] at hi hi'
    simpa [Array.getD_eq_getD_getElem?, hi, hi'] using hx

theorem Table.map_eq_map_iff {V : α → α → Prop} {g : α → β} (hV : ∀ a a', V a a' ↔ g a' = g a)
    {t t' : Table α} : t'.map g = t.map g ↔ t.Alike id V t' := by
  rw [Table.map, Table.map, Table.mk.injEq]
  refine map_eq_map_iff_forall₂ fun e e' => ?_
  rw [Prod.mk.injEq, hV]
  rfl

end Views

section Looks

variable {D : Int → Int → Prop} {V : Value → Value → Prop} {depth : Int → Int} {value : Value → Value}
  {s s' : Store}

theorem Store.map_frames_eq_iff (hD : ∀ d d', D d d' ↔ depth d' = depth d)
    (hV : ∀ v v', V v v' ↔ value v' = value v) :
    (s'.view depth value).frames = (s.view depth value).frames ↔ s.FramesAlike D V s' := by
  refine (map_eq_map_iff_getD default).trans ⟨fun h => ⟨h.1, fun f => ?_⟩, fun h => ⟨h.1, fun i => ?_⟩⟩
  · have hf := h.2 f.index
    rw [Frame.mk.injEq] at hf
    exact ⟨hf.1, hf.2.1, (hD _ _).2 hf.2.2.1, (Table.map_eq_map_iff hV).1 hf.2.2.2⟩
  · have hf := h.2 ⟨i⟩
    rw [Frame.mk.injEq]
    exact ⟨hf.parent, hf.source, (hD _ _).1 hf.depth, (Table.map_eq_map_iff hV).2 hf.vars⟩

theorem Store.map_arrays_eq_iff (hV : ∀ v v', V v v' ↔ value v' = value v) :
    s'.arrays.map (·.map value) = s.arrays.map (·.map value) ↔
      s'.arrays.size = s.arrays.size ∧ ∀ a, List.Forall₂ V (s.items a).toList (s'.items a).toList := by
  have hitems (xs xs' : Array Value) :
      xs'.map value = xs.map value ↔ List.Forall₂ V xs.toList xs'.toList := by
    rw [← map_eq_map_iff_forall₂ hV, ← Array.toList_map, ← Array.toList_map, Array.toList_inj]
  refine (map_eq_map_iff_getD #[]).trans (and_congr_right fun _ => ⟨fun h a => ?_, fun h i => ?_⟩)
  · exact (hitems _ _).1 (h a.index)
  · exact (hitems _ _).2 (h ⟨i⟩)

theorem Store.map_records_eq_iff (hV : ∀ v v', V v v' ↔ value v' = value v) :
    s'.records.map (·.map value) = s.records.map (·.map value) ↔
      s'.records.size = s.records.size ∧ ∀ r, (s.fields r).Alike id V (s'.fields r) := by
  refine (map_eq_map_iff_getD .empty).trans (and_congr_right fun _ => ⟨fun h r => ?_, fun h i => ?_⟩)
  · exact (Table.map_eq_map_iff hV).1 (h r.index)
  · exact (Table.map_eq_map_iff hV).2 (h ⟨i⟩)

theorem Store.view_eq_iff (hD : ∀ d d', D d d' ↔ depth d' = depth d)
    (hV : ∀ v v', V v v' ↔ value v' = value v) :
    s'.view depth value = s.view depth value ↔ s.Alike V s' ∧ s.FramesAlike D V s' := by
  constructor
  · intro h
    have harrays := (map_arrays_eq_iff hV).1 (congrArg Store.arrays h)
    have hrecords := (map_records_eq_iff hV).1 (congrArg Store.records h)
    have houtput : (s'.view depth value).output = (s.view depth value).output := by rw [h]
    refine ⟨⟨houtput, harrays.1, harrays.2, hrecords.1, hrecords.2⟩, ?_⟩
    exact (map_frames_eq_iff hD hV).1 (congrArg Store.frames h)
  · rintro ⟨h, hframes⟩
    have hf := (map_frames_eq_iff hD hV).2 hframes
    have ha := (map_arrays_eq_iff hV).2 ⟨h.arrays_size, h.items⟩
    have hr := (map_records_eq_iff hV).2 ⟨h.records_size, h.fields⟩
    exact Store.mk.injEq .. ▸ ⟨hf, ha, hr, h.output⟩

end Looks

namespace Store.FramesAlike

variable {D : Int → Int → Prop} {V : Value → Value → Prop} {s s' t t' : Store}

theorem congr (h : s.FramesAlike D V s') (ht : t.frames = s.frames) (ht' : t'.frames = s'.frames) :
    t.FramesAlike D V t' := by
  refine ⟨by rw [ht, ht', h.size], fun f => ?_⟩
  rw [Store.frame, Store.frame, ht, ht']
  exact h.frame f

theorem contains_eq (h : s.FramesAlike D V s') (f : FrameId) (name : String) :
    (s'.frame f).vars.contains name = (s.frame f).vars.contains name := by
  have hget : Option.Rel V ((s.frame f).vars.get? name) ((s'.frame f).vars.get? name) :=
    (h.frame f).vars.get? name fun _ _ hn => hn
  unfold Table.contains
  generalize (s.frame f).vars.get? name = found, (s'.frame f).vars.get? name = found' at hget
  cases hget <;> rfl

theorem holder?_eq (h : s.FramesAlike D V s') (f : FrameId) (name : String) :
    s'.holder? f name = s.holder? f name := by
  fun_induction Store.holder? s f name with
  | case1 f hc => rw [Store.holder?, h.contains_eq, if_pos hc]
  | case2 f hc hp => rw [Store.holder?, h.contains_eq, if_neg hc, (h.frame f).parent, hp]
  | case3 f hc p hp hlt ih =>
    rw [Store.holder?, h.contains_eq, if_neg hc, (h.frame f).parent, hp]
    simp only [if_pos hlt, ih]
  | case4 f hc p hp hlt =>
    rw [Store.holder?, h.contains_eq, if_neg hc, (h.frame f).parent, hp]
    simp only [if_neg hlt]

theorem get? (h : s.FramesAlike D V s') (f : FrameId) (name : String) :
    Option.Rel V (s.get? f name) (s'.get? f name) := by
  unfold Store.get?
  rw [h.holder?_eq]
  cases s.holder? f name with
  | none => exact .none
  | some g => exact (h.frame g).vars.get? name fun _ _ hn => hn

theorem define (h : s.FramesAlike D V s') (f : FrameId) (name : String) {v v' : Value} (hv : V v v') :
    (s.define f name v).FramesAlike D V (s'.define f name v') := by
  refine ⟨by simpa using h.size, fun g => ?_⟩
  have hg := h.frame g
  rw [frame_define, frame_define, h.size]
  split
  · exact ⟨hg.parent, hg.source, hg.depth, hg.vars.put hv fun _ _ hn => hn⟩
  · exact hg

theorem bind (h : s.FramesAlike D V s') (hnothing : V .nothing .nothing) (f : FrameId)
    (names : List String) {vs vs' : List Value} (hvs : List.Forall₂ V vs vs') :
    (s.bind f names vs).FramesAlike D V (s'.bind f names vs') := by
  induction names generalizing s s' vs vs' with
  | nil => exact h
  | cons name names ih =>
    cases hvs with
    | nil => exact ih (h.define f name hnothing) .nil
    | cons hv hvs => exact ih (h.define f name hv) hvs

theorem newFrame (h : s.FramesAlike D V s') (parent : Option FrameId) (source : Option String)
    (depth depth' : Option Int)
    (hd : D ((depth <|> (parent.map s.frame).map (·.depth)).getD 0)
      ((depth' <|> (parent.map s'.frame).map (·.depth)).getD 0)) :
    (s.newFrame parent source depth).2.FramesAlike D V (s'.newFrame parent source depth').2 := by
  refine ⟨by simpa using h.size, fun g => ?_⟩
  rw [frame_newFrame, frame_newFrame, h.size]
  split
  · refine ⟨rfl, ?_, hd, .empty⟩
    cases parent with
    | none => rfl
    | some p => simp only [Option.map_some, Option.bind_some, (h.frame p).source]
  · exact h.frame g

end Store.FramesAlike

end Scripting
