import Scripting.Program
import Scripting.Proofs.Store.Extension

/-!
What a store holds, apart from where its frames were read from and from what was printed. The operations on
a store look neither at the one nor at the other, so they go through a change of both.
-/

set_option autoImplicit false

namespace Scripting

def Frame.bare (f : Frame) : Frame :=
  { f with source := none }

namespace Store

variable {s t : Store} {before after : String}

/-- The frames without their sources, the arrays and the records. -/
def contents (s : Store) : Store :=
  { s with frames := s.frames.map Frame.bare, output := "" }

/-- The contents, behind which more is printed than was: `before` comes first. -/
def bare (before : String) (s : Store) : Store :=
  { s.contents with output := before ++ s.output }

theorem bare_eq_iff :
    s.bare before = t.bare after ↔
      s.contents = t.contents ∧ before ++ s.output = after ++ t.output := by
  simp only [bare, contents, mk.injEq, and_true, and_assoc]

theorem bare_contents (s : Store) : s.contents.bare s.output = s.bare "" := by
  have hbare : Frame.bare ∘ Frame.bare = Frame.bare := rfl
  simp [bare, contents, Array.map_map, hbare]

theorem frame_contents (s : Store) (f : FrameId) : s.contents.frame f = (s.frame f).bare := by
  simp only [frame, contents, Array.getD_eq_getD_getElem?, Array.getElem?_map]
  cases s.frames[f.index]? <;> rfl

theorem vars_of_contents_eq (h : s.contents = t.contents) (f : FrameId) :
    (s.frame f).vars = (t.frame f).vars := by
  have hframe : (s.frame f).bare = (t.frame f).bare := by rw [← frame_contents, h, frame_contents]
  exact (Frame.mk.inj hframe).2.2.2

theorem contents_modifyFrame_source (s : Store) (f : FrameId) (source : Option String) :
    (s.modifyFrame f fun frame => { frame with source }).contents = s.contents := by
  simp only [contents, modifyFrame, mk.injEq, and_true]
  apply Array.ext
  · simp
  · intro i hi hi'
    simp only [Array.getElem_map, Array.getElem_modify]
    split <;> rfl

theorem contents_define (s : Store) (f : FrameId) (name : String) (v : Value) :
    (s.define f name v).contents = s.contents.define f name v := by
  simp only [contents, define, modifyFrame, mk.injEq, and_true]
  apply Array.ext
  · simp
  · intro i hi hi'
    simp only [Array.getElem_map, Array.getElem_modify]
    split <;> rfl

theorem contents_install (s : Store) (f : FrameId) (natives : List Native) :
    (s.install f natives).contents = s.contents.install f natives := by
  induction natives generalizing s with
  | nil => rfl
  | cons fn natives ih =>
    change (install (s.define f fn.name (.native fn)) f natives).contents = _
    rw [ih, contents_define]
    rfl

theorem contents_newRoot (s : Store) (source source' : Option String) :
    (s.newRoot source).2.contents = (s.newRoot source').2.contents := by
  simp only [newRoot, contents_install]
  simp [newFrame, contents, Array.map_push, Frame.bare]

section Reading

variable (s : Store) (before : String)

theorem frame_bare (f : FrameId) : (s.bare before).frame f = (s.frame f).bare :=
  s.frame_contents f

@[simp] theorem parent_bare (f : FrameId) : ((s.bare before).frame f).parent = (s.frame f).parent := by
  rw [frame_bare, Frame.bare]

@[simp] theorem depth_bare (f : FrameId) : ((s.bare before).frame f).depth = (s.frame f).depth := by
  rw [frame_bare, Frame.bare]

@[simp] theorem vars_bare (f : FrameId) : ((s.bare before).frame f).vars = (s.frame f).vars := by
  rw [frame_bare, Frame.bare]

@[simp] theorem holder?_bare (f : FrameId) (name : String) :
    (s.bare before).holder? f name = s.holder? f name := by
  fun_induction s.holder? f name with
  | case1 f hf => rw [holder?, vars_bare, if_pos hf]
  | case2 f hf hp => rw [holder?, vars_bare, if_neg hf, parent_bare, hp]
  | case3 f hf p hp hlt ih =>
    rw [holder?, vars_bare, if_neg hf, parent_bare, hp]
    exact (if_pos hlt).trans ih
  | case4 f hf p hp hlt =>
    rw [holder?, vars_bare, if_neg hf, parent_bare, hp]
    exact if_neg hlt

@[simp] theorem get?_bare (f : FrameId) (name : String) :
    (s.bare before).get? f name = s.get? f name := by
  simp only [get?, holder?_bare, vars_bare]

@[simp] theorem search_bare (costs : Costs) (f : FrameId) (name : String) :
    costs.search (s.bare before) f name = costs.search s f name :=
  costs.search_eq (s.parent_bare before) (s.holder?_bare before f name)

@[simp] theorem getItem_bare (base key : Value) : (s.bare before).getItem base key = s.getItem base key :=
  rfl

@[simp] theorem slot_bare (base key : Value) : (s.bare before).slot base key = s.slot base key := rfl

end Reading

/-! The text of a value depends on arrays and records alone. -/

theorem renderWithin_congr (harrays : s.arrays = t.arrays) (hrecords : s.records = t.records)
    (depth : Nat) : s.renderWithin depth = t.renderWithin depth := by
  have hitems (a : ArrayId) : s.items a = t.items a := by rw [items, items, harrays]
  have hfields (r : RecordId) : s.fields r = t.fields r := by rw [fields, fields, hrecords]
  induction depth with
  | zero =>
    funext v
    cases v <;> simp only [renderWithin]
  | succ depth ih =>
    funext v
    cases v <;> simp only [renderWithin, hitems, hfields, ih]

theorem render_congr (harrays : s.arrays = t.arrays) (hrecords : s.records = t.records)
    (levels : Option Nat) (v : Value) : s.render levels v = t.render levels v := by
  have hdeepest : s.deepest = t.deepest := by rw [deepest, deepest, harrays, hrecords]
  cases levels <;> simp only [render, hdeepest, renderWithin_congr harrays hrecords]

theorem render_of_contents_eq (h : s.contents = t.contents) (levels : Option Nat) (v : Value) :
    s.render levels v = t.render levels v := by
  obtain ⟨-, harrays, hrecords, -⟩ := mk.inj h
  exact render_congr harrays hrecords levels v

@[simp] theorem display_bare (s : Store) (before : String) (levels : Option Nat) :
    (s.bare before).display levels = s.display levels := by
  have hrender (v : Value) : (s.bare before).render levels v = s.render levels v := by
    apply render_congr <;> rfl
  funext v
  cases v <;> simp only [display, hrender]

section Writing

variable (s : Store) (before : String)

theorem bare_write (text : String) : (s.write text).bare before = (s.bare before).write text := by
  simp only [bare, contents, write, String.append_assoc]

theorem bare_define (f : FrameId) (name : String) (v : Value) :
    (s.define f name v).bare before = (s.bare before).define f name v := by
  rw [bare, contents_define]
  rfl

theorem bare_bind (f : FrameId) (names : List String) (vs : List Value) :
    (s.bind f names vs).bare before = (s.bare before).bind f names vs := by
  induction names generalizing s vs with
  | nil => rfl
  | cons name names ih =>
    cases vs with
    | nil => rw [bind, ih, bare_define, bind]
    | cons v vs => rw [bind, ih, bare_define, bind]

theorem bare_newFrame (parent : FrameId) (depth : Option Int) :
    (s.bare before).newFrame (some parent) none depth =
      ((s.newFrame (some parent) none depth).1, (s.newFrame (some parent) none depth).2.bare before) := by
  simp only [newFrame, frame_bare, Option.map_some]
  simp [bare, contents, Frame.bare, Array.map_push]

theorem bare_fill (v : Value) (slot : Slot) : (s.fill v slot).bare before = (s.bare before).fill v slot := by
  cases slot <;> rfl

end Writing

end Store

end Scripting
