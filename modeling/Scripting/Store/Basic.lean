import Scripting.Table
import Scripting.Value

/-!
The store of a running program: its frames, arrays and records, and the text it has printed. Frames,
arrays and records are numbered in the order in which they were made and are never given up.
-/

set_option autoImplicit false

namespace Scripting

/-- A scope: its names, and the scope around it. The depth counts the function calls that are active in
    it. -/
structure Frame where
  parent : Option FrameId
  source : Option String
  depth : Int
  vars : Table Value
deriving Inhabited

structure Store where
  frames : Array Frame
  arrays : Array (Array Value)
  records : Array (Table Value)
  output : String
deriving Inhabited

namespace Store

def empty : Store := ⟨#[], #[], #[], ""⟩

def write (s : Store) (text : String) : Store :=
  { s with output := s.output ++ text }

/-! Arrays and records. -/

def items (s : Store) (a : ArrayId) : Array Value :=
  s.arrays.getD a.index #[]

def fields (s : Store) (r : RecordId) : Table Value :=
  s.records.getD r.index .empty

def newArray (s : Store) (items : Array Value) : ArrayId × Store :=
  (⟨s.arrays.size⟩, { s with arrays := s.arrays.push items })

def newRecord (s : Store) (fields : Table Value) : RecordId × Store :=
  (⟨s.records.size⟩, { s with records := s.records.push fields })

def modifyArray (s : Store) (a : ArrayId) (f : Array Value → Array Value) : Store :=
  { s with arrays := s.arrays.modify a.index f }

def modifyRecord (s : Store) (r : RecordId) (f : Table Value → Table Value) : Store :=
  { s with records := s.records.modify r.index f }

/-! Frames. -/

def frame (s : Store) (f : FrameId) : Frame :=
  s.frames.getD f.index default

def newFrame (s : Store) (parent : Option FrameId) (source : Option String) (depth : Option Int) :
    FrameId × Store :=
  let outer := parent.map s.frame
  let source := source <|> outer.bind (·.source)
  let depth := (depth <|> outer.map (·.depth)).getD 0
  (⟨s.frames.size⟩, { s with frames := s.frames.push ⟨parent, source, depth, .empty⟩ })

def modifyFrame (s : Store) (f : FrameId) (g : Frame → Frame) : Store :=
  { s with frames := s.frames.modify f.index g }

def define (s : Store) (f : FrameId) (name : String) (v : Value) : Store :=
  s.modifyFrame f fun frame => { frame with vars := frame.vars.put name v }

/-- The innermost frame that holds a name, from the given one outwards. A frame is younger than the
    frame around it. -/
def holder? (s : Store) (f : FrameId) (name : String) : Option FrameId :=
  if (s.frame f).vars.contains name then some f
  else
    match (s.frame f).parent with
    | none => none
    | some p => if p.index < f.index then s.holder? p name else none
termination_by f.index

/-- How many links lead from a frame to the innermost one that holds a name, or to the outermost one if none
    does. -/
def reach (s : Store) (f : FrameId) (name : String) : Nat :=
  if (s.frame f).vars.contains name then 0
  else
    match (s.frame f).parent with
    | none => 0
    | some p => if p.index < f.index then s.reach p name + 1 else 0
termination_by f.index

def get? (s : Store) (f : FrameId) (name : String) : Option Value :=
  (s.holder? f name).bind fun h => (s.frame h).vars.get? name

def set? (s : Store) (f : FrameId) (name : String) (v : Value) : Option Store :=
  (s.holder? f name).map fun h => s.define h name v

theorem holder?_of_not_contains {s : Store} {f p : FrameId} {name : String}
    (hf : ¬(s.frame f).vars.contains name) (hp : (s.frame f).parent = some p) (hlt : p.index < f.index) :
    s.holder? f name = s.holder? p name := by
  rw [holder?, if_neg hf, hp]
  exact if_pos hlt

theorem reach_of_not_contains {s : Store} {f p : FrameId} {name : String}
    (hf : ¬(s.frame f).vars.contains name) (hp : (s.frame f).parent = some p) (hlt : p.index < f.index) :
    s.reach f name = s.reach p name + 1 := by
  rw [reach, if_neg hf, hp]
  exact if_pos hlt

theorem index_le_of_holder? {s : Store} {f g : FrameId} {name : String} (h : s.holder? f name = some g) :
    g.index ≤ f.index := by
  fun_induction s.holder? f name with
  | case1 => cases h; exact Nat.le_refl _
  | case2 => cases h
  | case3 f _ p _ hlt ih => exact Nat.le_trans (ih h) (Nat.le_of_lt hlt)
  | case4 => cases h

theorem contains_iff_holder? {s : Store} {f : FrameId} {name : String} :
    (s.frame f).vars.contains name ↔ s.holder? f name = some f := by
  rw [holder?]
  split
  · rename_i h; exact iff_of_true h rfl
  · rename_i h
    refine iff_of_false h fun hf => ?_
    split at hf
    · cases hf
    · split at hf
      · exact absurd (index_le_of_holder? hf) (Nat.not_le.2 ‹_›)
      · cases hf

theorem reach_eq_of_holder?_eq {s s' : Store} {name name' : String}
    {f : FrameId} (hparent : ∀ g : FrameId, g.index ≤ f.index → (s'.frame g).parent = (s.frame g).parent)
    (h : s'.holder? f name' = s.holder? f name) : s'.reach f name' = s.reach f name := by
  have hcontains : (s'.frame f).vars.contains name' = (s.frame f).vars.contains name := by
    rw [Bool.eq_iff_iff, contains_iff_holder?, contains_iff_holder?, h]
  fun_induction s.reach f name with
  | case1 f hf => rw [reach, hcontains, if_pos hf]
  | case2 f hf hp => rw [reach, hcontains, if_neg hf, hparent f (Nat.le_refl _), hp]
  | case3 f hf p hp hlt ih =>
    have hf' : ¬(s'.frame f).vars.contains name' := hcontains ▸ hf
    have hp' : (s'.frame f).parent = some p := (hparent f (Nat.le_refl _)).trans hp
    have hup : s'.holder? p name' = s.holder? p name := by
      rw [← holder?_of_not_contains hf' hp' hlt, h, holder?_of_not_contains hf hp hlt]
    rw [reach_of_not_contains hf' hp' hlt, ih (fun g hg => hparent g (Nat.le_trans hg (Nat.le_of_lt hlt))) hup]
    rw [Bool.eq_iff_iff, contains_iff_holder?, contains_iff_holder?, hup]
  | case4 f hf p hp hlt =>
    rw [reach, hcontains, if_neg hf, hparent f (Nat.le_refl _), hp]
    simp only [if_neg hlt]

end Store

end Scripting
