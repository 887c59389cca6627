import Mathlib.Logic.Relation
import Scripting.Proofs.Store.References

/-!
Regions of a store: sets of frames, arrays and records that nothing in them leads out of. Frames lead to
the frames around them and to what their bindings refer to, arrays to what their items refer to, records
to what their fields refer to. An operation on something in a region, with values that refer into the
region, leaves it a region and everything outside as it was.
-/

set_option autoImplicit false

namespace Scripting

namespace Store

inductive Points (s : Store) : Ref → Ref → Prop where
  | parent {f p : FrameId} (h : (s.frame f).parent = some p) : Points s (.frame f) (.frame p)
  | binding {f : FrameId} {e : String × Value} {ref : Ref} (h : e ∈ (s.frame f).vars.entries)
      (hr : ref ∈ e.2.refs) : Points s (.frame f) ref
  | item {a : ArrayId} {v : Value} {ref : Ref} (h : v ∈ s.items a) (hr : ref ∈ v.refs) :
      Points s (.array a) ref
  | field {r : RecordId} {e : String × Value} {ref : Ref} (h : e ∈ (s.fields r).entries)
      (hr : ref ∈ e.2.refs) : Points s (.record r) ref

/-- The second object can be reached from the first. -/
def Reaches (s : Store) : Ref → Ref → Prop :=
  Relation.ReflTransGen s.Points

def SameAt (s t : Store) : Ref → Prop
  | .frame f => t.frame f = s.frame f
  | .array a => t.items a = s.items a
  | .record r => t.fields r = s.fields r

theorem SameAt.refl (s : Store) (ref : Ref) : s.SameAt s ref := by
  cases ref <;> rfl

theorem SameAt.trans {s t u : Store} {ref : Ref} (h : s.SameAt t ref) (h' : t.SameAt u ref) :
    s.SameAt u ref := by
  cases ref <;> exact Eq.trans h' h

theorem Points.in {s : Store} {a b : Ref} (h : s.Points a b) : a.In s := by
  cases h with
  | parent h =>
    refine Nat.lt_of_not_le fun hle => ?_
    rw [frame_of_size_le hle] at h
    cases h
  | binding h _ =>
    refine Nat.lt_of_not_le fun hle => ?_
    rw [frame_of_size_le hle] at h
    cases h
  | item h _ =>
    refine Nat.lt_of_not_le fun hle => ?_
    rw [items_of_size_le hle] at h
    simp at h
  | field h _ =>
    refine Nat.lt_of_not_le fun hle => ?_
    rw [fields_of_size_le hle] at h
    cases h

/-! What an object refers to after an operation, and which objects the operation leaves as they were. -/

section Operations

variable {s : Store} {a b : Ref}

theorem Points.of_define {f : FrameId} {name : String} {v : Value}
    (h : (s.define f name v).Points a b) : s.Points a b ∨ b ∈ v.refs := by
  cases h with
  | parent h =>
    rw [frame_define] at h
    split at h
    · exact .inl (.parent h)
    · exact .inl (.parent h)
  | binding h hr =>
    rw [frame_define] at h
    split at h
    · rcases Table.mem_put h with h | rfl
      · exact .inl (.binding h hr)
      · exact .inr hr
    · exact .inl (.binding h hr)
  | item h hr => exact .inl (.item h hr)
  | field h hr => exact .inl (.field h hr)

theorem sameAt_define (s : Store) {f : FrameId} (name : String) (v : Value) (h : a ≠ .frame f) :
    s.SameAt (s.define f name v) a := by
  cases a with
  | frame g =>
    refine (frame_define s f name v g).trans (if_neg fun hf => h ?_)
    exact congrArg Ref.frame (congrArg FrameId.mk hf.1.symm)
  | array | record => rfl

theorem Points.of_newFrame {parent : Option FrameId} {source : Option String} {depth : Option Int}
    (h : (s.newFrame parent source depth).2.Points a b) :
    s.Points a b ∨ ∃ p ∈ parent, b = .frame p := by
  cases h with
  | parent h =>
    rw [frame_newFrame] at h
    split at h
    · exact .inr ⟨_, h, rfl⟩
    · exact .inl (.parent h)
  | binding h hr =>
    rw [frame_newFrame] at h
    split at h
    · cases h
    · exact .inl (.binding h hr)
  | item h hr => exact .inl (.item h hr)
  | field h hr => exact .inl (.field h hr)

theorem sameAt_newFrame (s : Store) (parent : Option FrameId) (source : Option String)
    (depth : Option Int) (h : a.In s) : s.SameAt (s.newFrame parent source depth).2 a := by
  cases a with
  | frame g => exact (frame_newFrame s parent source depth g).trans (if_neg (Nat.ne_of_lt h))
  | array | record => rfl

theorem Points.of_newArray {items : Array Value} (h : (s.newArray items).2.Points a b) :
    s.Points a b ∨ ∃ v ∈ items, b ∈ v.refs := by
  cases h with
  | parent h => exact .inl (.parent h)
  | binding h hr => exact .inl (.binding h hr)
  | item h hr =>
    rw [items_newArray] at h
    split at h
    · exact .inr ⟨_, h, hr⟩
    · exact .inl (.item h hr)
  | field h hr => exact .inl (.field h hr)

theorem sameAt_newArray (s : Store) (items : Array Value) (h : a.In s) :
    s.SameAt (s.newArray items).2 a := by
  cases a with
  | array b => exact (items_newArray s items b).trans (if_neg (Nat.ne_of_lt h))
  | frame | record => rfl

theorem Points.of_newRecord {fields : Table Value} (h : (s.newRecord fields).2.Points a b) :
    s.Points a b ∨ ∃ e ∈ fields.entries, b ∈ e.2.refs := by
  cases h with
  | parent h => exact .inl (.parent h)
  | binding h hr => exact .inl (.binding h hr)
  | item h hr => exact .inl (.item h hr)
  | field h hr =>
    rw [fields_newRecord] at h
    split at h
    · exact .inr ⟨_, h, hr⟩
    · exact .inl (.field h hr)

theorem sameAt_newRecord (s : Store) (fields : Table Value) (h : a.In s) :
    s.SameAt (s.newRecord fields).2 a := by
  cases a with
  | record r => exact (fields_newRecord s fields r).trans (if_neg (Nat.ne_of_lt h))
  | frame | array => rfl

theorem Points.of_modifyArray {c : ArrayId} {g : Array Value → Array Value} {vs : List Value}
    (hg : ∀ xs v, v ∈ g xs → v ∈ xs ∨ v ∈ vs) (h : (s.modifyArray c g).Points a b) :
    s.Points a b ∨ ∃ v ∈ vs, b ∈ v.refs := by
  cases h with
  | parent h => exact .inl (.parent h)
  | binding h hr => exact .inl (.binding h hr)
  | item h hr =>
    rw [items_modifyArray] at h
    split at h
    · rcases hg _ _ h with h | h
      · exact .inl (.item h hr)
      · exact .inr ⟨_, h, hr⟩
    · exact .inl (.item h hr)
  | field h hr => exact .inl (.field h hr)

theorem sameAt_modifyArray (s : Store) {c : ArrayId} (g : Array Value → Array Value)
    (h : a ≠ .array c) : s.SameAt (s.modifyArray c g) a := by
  cases a with
  | array b =>
    refine (items_modifyArray s c b g).trans (if_neg fun hc => h ?_)
    exact congrArg Ref.array (congrArg ArrayId.mk hc.1.symm)
  | frame | record => rfl

def Slot.ref : Slot → Ref
  | .item a _ => .array a
  | .field r _ => .record r

theorem ref_mem_of_slot {base key : Value} {slot : Slot} (h : s.slot base key = .ok slot) :
    slot.ref ∈ base.refs := by
  unfold Store.slot at h
  split at h
  · rename_i c i
    cases hi : index (s.items c).size i with
    | error fault => rw [hi] at h; cases h
    | ok k =>
      rw [hi] at h
      cases h
      exact List.mem_singleton_self _
  · cases h
    exact List.mem_singleton_self _
  · cases h

theorem Points.of_fill {v : Value} {slot : Slot} (h : (s.fill v slot).Points a b) :
    s.Points a b ∨ b ∈ v.refs := by
  cases slot with
  | item c k =>
    have hset : ∀ (xs : Array Value) w, w ∈ xs.setIfInBounds k v → w ∈ xs ∨ w ∈ [v] := fun xs w hw =>
      (Array.mem_or_eq_of_mem_setIfInBounds hw).imp_right List.mem_singleton.2
    simpa using Points.of_modifyArray hset h
  | field r name =>
    cases h with
    | parent h => exact .inl (.parent h)
    | binding h hr => exact .inl (.binding h hr)
    | item h hr => exact .inl (.item h hr)
    | field h hr =>
      rw [Store.fill, fields_modifyRecord] at h
      split at h
      · rcases Table.mem_put h with h | rfl
        · exact .inl (.field h hr)
        · exact .inr hr
      · exact .inl (.field h hr)

theorem sameAt_fill (s : Store) (v : Value) {slot : Slot} (h : a ≠ slot.ref) :
    s.SameAt (s.fill v slot) a := by
  cases slot with
  | item c k => exact s.sameAt_modifyArray _ h
  | field r name =>
    cases a with
    | record q =>
      refine (fields_modifyRecord s r q _).trans (if_neg fun hr => h ?_)
      exact congrArg Ref.record (congrArg RecordId.mk hr.1.symm)
    | frame | array => rfl

end Operations

/-- The region is closed in the later store and holds all that was made meanwhile; outside of it nothing
    has changed. -/
structure Confined (s : Store) (region : Ref → Prop) (t : Store) : Prop where
  closed : ∀ a b, region a → t.Points a b → region b
  same : ∀ a, ¬region a → s.SameAt t a
  outside : ∀ a, ¬region a → a.In t

namespace Confined

variable {s t u : Store} {region : Ref → Prop}

theorem step (h : s.Confined region t) (he : t.Extends u)
    (hpoints : ∀ a b, u.Points a b → t.Points a b ∨ region b)
    (hsame : ∀ a, ¬region a → t.SameAt u a) : s.Confined region u where
  closed a b ha hab := (hpoints a b hab).elim (h.closed a b ha) id
  same a ha := (h.same a ha).trans (hsame a ha)
  outside a ha := (h.outside a ha).mono he

theorem of_not_in (h : s.Confined region t) {ref : Ref} (hr : ¬ref.In t) : region ref :=
  Classical.byContradiction fun hn => hr (h.outside ref hn)

theorem define (h : s.Confined region t) {f : FrameId} {v : Value} (hf : region (.frame f))
    (name : String) (hv : ∀ ref ∈ v.refs, region ref) : s.Confined region (t.define f name v) := by
  refine h.step (.define t f name v) (fun a b hab => hab.of_define.imp_right (hv b)) fun a ha => ?_
  exact t.sameAt_define name v fun he => ha (he ▸ hf)

theorem newFrame (h : s.Confined region t) {parent : FrameId} (hp : region (.frame parent))
    (source : Option String) (depth : Option Int) :
    s.Confined region (t.newFrame (some parent) source depth).2 := by
  refine h.step (.newFrame t _ _ _) (fun a b hab => hab.of_newFrame.imp_right ?_) fun a ha =>
    t.sameAt_newFrame _ _ _ (h.outside a ha)
  rintro ⟨p, ⟨⟩, rfl⟩
  exact hp

theorem bind (h : s.Confined region t) {f : FrameId} (hf : region (.frame f))
    (params : List String) {vs : List Value} (hv : ∀ v ∈ vs, ∀ ref ∈ v.refs, region ref) :
    s.Confined region (t.bind f params vs) := by
  induction params generalizing t vs with
  | nil => exact h
  | cons name params ih =>
    cases vs with
    | nil => exact ih (h.define (v := .nothing) hf name nofun) nofun
    | cons v vs =>
      rw [List.forall_mem_cons] at hv
      exact ih (h.define hf name hv.1) hv.2

theorem newArray (h : s.Confined region t) {items : Array Value}
    (hv : ∀ v ∈ items, ∀ ref ∈ v.refs, region ref) : s.Confined region (t.newArray items).2 := by
  refine h.step (.newArray t items) (fun a b hab => hab.of_newArray.imp_right ?_) fun a ha =>
    t.sameAt_newArray items (h.outside a ha)
  rintro ⟨v, hm, hr⟩
  exact hv v hm b hr

theorem newRecord (h : s.Confined region t) {fields : Table Value}
    (hv : ∀ e ∈ fields.entries, ∀ ref ∈ e.2.refs, region ref) :
    s.Confined region (t.newRecord fields).2 := by
  refine h.step (.newRecord t fields) (fun a b hab => hab.of_newRecord.imp_right ?_) fun a ha =>
    t.sameAt_newRecord fields (h.outside a ha)
  rintro ⟨e, hm, hr⟩
  exact hv e hm b hr

theorem append (h : s.Confined region t) {a : ArrayId} {args : List Value}
    (ha : region (.array a)) (hv : ∀ v ∈ args, ∀ ref ∈ v.refs, region ref) :
    s.Confined region (t.modifyArray a (· ++ args.toArray)) := by
  have hmem : ∀ (xs : Array Value) v, v ∈ xs ++ args.toArray → v ∈ xs ∨ v ∈ args := by simp
  refine h.step (.modifyArray t a fun xs => by simp)
    (fun b c hbc => (Points.of_modifyArray hmem hbc).imp_right ?_) fun b hb =>
      t.sameAt_modifyArray _ fun he => hb (he ▸ ha)
  rintro ⟨v, hm, hr⟩
  exact hv v hm c hr

theorem fill (h : s.Confined region t) {slot : Slot} {v : Value} (hs : region slot.ref)
    (hv : ∀ ref ∈ v.refs, region ref) : s.Confined region (t.fill v slot) := by
  refine h.step (.fill t v slot) (fun a b hab => hab.of_fill.imp_right (hv b)) fun a ha => ?_
  exact t.sameAt_fill v fun he => ha (he ▸ hs)

theorem write (h : s.Confined region t) (text : String) : s.Confined region (t.write text) := by
  refine h.step (.write t text) (fun a b hab => .inl ?_) fun a _ => ?_
  · cases hab with
    | parent h => exact .parent h
    | binding h hr => exact .binding h hr
    | item h hr => exact .item h hr
    | field h hr => exact .field h hr
  · cases a <;> rfl

/-! What is found from within the region refers into the region. -/

theorem holder? (h : s.Confined region t) {f g : FrameId} {name : String}
    (hf : region (.frame f)) (hg : t.holder? f name = some g) : region (.frame g) := by
  fun_induction t.holder? f name with
  | case1 =>
    cases hg
    exact hf
  | case2 => cases hg
  | case3 f _ p hp _ ih => exact ih (h.closed _ _ hf (.parent hp)) hg
  | case4 => cases hg

theorem get? (h : s.Confined region t) {f : FrameId} {name : String} {v : Value}
    (hf : region (.frame f)) (hv : t.get? f name = some v) : ∀ ref ∈ v.refs, region ref := by
  obtain ⟨g, hg, hv⟩ := Option.bind_eq_some_iff.1 hv
  exact fun ref hr => h.closed _ _ (h.holder? hf hg) (.binding (Table.mem_of_get? hv) hr)

theorem getItem (h : s.Confined region t) {base key v : Value}
    (hb : ∀ ref ∈ base.refs, region ref) (hv : t.getItem base key = .ok v) :
    ∀ ref ∈ v.refs, region ref := by
  rcases getItem_cases hv with ⟨a, rfl, hm⟩ | ⟨r, name, rfl, hm⟩ | ⟨a, rfl, rfl⟩ | ⟨a, -, rfl⟩
  · exact fun ref hr => h.closed _ _ (hb _ (List.mem_singleton_self _)) (.item hm hr)
  · exact fun ref hr => h.closed _ _ (hb _ (List.mem_singleton_self _)) (.field hm hr)
  · exact hb
  · nofun

end Confined

end Store

end Scripting
