import Scripting.Proofs.Evaluation.Names
import Scripting.Proofs.Node.Renaming
import Scripting.Proofs.Store.Likeness

/-!
Frames in which a name goes by another one. Each frame of a store has a side: the frames outside all
regions where `x` is called `y`, those inside, and fresh ones, which open a region but do not hold the
name yet. Two stores correspond if they have the same frames with like values, under the same names
outside and with `x` called `y` elsewhere. As long as `y` is not used otherwise, both give like values
to corresponding names, and defining corresponding names keeps them in correspondence.
-/

set_option autoImplicit false

namespace Scripting

inductive Side where
  | outer
  | fresh
  | inner
deriving DecidableEq, Repr

def Side.name (x y : String) : Side → String → String
  | .outer => id
  | .fresh | .inner => rename x y

theorem Side.name_inj {x y m n : String} {side : Side} (hm : m ≠ y) (hn : n ≠ y)
    (h : side.name x y m = side.name x y n) : m = n := by
  cases side with
  | outer => exact h
  | fresh => exact rename_inj hm hn h
  | inner => exact rename_inj hm hn h

theorem Side.name_of_ne {x y n : String} (side : Side) (h : n ≠ x) : side.name x y n = n := by
  cases side with
  | outer => rfl
  | fresh => exact rename_of_ne h
  | inner => exact rename_of_ne h

def Sides : Type := FrameId → Option Side

namespace Sides

/-- Later on, frames have been added, and fresh ones may have come to belong inside. -/
def le (W W' : Sides) : Prop :=
  ∀ f side, W f = some side → W' f = some side ∨ side = .fresh ∧ W' f = some .inner

theorem le_refl (W : Sides) : W.le W := fun _ _ h => .inl h

theorem le_trans {W₁ W₂ W₃ : Sides} (h : W₁.le W₂) (h' : W₂.le W₃) : W₁.le W₃ := by
  intro f side hf
  rcases h f side hf with hf₂ | ⟨rfl, hf₂⟩
  · exact h' f side hf₂
  · rcases h' f .inner hf₂ with hf₃ | ⟨hside, -⟩
    · exact .inr ⟨rfl, hf₃⟩
    · cases hside

theorem le.of_ne_fresh {W W' : Sides} (h : W.le W') {f : FrameId} {side : Side}
    (hf : W f = some side) (hside : side ≠ .fresh) : W' f = some side := by
  rcases h f side hf with hf | ⟨rfl, -⟩
  · exact hf
  · exact (hside rfl).elim

def set (W : Sides) (f : FrameId) (side : Side) : Sides :=
  fun g => if g = f then some side else W g

theorem set_self (W : Sides) (f : FrameId) (side : Side) : W.set f side f = some side := if_pos rfl

theorem set_of_ne (W : Sides) {f g : FrameId} (h : g ≠ f) (side : Side) : W.set f side g = W g :=
  if_neg h

theorem set_of_none {W : Sides} {f g : FrameId} {on : Side} (hf : W f = none) (side : Side)
    (hg : W g = some on) : W.set f side g = some on := by
  refine (W.set_of_ne ?_ side).trans hg
  rintro rfl
  rw [hf] at hg
  cases hg

theorem set_of_fresh {W : Sides} {f g : FrameId} {on : Side} (hf : W f = some .fresh) (side : Side)
    (hg : W g = some on) (hon : on ≠ .fresh) : W.set f side g = some on := by
  refine (W.set_of_ne ?_ side).trans hg
  rintro rfl
  rw [hf] at hg
  exact hon (Option.some.inj hg).symm

theorem le_set_new {W : Sides} {f : FrameId} (h : W f = none) (side : Side) : W.le (W.set f side) :=
  fun _ _ hg => .inl (set_of_none h side hg)

theorem le_set_inner {W : Sides} {f : FrameId} (h : W f = some .fresh) : W.le (W.set f .inner) := by
  intro g side hg
  by_cases hne : g = f
  · subst hne
    rw [h] at hg
    cases hg
    exact .inr ⟨rfl, W.set_self g .inner⟩
  · exact .inl ((W.set_of_ne hne .inner).trans hg)

end Sides

section Frames

variable {V : Value → Value → Prop} {x y : String} {W : Sides} {s s' : Store}

/-- The frame has the side. A frame inside a region finds the name of the region there. -/
structure Store.FrameOn (V : Value → Value → Prop) (x y : String) (W : Sides) (s s' : Store)
    (f : FrameId) (side : Side) : Prop where
  lt : f.index < s.frames.size
  vars : (s.frame f).vars.Alike (side.name x y) V (s'.frame f).vars
  unused : y ∉ s.names f
  parent : ∀ p, (s.frame f).parent = some p →
    p.index < f.index ∧ (W p = some .outer ∨ side = .inner ∧ W p = some .inner)
  bound : side = .inner → x ∈ s.names f ∨ ∃ p, (s.frame f).parent = some p ∧ W p = some .inner

structure Store.FramesOn (V : Value → Value → Prop) (x y : String) (W : Sides) (s s' : Store) :
    Prop where
  size : s'.frames.size = s.frames.size
  parent : ∀ f, (s'.frame f).parent = (s.frame f).parent
  source : ∀ f, (s'.frame f).source = (s.frame f).source
  depth : ∀ f, (s'.frame f).depth = (s.frame f).depth
  on : ∀ f side, W f = some side → s.FrameOn V x y W s' f side

theorem Store.FrameOn.key {f : FrameId} {side : Side} (h : s.FrameOn V x y W s' f side) {z : String}
    (hz : z ≠ y) : ∀ n ∈ (s.frame f).vars.names, side.name x y n = side.name x y z → n = z := by
  intro n hn he
  refine Side.name_inj ?_ hz he
  rintro rfl
  exact h.unused hn

namespace Store.FramesOn

theorem mono {V' : Value → Value → Prop} (hV : ∀ v v', V v v' → V' v v')
    (h : s.FramesOn V x y W s') : s.FramesOn V' x y W s' :=
  { h with
    on := fun f side hf =>
      have hon := h.on f side hf
      { hon with vars := hon.vars.mono hV } }

theorem congr {t t' : Store} (h : s.FramesOn V x y W s') (ht : t.frames = s.frames)
    (ht' : t'.frames = s'.frames) : t.FramesOn V x y W t' := by
  have hf (f : FrameId) : t.frame f = s.frame f := by rw [frame, ht, frame]
  have hf' (f : FrameId) : t'.frame f = s'.frame f := by rw [frame, ht', frame]
  have hn (f : FrameId) : t.names f = s.names f := by rw [names, hf, names]
  constructor
  · rw [ht, ht', h.size]
  · intro f; rw [hf, hf', h.parent]
  · intro f; rw [hf, hf', h.source]
  · intro f; rw [hf, hf', h.depth]
  · intro f side hside
    have hon := h.on f side hside
    constructor
    · rw [ht]; exact hon.lt
    · rw [hf, hf']; exact hon.vars
    · rw [hn]; exact hon.unused
    · rw [hf]; exact hon.parent
    · rw [hf, hn]; exact hon.bound

theorem none_of_size_le (h : s.FramesOn V x y W s') {f : FrameId} (hf : s.frames.size ≤ f.index) :
    W f = none := by
  cases hW : W f with
  | none => rfl
  | some side => exact absurd (h.on f side hW).lt (Nat.not_lt.2 hf)

/-! Reading. -/

theorem contains_eq (h : s.FramesOn V x y W s') {f : FrameId} {side : Side} (hf : W f = some side)
    {z : String} (hz : z ≠ y) :
    (s'.frame f).vars.contains (side.name x y z) = (s.frame f).vars.contains z := by
  have hon := h.on f side hf
  have hget := hon.vars.get? z (hon.key hz)
  unfold Table.contains
  generalize (s.frame f).vars.get? z = found, (s'.frame f).vars.get? (side.name x y z) = found' at hget
  cases hget <;> rfl

theorem holder?_eq (h : s.FramesOn V x y W s') {f : FrameId} {side : Side} (hf : W f = some side)
    (hside : side ≠ .fresh) {z : String} (hz : z ≠ y) :
    s'.holder? f (side.name x y z) = s.holder? f z ∧
      (∀ g, s.holder? f z = some g → ∃ on, W g = some on ∧ on.name x y z = side.name x y z) ∧
      (s.holder? f z = none → side.name x y z = z) := by
  induction hi : f.index using Nat.strongRecOn generalizing f side with
  | _ i ih =>
    subst hi
    have hon := h.on f side hf
    rw [holder?, holder?, h.contains_eq hf hz, h.parent]
    by_cases hc : (s.frame f).vars.contains z = true
    · simp only [hc, if_true]
      refine ⟨trivial, ?_, nofun⟩
      rintro g ⟨⟩
      exact ⟨side, hf, rfl⟩
    · have hzf : z ∉ s.names f := fun hm => hc (Table.contains_iff.2 hm)
      simp only [hc]
      -- where the region ends, its name has been found
      have hname (hout : ∀ p, (s.frame f).parent = some p → W p ≠ some .inner) :
          side.name x y z = z := by
        cases side with
        | outer => rfl
        | fresh => exact (hside rfl).elim
        | inner =>
          rcases hon.bound rfl with hx | ⟨p, hp, hW⟩
          · exact rename_of_ne fun he => hzf (he ▸ hx)
          · exact (hout p hp hW).elim
      cases hp : (s.frame f).parent with
      | none => exact ⟨rfl, nofun, fun _ => hname fun p he => by rw [hp] at he; cases he⟩
      | some p =>
        obtain ⟨hlt, hW⟩ := hon.parent p hp
        simp only [hlt, if_true]
        rcases hW with hW | ⟨rfl, hW⟩
        · have heq : side.name x y z = z := hname fun q hq he => by
            rw [hp] at hq
            cases hq
            rw [hW] at he
            cases he
          obtain ⟨h₁, h₂, h₃⟩ := ih p.index hlt hW nofun rfl
          rw [heq]
          exact ⟨h₁, h₂, h₃⟩
        · exact ih p.index hlt hW nofun rfl

theorem exists_get? (h : s.FramesOn V x y W s') {f g : FrameId} {on : Side} (hg : W g = some on)
    {z : String} (hz : z ≠ y) (hh : s.holder? f z = some g)
    (hh' : s'.holder? f (on.name x y z) = some g) :
    ∃ v v', s.get? f z = some v ∧ s'.get? f (on.name x y z) = some v' ∧ V v v' := by
  have hon := h.on g on hg
  have hget := hon.vars.get? z (hon.key hz)
  have hc : (s.frame g).vars.contains z = true := Table.contains_iff.2 (mem_names_of_holder? hh)
  unfold Store.get?
  rw [hh, hh']
  change ∃ v v', (s.frame g).vars.get? z = some v ∧ (s'.frame g).vars.get? _ = some v' ∧ V v v'
  unfold Table.contains at hc
  generalize (s.frame g).vars.get? z = found, (s'.frame g).vars.get? (on.name x y z) = found' at hget hc
  cases hget with
  | none => cases hc
  | some hv => exact ⟨_, _, rfl, rfl, hv⟩

/-! Writing. -/

theorem define (h : s.FramesOn V x y W s') {f : FrameId} {side : Side} (hf : W f = some side)
    {z : String} (hz : z ≠ y) {v v' : Value} (hv : V v v') :
    (s.define f z v).FramesOn V x y W (s'.define f (side.name x y z) v') := by
  constructor
  · rw [size_frames_define, size_frames_define, h.size]
  · intro g
    rw [frame_define, frame_define]
    split <;> split <;> exact h.parent g
  · intro g
    rw [frame_define, frame_define]
    split <;> split <;> exact h.source g
  · intro g
    rw [frame_define, frame_define]
    split <;> split <;> exact h.depth g
  · intro g on hg
    have hon := h.on g on hg
    by_cases hfg : f = g
    · -- What is entered is not called `y`, so corresponding names stay distinct on both sides.
      subst hfg
      obtain rfl : side = on := Option.some.inj (hf.symm.trans hg)
      have hlt' : f.index < s'.frames.size := h.size ▸ hon.lt
      have hnames := (Extends.define s f z v).frame f hon.lt
      constructor
      · rw [size_frames_define]
        exact hon.lt
      · rw [s.frame_define_self hon.lt, s'.frame_define_self hlt']
        exact hon.vars.put hv (hon.key hz)
      · rw [names, s.frame_define_self hon.lt, Table.names_put]
        split
        · exact hon.unused
        · intro hy
          rcases List.mem_append.1 hy with hy | hy
          · exact hon.unused hy
          · exact hz (List.mem_singleton.1 hy).symm
      · rw [hnames.parent]
        exact hon.parent
      · intro hin
        rw [hnames.parent]
        exact (hon.bound hin).imp_left fun hx => hnames.names.subset hx
    · constructor
      · rw [size_frames_define]
        exact hon.lt
      · rw [s.frame_define_of_ne hfg, s'.frame_define_of_ne hfg]
        exact hon.vars
      · rw [s.names_define_of_ne hfg]
        exact hon.unused
      · rw [s.frame_define_of_ne hfg]
        exact hon.parent
      · rw [s.frame_define_of_ne hfg, s.names_define_of_ne hfg]
        exact hon.bound

theorem bind (h : s.FramesOn V x y W s') {f : FrameId} {side : Side} (hf : W f = some side)
    {params : List String} (hy : y ∉ params) {vs vs' : List Value} (hv : List.Forall₂ V vs vs')
    (hnothing : V .nothing .nothing) :
    (s.bind f params vs).FramesOn V x y W (s'.bind f (params.map (side.name x y)) vs') := by
  induction params generalizing s s' vs vs' with
  | nil => exact h
  | cons name params ih =>
    have hname : name ≠ y := fun he => hy (he ▸ List.mem_cons_self)
    have hrest : y ∉ params := fun hm => hy (List.mem_cons_of_mem _ hm)
    cases hv with
    | nil => exact ih (h.define hf hname hnothing) hrest .nil
    | cons hv hvs => exact ih (h.define hf hname hv) hrest hvs

theorem newFrame (h : s.FramesOn V x y W s') (parent : Option FrameId) (side : Side)
    (hp : ∀ p ∈ parent, W p = some .outer ∨ side = .inner ∧ W p = some .inner)
    (hin : side = .inner → ∃ p ∈ parent, W p = some .inner) (source : Option String)
    (depth : Option Int) :
    (s.newFrame parent source depth).2.FramesOn V x y (W.set (s.newFrame parent source depth).1 side)
      (s'.newFrame parent source depth).2 := by
  have hnone : W (s.newFrame parent source depth).1 = none := h.none_of_size_le (Nat.le_refl _)
  have hlt (p : FrameId) (hm : p ∈ parent) : p.index < s.frames.size := by
    rcases hp p hm with hW | ⟨-, hW⟩
    · exact (h.on p _ hW).lt
    · exact (h.on p _ hW).lt
  have hset {p : FrameId} {on : Side} (hW : W p = some on) :
      W.set (s.newFrame parent source depth).1 side p = some on := Sides.set_of_none hnone side hW
  constructor
  · rw [size_frames_newFrame, size_frames_newFrame, h.size]
  · intro g
    rw [frame_newFrame, frame_newFrame, h.size]
    split
    · rfl
    · exact h.parent g
  · intro g
    rw [frame_newFrame, frame_newFrame, h.size]
    split
    · cases parent with
      | none => rfl
      | some p => exact congrArg (source <|> ·) (h.source p)
    · exact h.source g
  · intro g
    rw [frame_newFrame, frame_newFrame, h.size]
    split
    · cases parent with
      | none => rfl
      | some p => cases depth <;> simp [h.depth p]
    · exact h.depth g
  · intro g on hg
    by_cases hnew : g = (s.newFrame parent source depth).1
    · -- The new frame holds nothing that would have to be kept apart.
      have hi : g.index = s.frames.size := congrArg FrameId.index hnew
      obtain rfl : side = on := by
        rw [hnew, Sides.set_self] at hg
        exact Option.some.inj hg
      constructor
      · rw [hnew]
        exact s.newFrame_lt parent source depth
      · rw [frame_newFrame, if_pos hi, frame_newFrame, if_pos (hi.trans h.size.symm)]
        exact .empty
      · rw [names, frame_newFrame, if_pos hi]
        exact List.not_mem_nil
      · rw [frame_newFrame, if_pos hi]
        intro p hm
        refine ⟨hi ▸ hlt p hm, (hp p hm).imp hset ?_⟩
        exact fun hW => ⟨hW.1, hset hW.2⟩
      · rw [frame_newFrame, if_pos hi]
        intro he
        obtain ⟨p, hm, hW⟩ := hin he
        exact .inr ⟨p, hm, hset hW⟩
    · rw [W.set_of_ne hnew] at hg
      have hon := h.on g on hg
      have hi : g.index ≠ s.frames.size := Nat.ne_of_lt hon.lt
      have hi' : g.index ≠ s'.frames.size := h.size ▸ hi
      constructor
      · exact Nat.lt_of_lt_of_le hon.lt (Extends.newFrame s parent source depth).frames_size
      · rw [frame_newFrame, if_neg hi, frame_newFrame, if_neg hi']
        exact hon.vars
      · rw [s.names_newFrame hon.lt]
        exact hon.unused
      · rw [frame_newFrame, if_neg hi]
        intro p hm
        obtain ⟨hpg, hW⟩ := hon.parent p hm
        exact ⟨hpg, hW.imp hset fun hW => ⟨hW.1, hset hW.2⟩⟩
      · rw [frame_newFrame, if_neg hi, s.names_newFrame hon.lt]
        intro he
        refine (hon.bound he).imp_right ?_
        rintro ⟨p, hm, hW⟩
        exact ⟨p, hm, hset hW⟩

theorem enter (h : s.FramesOn V x y W s') {f : FrameId} (hf : W f = some .fresh)
    (hx : x ∈ s.names f) : s.FramesOn V x y (W.set f .inner) s' := by
  have hset {p : FrameId} {on : Side} (hW : W p = some on) (hon : on ≠ .fresh) :
      W.set f .inner p = some on := Sides.set_of_fresh hf .inner hW hon
  refine { h with on := fun g on hg => ?_ }
  by_cases hgf : g = f
  · subst hgf
    obtain rfl : Side.inner = on := Option.some.inj ((W.set_self g .inner).symm.trans hg)
    have hfresh := h.on g .fresh hf
    refine ⟨hfresh.lt, hfresh.vars, hfresh.unused, fun p hp => ?_, fun _ => .inl hx⟩
    obtain ⟨hlt, hW | ⟨hne, -⟩⟩ := hfresh.parent p hp
    · exact ⟨hlt, .inl (hset hW nofun)⟩
    · cases hne
  · rw [W.set_of_ne hgf] at hg
    have hon := h.on g on hg
    refine ⟨hon.lt, hon.vars, hon.unused, fun p hp => ?_, fun he => ?_⟩
    · obtain ⟨hlt, hW⟩ := hon.parent p hp
      exact ⟨hlt, hW.imp (hset · nofun) fun hW => ⟨hW.1, hset hW.2 nofun⟩⟩
    · exact (hon.bound he).imp_right fun ⟨p, hp, hW⟩ => ⟨p, hp, hset hW nofun⟩

end Store.FramesOn

end Frames

end Scripting
