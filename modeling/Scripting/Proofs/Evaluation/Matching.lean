import Scripting.Proofs.Evaluation.Correspondence
import Scripting.Proofs.Store.References
import Scripting.Proofs.Store.View

/-!
Programs that bind the same names. If two nodes match wherever one of them is asked for, with the same
names in them, then their runs go in step, and frame for frame the same names hold what matches. How the
nodes may differ is left open: in their places, say, or not at all, while the depths of the frames differ.
-/

set_option autoImplicit false

namespace Scripting

structure Closure.Alike (R : Node → Node → Prop) (c c' : Closure) : Prop where
  name : c'.name = c.name
  params : c'.params = c.params
  scope : c'.scope = c.scope
  body : R c.body c'.body

/-- Nodes correspond if they match, whatever frame they are evaluated in; `P` holds of their places and
    `D` of the depths of frames. -/
def Pairing.matching (P : Option Place → Option Place → Prop) (R : Node → Node → Prop)
    (D : Int → Int → Prop) : Pairing where
  World := Unit
  le _ _ := True
  place := P
  closure _ := Closure.Alike R
  frames _ := Store.FramesAlike D (Value.Alike (Closure.Alike R))
  node _ _ _ := R

structure Node.Matching (P : Option Place → Option Place → Prop) (R : Node → Node → Prop)
    (D : Int → Int → Prop) : Prop where
  place_none : P none none
  place_or {p p' q q' : Option Place} : P p p' → P q q' → P (p <|> q) (p' <|> q')
  depth (d : Int) : D d d
  parallel {n n' : Node} : R n n' → n.Parallel P (fun w w' => w'.text = w.text) R R n'

/-- The same, except that calls may have different forms. -/
structure Node.MatchingButCalls (P : Option Place → Option Place → Prop) (R : Node → Node → Prop)
    (D : Int → Int → Prop) : Prop where
  place_none : P none none
  place_or {p p' q q' : Option Place} : P p p' → P q q' → P (p <|> q) (p' <|> q')
  depth (d : Int) : D d d
  parallel {n n' : Node} : R n n' → n.isCall = false → n.Parallel P (fun w w' => w'.text = w.text) R R n'

theorem Node.Matching.butCalls {P : Option Place → Option Place → Prop} {R : Node → Node → Prop}
    {D : Int → Int → Prop} (h : Node.Matching P R D) : Node.MatchingButCalls P R D :=
  ⟨h.place_none, h.place_or, h.depth, fun hn _ => h.parallel hn⟩

namespace Pairing

variable {P : Option Place → Option Place → Prop} {R : Node → Node → Prop} {D : Int → Int → Prop}

theorem statements_matching {limits : Limits} {f : FrameId} {s : Store} {ns ns' : List Node}
    (h : List.Forall₂ R ns ns') : (matching P R D).Statements limits f () s ns ns' := by
  induction h generalizing s with
  | nil => trivial
  | cons hn _ ih => exact ⟨hn, fun _ _ _ _ _ _ ht => ⟨(), trivial, ht.frames, ih⟩⟩

theorem matching_coherent (hR : Node.MatchingButCalls P R D) (limits : Limits) :
    (matching P R D).Coherent limits where
  le_refl _ := trivial
  le_trans _ _ := trivial
  place_none := hR.place_none
  place_or := hR.place_or
  closure_mono _ h := h
  closure_name h := h.name
  size h := h.size
  frames_congr h := h.congr
  during h _ _ _ _ _ := h
  name := by
    intro _ s s' f w w' hs h
    cases hR.parallel h rfl with
    | name hw =>
      rw [hw]
      have hsearch := limits.costs.search_eq (fun f => (hs.frame f).parent) (hs.holder?_eq f w.text)
      exact ⟨hsearch, hs.get? f w.text, fun _ => rfl⟩
  assign := by
    intro _ s s' f w w' e e' p p' v v' hs h hv
    cases hR.parallel h rfl with
    | assign hw =>
      rw [hw, hs.holder?_eq]
      refine ⟨limits.costs.search_eq (fun f => (hs.frame f).parent) (hs.holder?_eq f w.text), ?_⟩
      cases hh : s.holder? f w.text with
      | none => exact .inl ⟨rfl, rfl, rfl⟩
      | some g => exact .inr ⟨g, rfl, rfl, hs.define g w.text hv⟩
  declare := by
    intro _ s s' f w w' init init' p p' v v' hs _ h hv
    cases hR.parallel h rfl with
    | declare hw =>
      rw [hw]
      exact hs.define f w.text hv
  function := by
    intro _ s s' f w w' params params' body body' p p' hs _ h
    cases hR.parallel h rfl with
    | function hw hn _ hb =>
      rw [hw]
      refine hs.define f w.text (.function ⟨rfl, ?_, rfl, hb⟩)
      exact map_eq_of_forall₂ hn fun _ _ ht => ht
  block := by
    intro _ s s' f body body' p p' hs _ h
    cases hR.parallel h rfl with
    | block hb =>
      have hnew := hs.newFrame (some f) none none none (hs.frame f).depth
      exact ⟨(), trivial, hnew, statements_matching hb⟩
  call := by
    intro _ s s' c c' args args' depth hs hc hargs
    have hnew := hs.newFrame (some c.scope) none (some depth) (some depth) (hR.depth depth)
    have hsame : (s'.newFrame (some c.scope) none (some depth)).1 =
        (s.newFrame (some c.scope) none (some depth)).1 := congrArg FrameId.mk hs.size
    rw [hc.scope, hc.params]
    dsimp only
    rw [hsame]
    exact ⟨(), trivial, hnew.bind .nothing _ c.params hargs, hc.body⟩

theorem matching_lawful (hR : Node.Matching P R D) (limits : Limits) :
    (matching P R D).Lawful limits where
  toCoherent := matching_coherent hR.butCalls limits
  parallel h := (hR.parallel h).imp (fun _ _ _ => trivial) (fun _ _ _ h => h) fun _ _ _ => trivial

theorem matching_sameDepths : (matching P R Eq).SameDepths :=
  fun f h => (h.frame f).depth.symm

theorem matching_stores_self {s : Store} (hD : ∀ d, D d d)
    (h : s.AllHold fun v => ∀ c, v = .function c → R c.body c.body) : (matching P R D).Stores () s s := by
  have hself : s.AllHold fun v => (matching P R D).Values () v v := by
    intro v hv
    cases v with
    | function c => exact .function ⟨rfl, rfl, rfl, h _ hv c rfl⟩
    | _ => exact .same (by simp)
  refine ⟨⟨rfl, rfl, fun a => ?_, rfl, fun r => ?_⟩, ⟨rfl, fun f => ⟨rfl, rfl, hD _, ?_⟩⟩⟩
  · exact List.forall₂_same.2 fun v hv => hself v (.item (Array.mem_toList_iff.1 hv))
  · exact List.forall₂_same.2 fun e he => ⟨rfl, hself e.2 (.field he)⟩
  · exact List.forall₂_same.2 fun e he => ⟨rfl, hself e.2 (.binding he)⟩

end Pairing

end Scripting
