import Mathlib
import Scripting.Proofs.Evaluation.Correspondence
import Scripting.Proofs.Evaluation.Heap
import Scripting.Proofs.Store.Sides

/-!
Local names do not matter. A program in which a local name has been replaced throughout the region where
it is bound prints the same, and ends with the same value or error. The two programs run in step: frames
made inside the region call `x` by its other name, those outside do not, and a function belongs to the
side of the frame it was defined in, wherever it is called from.
-/

set_option autoImplicit false

namespace Scripting

theorem Node.Scopeless.isBinder_eq {n : Node} (h : n.Scopeless) : n.isBinder = false := by
  have hn := h.here
  cases n with
  | declare | function => cases hn
  | _ => rfl

theorem Node.Scopeless.bindless {n : Node} (h : n.Scopeless) : n.Bindless := by
  intro m hm
  induction hm with
  | refl => exact h.isBinder_eq
  | operand hc _ ih => exact ih (h.child (mem_children_of_operands hc))

theorem Node.scopeless_of_isExpression {n : Node} (h : n.isExpression) : n.Scopeless := by
  intro m hm
  induction hm with
  | refl =>
    cases m with
    | block | declare | function => cases h
    | _ => rfl
  | @child c n hc _ ih =>
    refine ih (isExpression_operand h ?_)
    cases n with
    | block | function => cases h
    | _ => exact hc

structure Node.Renamable (x y : String) (n : Node) : Prop where
  avoids : n.Avoids y
  namesNoFunction : n.NamesNoFunction x

theorem Node.Renamable.child {x y : String} {n c : Node} (h : n.Renamable x y)
    (hc : c ∈ n.children) : c.Renamable x y :=
  ⟨h.avoids.child hc, h.namesNoFunction.child hc⟩

/-- Corresponding functions: both defined outside, with a region perhaps in the body; or with a body
    inside a region, because of where they are defined or of a parameter. -/
inductive Closure.Renamed (x y : String) (W : Sides) : Closure → Closure → Prop where
  | outside {name : String} {params : List String} {body body' : Node} {scope : FrameId}
      (hs : W scope = some .outer) (hy : y ∉ params) (hb : body.Renaming x y body')
      (ha : body.Avoids y) : Renamed x y W ⟨name, params, body, scope⟩ ⟨name, params, body', scope⟩
  | inside {name : String} {params : List String} {body : Node} {scope : FrameId}
      (hs : W scope = some .inner ∨ W scope = some .outer ∧ x ∈ params) (hy : y ∉ params)
      (hb : body.Renamable x y) :
      Renamed x y W ⟨name, params, body, scope⟩
        ⟨name, params.map (rename x y), body.mapNames (rename x y), scope⟩

theorem Closure.Renamed.mono {x y : String} {W W' : Sides} {c c' : Closure} (hle : W.le W')
    (h : c.Renamed x y W c') : c.Renamed x y W' c' := by
  cases h with
  | outside hs hy hb ha => exact .outside (hle.of_ne_fresh hs nofun) hy hb ha
  | inside hs hy hb =>
    refine .inside (hs.imp ?_ ?_) hy hb
    · exact fun hs => hle.of_ne_fresh hs nofun
    · exact fun hs => ⟨hle.of_ne_fresh hs.1 nofun, hs.2⟩

structure Sides.Opens (W : Sides) (s : Store) (f : FrameId) : Prop where
  side : W f = some .fresh ∨ W f = some .inner
  empty : s.names f = []
  outer : ∃ p, (s.frame f).parent = some p ∧ W p = some .outer

/-- Corresponding nodes that are evaluated in the frame. -/
inductive Node.Paired (x y : String) (W : Sides) (s : Store) (f : FrameId) : Node → Node → Prop where
  | outside {n n' : Node} (hf : W f = some .outer) (h : n.Renaming x y n') (hy : n.Avoids y) :
      Paired x y W s f n n'
  | inside {n n' : Node} (hf : W f = some .inner) (h : n.Renamable x y)
      (hn : n' = n.mapNames (rename x y)) : Paired x y W s f n n'
  | opening {q p : Option Place} {init : Option Node} (hf : W.Opens s f) (hxy : x ≠ y)
      (hinit : ∀ e ∈ init, e.Scopeless ∧ e.Avoids y) :
      Paired x y W s f (.declare ⟨x, q⟩ init p) (.declare ⟨y, q⟩ init p)
  /-- The first value of the name of a region, for which the names outside count. -/
  | first {e : Node} (hf : W.Opens s f) (he : e.Scopeless) (hy : e.Avoids y) :
      Paired x y W s f e e

def Pairing.renaming (x y : String) : Pairing where
  World := Sides
  le := Sides.le
  place := Eq
  closure := Closure.Renamed x y
  frames W := Store.FramesOn (Value.Alike (Closure.Renamed x y W)) x y W
  node := Node.Paired x y

section Opening

variable {x y : String} {W W' : Sides} {s s' t : Store} {f : FrameId}

theorem Sides.Opens.later (h : W.Opens s f) (hf : f.index < s.frames.size) (hle : W.le W')
    (he : s.Extends t) (hn : t.names f = s.names f) : W'.Opens t f where
  side := by
    rcases h.side with hside | hside
    · exact (hle f _ hside).imp_right (·.2)
    · exact .inr (hle.of_ne_fresh hside nofun)
  empty := hn.trans h.empty
  outer := by
    obtain ⟨p, hp, hW⟩ := h.outer
    exact ⟨p, (he.frame f hf).parent.trans hp, hle.of_ne_fresh hW nofun⟩

theorem Store.holder?_of_empty {p : FrameId} (hn : s.names f = [])
    (hp : (s.frame f).parent = some p) (hlt : p.index < f.index) (z : String) :
    s.holder? f z = s.holder? p z := by
  have hc : (s.frame f).vars.contains z = false := by
    rw [← Bool.not_eq_true, Table.contains_iff]
    change z ∉ s.names f
    rw [hn]
    exact List.not_mem_nil
  exact Store.holder?_of_not_contains (by simp [hc]) hp hlt

theorem Sides.Opens.holder?_eq {V : Value → Value → Prop} (h : W.Opens s f)
    (hs : s.FramesOn V x y W s') :
    ∃ p, W p = some .outer ∧ ∀ z, s.holder? f z = s.holder? p z ∧ s'.holder? f z = s'.holder? p z := by
  obtain ⟨p, hp, hW⟩ := h.outer
  obtain ⟨side, hside⟩ : ∃ side, W f = some side := h.side.elim (⟨_, ·⟩) (⟨_, ·⟩)
  have hon := hs.on f side hside
  have hn' : s'.names f = [] := by
    have hnames : s'.names f = (s.names f).map (side.name x y) := hon.vars.names_eq
    rw [hnames, h.empty, List.map_nil]
  have hlt := (hon.parent p hp).1
  refine ⟨p, hW, fun z => ⟨Store.holder?_of_empty h.empty hp hlt z, ?_⟩⟩
  exact Store.holder?_of_empty hn' ((hs.parent f).trans hp) hlt z

end Opening

section Laws

variable {x y : String} {W W' : Sides} {s s' t : Store} {f : FrameId} {n n' : Node}

/-- A name on each side, for both of which the frames from the same frame outwards count. -/
def Store.Resolves (x y : String) (W : Sides) (s s' : Store) (f : FrameId) (z z' : String) : Prop :=
  ∃ g side, W g = some side ∧ side ≠ .fresh ∧ z ≠ y ∧ z' = side.name x y z ∧
    ∀ name, s.holder? f name = s.holder? g name ∧ s'.holder? f name = s'.holder? g name

namespace Node.Paired

theorem resolves {V : Value → Value → Prop} {z z' : String} (hs : s.FramesOn V x y W s')
    (h : Paired x y W s f n n') (hz : n.words = [z]) (hdeclare : ∀ w init p, n ≠ .declare w init p)
    (hsame : n.Renaming x y n' → z' = z) (hmap : n' = n.mapNames (rename x y) → z' = rename x y z) :
    s.Resolves x y W s' f z z' := by
  have hne (hy : n.Avoids y) : z ≠ y := fun he => hy.here (by simp [hz, he])
  cases h with
  | outside hf h hy => exact ⟨f, .outer, hf, nofun, hne hy, hsame h, fun _ => ⟨rfl, rfl⟩⟩
  | inside hf h hn => exact ⟨f, .inner, hf, nofun, hne h.avoids, hmap hn, fun _ => ⟨rfl, rfl⟩⟩
  | opening => exact (hdeclare _ _ _ rfl).elim
  | first hf he hy =>
    obtain ⟨p, hp, hholder⟩ := hf.holder?_eq hs
    exact ⟨p, .outer, hp, nofun, hne hy, hsame (.refl n), hholder⟩

theorem resolves_name {V : Value → Value → Prop} {w w' : Word} (hs : s.FramesOn V x y W s')
    (h : Paired x y W s f (.name w) (.name w')) : s.Resolves x y W s' f w.text w'.text :=
  h.resolves hs rfl nofun (fun h => by rw [h.name_eq]) fun h => by cases h; rfl

theorem resolves_assign {V : Value → Value → Prop} {w w' : Word} {e e' : Node}
    {p p' : Option Place} (hs : s.FramesOn V x y W s')
    (h : Paired x y W s f (.assign w e p) (.assign w' e' p')) :
    s.Resolves x y W s' f w.text w'.text :=
  h.resolves hs rfl nofun (fun h => by rw [h.assign_eq]) fun h => by cases h; rfl

theorem parallel (h : Paired x y W s f n n') :
    n.Parallel Eq (fun _ _ => True) (Paired x y W s f) (fun _ _ => True) n' := by
  cases h with
  | outside hf h hy =>
    have hchild {c c' : Node} (hc : c ∈ n.operands) (hr : c.Renaming x y c') : Paired x y W s f c c' :=
      .outside hf hr (hy.child (mem_children_of_operands hc))
    cases h with
    | refl =>
      exact .refl (fun _ => rfl) (fun _ => trivial) (fun c hc => hchild hc (.refl c)) fun _ _ => trivial
    | block =>
      refine .block (.cons trivial ?_) rfl
      exact List.forall₂_map_right_iff.2 (List.forall₂_same.2 fun _ _ => trivial)
    | function =>
      refine .function trivial ?_ rfl trivial rfl
      exact List.forall₂_map_right_iff.2 (List.forall₂_same.2 fun _ _ => trivial)
    | within h =>
      exact h.imp (fun _ _ _ => trivial) (fun c c' hc hr => hchild hc hr) fun _ _ _ => trivial
  | inside hf h hn =>
    subst hn
    refine parallel_mapNames (fun _ => trivial) (fun c hc => ?_) fun _ _ => trivial
    exact .inside hf (h.child (mem_children_of_operands hc)) rfl
  | @opening q p init hf hxy hinit =>
    refine .declare trivial ?_ rfl
    cases init with
    | none => exact .none
    | some e => exact .some (.first hf (hinit e rfl).1 (hinit e rfl).2)
  | first hf he hy =>
    refine .refl (fun _ => rfl) (fun _ => trivial) (fun c hc => ?_) fun _ _ => trivial
    have hchild := mem_children_of_operands hc
    exact .first hf (he.child hchild) (hy.child hchild)

theorem during {c : Node} (h : Paired x y W s f n n') (hlt : f.index < s.frames.size)
    (hc : c ∈ n.operands) (hle : W.le W') (he : s.Extends t)
    (hn : c.Bindless → t.names f = s.names f) : Paired x y W' t f n n' := by
  -- The first value of a name binds nothing, so its region is not open yet.
  cases h with
  | outside hf h hy => exact .outside (hle.of_ne_fresh hf nofun) h hy
  | inside hf h hn => exact .inside (hle.of_ne_fresh hf nofun) h hn
  | @opening q p init hf hxy hinit =>
    cases init with
    | none => cases hc
    | some e =>
      obtain rfl : c = e := List.mem_singleton.1 hc
      exact .opening (hf.later hlt hle he (hn (hinit c rfl).1.bindless)) hxy hinit
  | first hf hscope hy =>
    have hoperand : c.Scopeless := hscope.child (mem_children_of_operands hc)
    exact .first (hf.later hlt hle he (hn hoperand.bindless)) hscope hy

end Node.Paired

namespace Store.FramesOn

theorem resolve {V : Value → Value → Prop} {z z' : String} (hs : s.FramesOn V x y W s')
    (h : s.Resolves x y W s' f z z') :
    (s.holder? f z = none ∧ s'.holder? f z' = none ∧ z' = z) ∨
      ∃ g on, s.holder? f z = some g ∧ s'.holder? f z' = some g ∧ W g = some on ∧ z ≠ y ∧
        z' = on.name x y z := by
  obtain ⟨g, side, hg, hside, hz, rfl, hholder⟩ := h
  obtain ⟨heq, hsome, hnone⟩ := hs.holder?_eq hg hside hz
  rw [(hholder z).1, (hholder _).2, heq]
  cases hh : s.holder? g z with
  | none => exact .inl ⟨rfl, rfl, hnone hh⟩
  | some k =>
    obtain ⟨on, hk, hname⟩ := hsome k hh
    exact .inr ⟨k, on, rfl, rfl, hk, hz, hname.symm⟩

theorem get?_resolve {V : Value → Value → Prop} {z z' : String} (hs : s.FramesOn V x y W s')
    (h : s.Resolves x y W s' f z z') :
    Option.Rel V (s.get? f z) (s'.get? f z') ∧ (s.get? f z = none → z' = z) := by
  rcases hs.resolve h with ⟨hh, hh', rfl⟩ | ⟨g, on, hh, hh', hg, hz, rfl⟩
  · unfold get?
    rw [hh, hh']
    exact ⟨.none, fun _ => rfl⟩
  · obtain ⟨v, v', hv, hv', hvv⟩ := hs.exists_get? hg hz hh hh'
    rw [hv, hv']
    exact ⟨.some hvv, nofun⟩

theorem search_resolve {V : Value → Value → Prop} {z z' : String} (hs : s.FramesOn V x y W s')
    (h : s.Resolves x y W s' f z z') (costs : Costs) : costs.search s' f z' = costs.search s f z := by
  refine costs.search_eq hs.parent ?_
  rcases hs.resolve h with ⟨hh, hh', -⟩ | ⟨g, on, hh, hh', -⟩
  · rw [hh, hh']
  · rw [hh, hh']

theorem later (h : s.FramesOn (Value.Alike (Closure.Renamed x y W)) x y W' s') (hle : W.le W') :
    s.FramesOn (Value.Alike (Closure.Renamed x y W')) x y W' s' :=
  h.mono fun _ _ hv => hv.mono fun _ _ hc => hc.mono hle

end Store.FramesOn

end Laws

theorem Node.EndsIn.mem_names_of_declare {limits : Limits} {w : Word} {init : Option Node}
    {p : Option Place} {f : FrameId} {s t : Store} {v : Value}
    (h : (Node.declare w init p).EndsIn limits f s (.value v) t) (hf : f.index < s.frames.size) :
    w.text ∈ t.names f := by
  rcases h with ⟨depth, fuel, h⟩ | ⟨h, -⟩
  · cases fuel with
    | zero => cases h
    | succ fuel =>
      cases init with
      | none =>
        cases h
        exact s.mem_names_define hf _ _
      | some e =>
        obtain ⟨-, v, u, he, hu⟩ := Task.carryOut_value.1 h
        cases hu
        exact u.mem_names_define (Nat.lt_of_lt_of_le hf (Activation.eval_extends hf he).frames_size) _ _
  · cases h

/-! The laws of the pairing, for the rules that touch frames. -/

section Rules

variable {x y : String} {limits : Limits} {W : Sides} {s s' : Store} {f : FrameId}
  {p p' : Option Place}

theorem Node.Paired.declare {V : Value → Value → Prop} {w w' : Word} {init init' : Option Node}
    {v v' : Value} (hs : s.FramesOn V x y W s')
    (h : Node.Paired x y W s f (.declare w init p) (.declare w' init' p')) (hv : V v v') :
    (s.define f w.text v).FramesOn V x y W (s'.define f w'.text v') := by
  have hne (hy : (Node.declare w init p).Avoids y) : w.text ≠ y := fun he => hy.here (by simp [words, he])
  cases h with
  | outside hf h hy =>
    rw [h.declare_eq]
    exact hs.define hf (hne hy) hv
  | inside hf h hn =>
    obtain rfl : w' = w.map (rename x y) := by
      cases init <;> cases hn <;> rfl
    exact hs.define hf (hne h.avoids) hv
  | opening hf hxy =>
    have hname : rename x y x = y := rename_self x y
    rcases hf.side with hside | hside
    · have hdef := hs.define hside hxy hv
      rwa [show Side.name x y .fresh x = y from hname] at hdef
    · have hdef := hs.define hside hxy hv
      rwa [show Side.name x y .inner x = y from hname] at hdef
  | first _ he => cases he.here

theorem Node.Paired.function {w w' : Word} {params params' : Parameters} {body body' : Node}
    (hs : (Pairing.renaming x y).frames W s s')
    (h : Node.Paired x y W s f (.function w params body p) (.function w' params' body' p')) :
    (Pairing.renaming x y).frames W
      (s.define f w.text (.function ⟨w.text, params.names.map (·.text), body, f⟩))
      (s'.define f w'.text (.function ⟨w'.text, params'.names.map (·.text), body', f⟩)) := by
  have hne (hy : (Node.function w params body p).Avoids y) :
      w.text ≠ y ∧ y ∉ params.names.map (·.text) := by
    have := hy.here
    simp only [words, List.mem_cons, not_or] at this
    exact ⟨fun he => this.1 he.symm, this.2⟩
  have hchild : body ∈ (Node.function w params body p).children := List.mem_singleton_self body
  cases h with
  | outside hf h hy =>
    obtain ⟨hname, hparams⟩ := hne hy
    obtain ⟨rfl, ⟨hnames, hb⟩ | ⟨hx, hbody, rfl, rfl⟩⟩ := h.function_cases
    · rw [hnames]
      exact hs.define hf hname (.function (.outside hf hparams hb (hy.child hchild)))
    · rw [Parameters.texts_map]
      exact hs.define hf hname
        (.function (.inside (.inr ⟨hf, hx⟩) hparams ⟨hy.child hchild, hbody⟩))
  | inside hf h hn =>
    cases hn
    obtain ⟨hname, hparams⟩ := hne h.avoids
    have hx : w.text ≠ x := fun he => h.namesNoFunction.here (by simp [functionName?, he])
    have hw : (w.map (rename x y)).text = w.text := rename_of_ne hx
    rw [Parameters.texts_map, hw]
    have hclosure : Closure.Renamed x y W ⟨w.text, params.names.map (·.text), body, f⟩
        ⟨w.text, (params.names.map (·.text)).map (rename x y), body.mapNames (rename x y), f⟩ :=
      .inside (.inl hf) hparams (h.child hchild)
    have hdef := hs.define hf hname (.function hclosure)
    rwa [Side.name_of_ne _ hx] at hdef
  | first _ he => cases he.here

theorem Pairing.statements_outside {ns ns' : List Node} (hf : W f = some .outer)
    (h : List.Forall₂ (Node.Renaming x y) ns ns') (hy : ∀ n ∈ ns, n.Avoids y) :
    (Pairing.renaming x y).Statements limits f W s ns ns' := by
  induction h generalizing W s with
  | nil => trivial
  | cons hr _ ih =>
    rw [List.forall_mem_cons] at hy
    refine ⟨.outside hf hr hy.1, fun W₁ v t t' hle _ ht => ⟨W₁, W₁.le_refl, ht.frames, ?_⟩⟩
    exact ih (hle.of_ne_fresh hf nofun) hy.2

theorem Pairing.statements_inside {ns : List Node} (hf : W f = some .inner)
    (h : ∀ n ∈ ns, n.Renamable x y) :
    (Pairing.renaming x y).Statements limits f W s ns (ns.map (Node.mapNames (rename x y))) := by
  induction ns generalizing W s with
  | nil => trivial
  | cons n ns ih =>
    rw [List.forall_mem_cons] at h
    refine ⟨.inside hf h.1 rfl, fun W₁ v t t' hle _ ht => ⟨W₁, W₁.le_refl, ht.frames, ?_⟩⟩
    exact ih (hle.of_ne_fresh hf nofun) h.2

theorem Pairing.statements_region {q place : Option Place} {init : Option Node} {rest : List Node}
    (hf : W.Opens s f) (hlt : f.index < s.frames.size) (hxy : x ≠ y)
    (hinit : ∀ e ∈ init, e.Scopeless ∧ e.Avoids y) (hrest : ∀ c ∈ rest, c.Renamable x y) :
    (Pairing.renaming x y).Statements limits f W s (.declare ⟨x, q⟩ init place :: rest)
      (.declare ⟨y, q⟩ init place :: rest.map (Node.mapNames (rename x y))) := by
  -- The first statement of a region binds its name; the others then stand inside.
  refine ⟨.opening hf hxy hinit, fun W₁ v t t' hle hends ht => ?_⟩
  have hx : x ∈ t.names f := hends.mem_names_of_declare hlt
  have hside : W₁ f = some .fresh ∨ W₁ f = some .inner := by
    rcases hf.side with hside | hside
    · exact (hle f _ hside).imp_right (·.2)
    · exact .inr (Sides.le.of_ne_fresh hle hside nofun)
  rcases hside with hside | hside
  · have hle₂ := Sides.le_set_inner hside
    refine ⟨Sides.set W₁ f .inner, hle₂, (ht.frames.enter hside hx).later hle₂, ?_⟩
    exact statements_inside (Sides.set_self W₁ f .inner) hrest
  · exact ⟨W₁, Sides.le_refl W₁, ht.frames, statements_inside hside hrest⟩

theorem Node.Paired.block {body body' : List Node} (hs : (Pairing.renaming x y).frames W s s')
    (h : Node.Paired x y W s f (.block body p) (.block body' p')) :
    ∃ W', W.le W' ∧
      (Pairing.renaming x y).frames W' (s.newFrame (some f) none none).2
        (s'.newFrame (some f) none none).2 ∧
      (Pairing.renaming x y).Statements limits (s.newFrame (some f) none none).1 W'
        (s.newFrame (some f) none none).2 body body' := by
  have hle (side : Side) : W.le (W.set (s.newFrame (some f) none none).1 side) :=
    Sides.le_set_new (hs.none_of_size_le (Nat.le_refl _)) side
  have hframes (side : Side) (hp : W f = some .outer ∧ side ≠ .inner ∨ side = .inner ∧ W f = some .inner) :=
    (hs.newFrame (some f) side (by grind) (by grind) none none).later (hle side)
  have hself (side : Side) := W.set_self (s.newFrame (some f) none none).1 side
  cases h with
  | outside hf h hy =>
    rcases h.block_cases with hb | ⟨q, place, init, rest, rfl, rfl, hinit, hrest⟩
    · refine ⟨_, hle .outer, hframes .outer (.inl ⟨hf, by decide⟩), ?_⟩
      exact Pairing.statements_outside (hself .outer) hb fun c hc => hy.child hc
    · -- The block opens a region; its frame is fresh until the name has been declared.
      have hxy : x ≠ y := fun he => (hy.child List.mem_cons_self).here (by simp [words, he])
      have hopens : (W.set (s.newFrame (some f) none none).1 .fresh).Opens
          (s.newFrame (some f) none none).2 (s.newFrame (some f) none none).1 := by
        refine ⟨.inl (hself .fresh), ?_, f, ?_, (hle .fresh).of_ne_fresh hf (by decide)⟩
        · rw [Store.names, Store.frame_newFrame_self]
          rfl
        · rw [Store.frame_newFrame_self]
      refine ⟨_, hle .fresh, hframes .fresh (.inl ⟨hf, by decide⟩), ?_⟩
      refine Pairing.statements_region hopens (s.newFrame_lt _ _ _) hxy (fun e he => ⟨hinit e he, ?_⟩)
        fun c hc => ⟨hy.child (List.mem_cons_of_mem _ hc), hrest c hc⟩
      exact (hy.child List.mem_cons_self).child (Option.mem_toList.2 he)
  | inside hf h hn =>
    cases hn
    rw [mapAllNames_eq_map]
    refine ⟨_, hle .inner, hframes .inner (.inr ⟨rfl, hf⟩), ?_⟩
    exact Pairing.statements_inside (hself .inner) fun c hc => h.child hc
  | first _ he => cases he.here

theorem Closure.Renamed.call {c c' : Closure} {args args' : List Value} (depth : Int)
    (hs : (Pairing.renaming x y).frames W s s') (h : c.Renamed x y W c')
    (hargs : List.Forall₂ ((Pairing.renaming x y).Values W) args args') :
    let new := s.newFrame (some c.scope) none (some depth)
    let new' := s'.newFrame (some c'.scope) none (some depth)
    ∃ W', W.le W' ∧
      (Pairing.renaming x y).frames W' (new.2.bind new.1 c.params args)
        (new'.2.bind new'.1 c'.params args') ∧
      Node.Paired x y W' (new.2.bind new.1 c.params args) new.1 c.body c'.body := by
  intro new new'
  have hle (side : Side) : W.le (W.set new.1 side) :=
    Sides.le_set_new (hs.none_of_size_le (Nat.le_refl _)) side
  have hself (side : Side) := W.set_self new.1 side
  have hnew : new'.1 = new.1 := congrArg FrameId.mk hs.size
  rw [hnew]
  cases h with
  | @outside name params body body' scope hscope hy hb ha =>
    have hframes := hs.newFrame (some scope) .outer (by grind) nofun none (some depth)
    have hbind := hframes.bind (hself .outer) hy hargs .nothing
    rw [show params.map (Side.name x y .outer) = params from List.map_id params] at hbind
    exact ⟨_, hle .outer, hbind.later (hle .outer), .outside (hself .outer) hb ha⟩
  | @inside name params body scope hscope hy hb =>
    rcases hscope with hscope | ⟨hscope, hx⟩
    · have hframes := hs.newFrame (some scope) .inner (by grind) (by grind) none (some depth)
      have hbind := hframes.bind (hself .inner) hy hargs .nothing
      exact ⟨_, hle .inner, hbind.later (hle .inner), .inside (hself .inner) hb rfl⟩
    · -- the parameter opens the region
      have hframes := hs.newFrame (some scope) .fresh (by grind) nofun none (some depth)
      have hbind := hframes.bind (hself .fresh) hy hargs .nothing
      have hx := new.2.mem_names_bind (s.newFrame_lt _ _ _) hx args
      have hle₂ := Sides.le_trans (hle .fresh) (Sides.le_set_inner (hself .fresh))
      refine ⟨_, hle₂, (hbind.enter (hself .fresh) hx).later hle₂, ?_⟩
      exact .inside (Sides.set_self _ _ _) hb rfl

end Rules

theorem Pairing.renaming_lawful (x y : String) (limits : Limits) :
    (Pairing.renaming x y).Lawful limits where
  le_refl := Sides.le_refl
  le_trans := Sides.le_trans
  place_none := rfl
  place_or := by
    rintro p _ q _ rfl rfl
    rfl
  closure_mono := Closure.Renamed.mono
  closure_name h := by cases h <;> rfl
  size h := h.size
  frames_congr h := h.congr
  parallel := Node.Paired.parallel
  during := Node.Paired.during
  name hs h := ⟨hs.search_resolve (h.resolves_name hs) limits.costs, hs.get?_resolve (h.resolves_name hs)⟩
  assign := by
    intro W s s' f w w' e e' p p' v v' hs h hv
    refine ⟨hs.search_resolve (h.resolves_assign hs) limits.costs, ?_⟩
    rcases hs.resolve (h.resolves_assign hs) with hnone | ⟨g, on, hh, hh', hg, hz, hw⟩
    · exact .inl hnone
    · refine .inr ⟨g, hh, hh', ?_⟩
      rw [hw]
      exact hs.define hg hz hv
  declare hs _ h hv := h.declare hs hv
  function hs _ h := h.function hs
  block hs _ h := h.block hs
  call depth hs h hargs := h.call depth hs hargs

theorem Pairing.renaming_sameDepths (x y : String) : (Pairing.renaming x y).SameDepths :=
  fun f h => h.depth f

/-! Whole programs, in a new root frame. -/

/-- What is seen of a value: of a function its name and the frame it was defined in. -/
def Value.outline : Value → Value
  | .function c => .function ⟨c.name, [], .sequence [] none, c.scope⟩
  | v => v

/-- Two runs have printed the same and ended with the same error or value, with the same arrays and
    records, up to the parameters and bodies of functions. -/
structure Program.SameEnd (r r' : Except Error Value × Store) : Prop where
  output : r'.2.output = r.2.output
  result : r'.1.map Value.outline = r.1.map Value.outline
  arrays : r'.2.arrays.map (·.map Value.outline) = r.2.arrays.map (·.map Value.outline)
  records : r'.2.records.map (·.entries.map fun e => (e.1, e.2.outline)) =
    r.2.records.map (·.entries.map fun e => (e.1, e.2.outline))

section Programs

variable {x y : String} {W : Sides} {s s' : Store}

theorem Value.Alike.outline_eq {v v' : Value} (h : v.Alike (Closure.Renamed x y W) v') :
    v'.outline = v.outline := by
  cases h with
  | same => rfl
  | function hc => cases hc <;> rfl

theorem Program.sameEnd_of_stores {out out' : Outcome} (hs : (Pairing.renaming x y).Stores W s s')
    (hout : (Pairing.renaming x y).Outcomes W out out') :
    SameEnd (result out, s) (result out', s') where
  output := hs.contents.output
  result := by
    cases hout with
    | value h => exact congrArg Except.ok h.outline_eq
    | returned h => exact congrArg Except.ok h.outline_eq
    | failed h => rw [show _ = _ from h]
    | aborted cause => rfl
  arrays := by
    refine Array.ext (by simp [hs.contents.arrays_size]) fun i hi' hi => ?_
    simp only [Array.size_map] at hi hi'
    have hitems := hs.contents.items ⟨i⟩
    simp only [Store.items, Array.getD_eq_getD_getElem?, Array.getElem?_eq_getElem hi,
      Array.getElem?_eq_getElem hi', Option.getD_some] at hitems
    rw [Array.getElem_map, Array.getElem_map]
    apply Array.toList_inj.1
    rw [Array.toList_map, Array.toList_map]
    exact map_eq_of_forall₂ hitems fun _ _ hv => hv.outline_eq
  records := by
    refine Array.ext (by simp [hs.contents.records_size]) fun i hi' hi => ?_
    simp only [Array.size_map] at hi hi'
    have hfields := hs.contents.fields ⟨i⟩
    simp only [Store.fields, Array.getD_eq_getD_getElem?, Array.getElem?_eq_getElem hi,
      Array.getElem?_eq_getElem hi', Option.getD_some] at hfields
    rw [Array.getElem_map, Array.getElem_map]
    exact map_eq_of_forall₂ hfields fun _ _ he => Prod.ext he.1 he.2.outline_eq

theorem Store.framesOn_newRoot (x : String) (hy : ∀ fn ∈ standardNatives, fn.name ≠ y)
    (file : Option String) :
    ∃ W : Sides, W (Store.empty.newRoot file).1 = some .outer ∧
      (Pairing.renaming x y).frames W (Store.empty.newRoot file).2 (Store.empty.newRoot file).2 := by
  let W : Sides := Sides.set (fun _ => none) (Store.empty.newRoot file).1 .outer
  let V := Value.Alike (Closure.Renamed x y W)
  have hempty : Store.empty.FramesOn V x y (fun _ => none) .empty :=
    ⟨rfl, fun _ => rfl, fun _ => rfl, fun _ => rfl, nofun⟩
  have hroot := hempty.newFrame none .outer nofun nofun file none
  refine ⟨W, Sides.set_self _ _ _, ?_⟩
  have hinstall (natives : List Native) (hn : ∀ fn ∈ natives, fn.name ≠ y) {W : Sides} {s : Store}
      {f : FrameId} (hf : W f = some .outer) (h : s.FramesOn V x y W s) :
      (s.install f natives).FramesOn V x y W (s.install f natives) := by
    induction natives generalizing s with
    | nil => exact h
    | cons fn natives ih =>
      rw [List.forall_mem_cons] at hn
      exact ih hn.2 (h.define hf hn.1 (.same nofun))
  exact hinstall standardNatives hy (Sides.set_self _ _ _) hroot

theorem Store.alike_newRoot {V : Value → Value → Prop} (file : Option String) :
    (Store.empty.newRoot file).2.Alike V (Store.empty.newRoot file).2 :=
  ((Store.Alike.empty.newFrame none none file file none none).define _ _ _ _ _ _).define _ _ _ _ _ _

theorem Node.Renaming.eval_sameEnd {program program' : Node} (h : program.Renaming x y program')
    (hy : program.Avoids y) (hhost : ∀ fn ∈ standardNatives, fn.name ≠ y) (limits : Limits)
    (file : Option String) (fuel : Nat) :
    Option.Rel (fun r r' => Program.SameEnd (Program.result r.1, r.2) (Program.result r'.1, r'.2))
      (Activation.eval limits fuel ⟨program, (Store.empty.newRoot file).1, 0⟩ (Store.empty.newRoot file).2)
      (Activation.eval limits fuel ⟨program', (Store.empty.newRoot file).1, 0⟩
        (Store.empty.newRoot file).2) := by
  obtain ⟨W, hroot, hframes⟩ := Store.framesOn_newRoot x hhost file
  have hactive : (Pairing.renaming x y).Active W (Store.empty.newRoot file).2 (Store.empty.newRoot file).2
      ⟨program, (Store.empty.newRoot file).1, 0⟩ program' :=
    ⟨⟨Store.alike_newRoot file, hframes⟩, (hframes.on _ _ hroot).lt, .outside hroot h hy⟩
  have hresults := Activation.eval_mirrors (Pairing.renaming_lawful x y limits)
    (Pairing.renaming_sameDepths x y) fuel hactive
  generalize Activation.eval limits fuel ⟨program, (Store.empty.newRoot file).1, 0⟩ _ = r,
    Activation.eval limits fuel ⟨program', (Store.empty.newRoot file).1, 0⟩ _ = r' at hresults
  cases hresults with
  | none => exact .none
  | some hr =>
    obtain ⟨W₁, -, hs, hout⟩ := hr
    exact .some (Program.sameEnd_of_stores hs hout)

end Programs

/-- Let `x` be called `y` in regions where it is local, and let `y` occur nowhere else. In a new root frame
    both programs print the same and end with the same error or the same value, up to the bodies of functions.
    -/
theorem renaming_keeps_behaviour [Host] {x y : String} {program program' : Node}
    (h : program.Renaming x y program') (hy : program.Avoids y)
    (hhost : ∀ fn ∈ standardNatives, fn.name ≠ y) (calls : Nat) (file : Option String) :
    (∀ steps r,
      Program.execute calls steps program (Store.empty.newRoot file).1 (Store.empty.newRoot file).2 = some r →
      ∃ steps' r', Program.execute calls steps' program' (Store.empty.newRoot file).1
        (Store.empty.newRoot file).2 = some r' ∧ Program.SameEnd r r') ∧
    ∀ steps r',
      Program.execute calls steps program' (Store.empty.newRoot file).1 (Store.empty.newRoot file).2 = some r' →
      ∃ steps' r, Program.execute calls steps' program (Store.empty.newRoot file).1
        (Store.empty.newRoot file).2 = some r ∧ Program.SameEnd r r' := by
  by_cases hlimit : Program.maxNesting < Program.nesting calls
  · -- the limit is refused before anything is evaluated
    simp only [Program.execute, if_pos hlimit, Option.some.injEq]
    exact ⟨fun _ r hr => ⟨0, r, hr, rfl, rfl, rfl, rfl⟩, fun _ r hr => ⟨0, r, hr, rfl, rfl, rfl, rfl⟩⟩
  · simp only [Program.execute, if_neg hlimit, Option.map_eq_some_iff]
    have hrel := h.eval_sameEnd hy hhost (Program.limits calls) file
    constructor
    · rintro steps r ⟨end₁, hrun, rfl⟩
      obtain ⟨steps', end₂, hrun', hsame⟩ := Machine.evaluate_of_rel hrel hrun
      exact ⟨steps', _, ⟨end₂, hrun', rfl⟩, hsame⟩
    · rintro steps r' ⟨end₂, hrun', rfl⟩
      obtain ⟨steps', end₁, hrun, hsame⟩ := Machine.evaluate_of_rel (fun fuel => rel_flip (hrel fuel)) hrun'
      exact ⟨steps', _, ⟨end₁, hrun, rfl⟩, hsame⟩

/-- A function that was defined where the inner `n` counts is called where the outer one does; it finds the
    inner one under either name. -/
theorem renaming_keeps_behaviour_escaping_function :
    ∃ program program' r r' steps,
      Program.parse
          "var n = 1; var f; \x7b var n = n + 1; fun g(k) \x7b return n + k; \x7d f = g; \x7d println(f(n));" =
        .ok program ∧
      Program.parse
          "var n = 1; var f; \x7b var m = n + 1; fun g(k) \x7b return m + k; \x7d f = g; \x7d println(f(n));" =
        .ok program' ∧
      program.Renaming "n" "m" program' ∧ program.Avoids "m" ∧
      Program.execute 50 400 program (Store.empty.newRoot none).1 (Store.empty.newRoot none).2 = some r ∧
      Program.execute 50 steps program' (Store.empty.newRoot none).1 (Store.empty.newRoot none).2 = some r' ∧
      r.2.output = "3\n" ∧ Program.SameEnd r r' := by
  have hrun : (match Program.parse
        "var n = 1; var f; \x7b var n = n + 1; fun g(k) \x7b return n + k; \x7d f = g; \x7d println(f(n));" with
    | .ok program =>
      match Program.execute 50 400 program (Store.empty.newRoot none).1 (Store.empty.newRoot none).2 with
      | some r => r.2.output == "3\n" && decide (program.Avoids "m")
      | none => false
    | .error _ => false) = true := by decide +kernel
  obtain ⟨program, program', hparse, hparse', hren⟩ : ∃ program program',
      Program.parse
          "var n = 1; var f; \x7b var n = n + 1; fun g(k) \x7b return n + k; \x7d f = g; \x7d println(f(n));" =
        .ok program ∧
      Program.parse
          "var n = 1; var f; \x7b var m = n + 1; fun g(k) \x7b return m + k; \x7d f = g; \x7d println(f(n));" =
        .ok program' ∧ program.Renaming "n" "m" program' := by
    refine ⟨_, _, by cbv, by cbv, ?_⟩
    refine .within (.sequence (.cons (.refl _) (.cons (.refl _) (.cons ?_ (.cons (.refl _) .nil)))) rfl)
    refine .block (fun e he => ?_) (by decide)
    cases he
    exact Node.scopeless_of_isExpression (by decide)
  rw [hparse] at hrun
  dsimp only at hrun
  split at hrun
  · rename_i r hr
    simp only [Bool.and_eq_true, beq_iff_eq, decide_eq_true_eq] at hrun
    obtain ⟨steps, r', hr', hsame⟩ :=
      (renaming_keeps_behaviour hren hrun.2 (by decide) 50 none).1 400 r hr
    exact ⟨program, program', r, r', steps, hparse, hparse', hren, hrun.2, hr, hr', hrun.1, hsame⟩
  · cases hrun

end Scripting
