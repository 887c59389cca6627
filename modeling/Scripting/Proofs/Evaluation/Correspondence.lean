import Scripting.Proofs.Evaluation.Names
import Scripting.Proofs.Node.Parallel
import Scripting.Proofs.Store.Likeness

/-!
Two programs that run in step. A pairing says when the frames of two stores, two functions, and two nodes
that are evaluated in the same frame correspond. What it has to satisfy is asked for once for each rule
that touches frames or functions; all other rules keep any pairing. Then the evaluation of corresponding
nodes with the same fuel either has no result on both sides or ends in corresponding outcomes and stores.
-/

set_option autoImplicit false

namespace Scripting

/-- What comes of a node that is asked for: the outcome of its evaluation or, if there is no room for
    that, an abort. -/
def Node.EndsIn (limits : Limits) (n : Node) (f : FrameId) (s : Store) (out : Outcome) (t : Store) :
    Prop :=
  (∃ depth fuel, Activation.eval limits fuel ⟨n, f, depth⟩ s = some (out, t)) ∨
    out = .aborted .stack ∧ t = s

namespace Node.EndsIn

variable {limits : Limits} {n : Node} {f : FrameId} {s t : Store} {out : Outcome}

theorem store_extends (h : n.EndsIn limits f s out t) (hf : f.index < s.frames.size) : s.Extends t := by
  rcases h with ⟨depth, fuel, h⟩ | ⟨-, rfl⟩
  · exact Activation.eval_extends hf h
  · exact .refl t

theorem names_eq (h : n.EndsIn limits f s out t) (hf : f.index < s.frames.size) (hn : n.Bindless) :
    t.names f = s.names f := by
  rcases h with ⟨depth, fuel, h⟩ | ⟨-, rfl⟩
  · exact Activation.eval_names hf hf (fun _ => hn) h
  · rfl

end Node.EndsIn

/-- When the two sides of a run correspond. The worlds keep account of the frames made so far. -/
structure Pairing where
  World : Type
  le : World → World → Prop
  place : Option Place → Option Place → Prop
  closure : World → Closure → Closure → Prop
  frames : World → Store → Store → Prop
  node : World → Store → FrameId → Node → Node → Prop

namespace Pairing

def Values (K : Pairing) (W : K.World) : Value → Value → Prop :=
  Value.Alike (K.closure W)

structure Stores (K : Pairing) (W : K.World) (s s' : Store) : Prop where
  contents : s.Alike (K.Values W) s'
  frames : K.frames W s s'

inductive Outcomes (K : Pairing) (W : K.World) : Outcome → Outcome → Prop where
  | value {v v' : Value} (h : K.Values W v v') : Outcomes K W (.value v) (.value v')
  | returned {v v' : Value} (h : K.Values W v v') : Outcomes K W (.returned v) (.returned v')
  | failed {fault : Fault} {p p' : Option Place} (h : K.place p p') :
      Outcomes K W (.failed ⟨fault, p⟩) (.failed ⟨fault, p'⟩)
  | aborted (cause : Abort) : Outcomes K W (.aborted cause) (.aborted cause)

/-- The nodes may be evaluated one after the other in the frame. Once a statement has ended with a value,
    the account of the frames may be brought up to date. -/
def Statements (K : Pairing) (limits : Limits) (f : FrameId) :
    K.World → Store → List Node → List Node → Prop
  | _, _, [], [] => True
  | W, s, n :: ns, n' :: ns' =>
    K.node W s f n n' ∧ ∀ W₁ v t t', K.le W W₁ → n.EndsIn limits f s (.value v) t →
      K.Stores W₁ t t' → ∃ W₂, K.le W₁ W₂ ∧ K.frames W₂ t t' ∧ K.Statements limits f W₂ t ns ns'
  | _, _, _, _ => False

/-- What keeps the two sides in step at nodes of the same form. -/
structure Coherent (K : Pairing) (limits : Limits) : Prop where
  le_refl (W : K.World) : K.le W W
  le_trans {W₁ W₂ W₃ : K.World} : K.le W₁ W₂ → K.le W₂ W₃ → K.le W₁ W₃
  place_none : K.place none none
  place_or {p p' q q' : Option Place} : K.place p p' → K.place q q' →
    K.place (p <|> q) (p' <|> q')
  closure_mono {W₁ W₂ : K.World} {c c' : Closure} : K.le W₁ W₂ → K.closure W₁ c c' → K.closure W₂ c c'
  closure_name {W : K.World} {c c' : Closure} : K.closure W c c' → c'.name = c.name
  size {W : K.World} {s s' : Store} : K.frames W s s' → s'.frames.size = s.frames.size
  frames_congr {W : K.World} {s s' t t' : Store} : K.frames W s s' → t.frames = s.frames →
    t'.frames = s'.frames → K.frames W t t'
  -- nodes
  during {W₁ W₂ : K.World} {s t : Store} {f : FrameId} {n n' c : Node} : K.node W₁ s f n n' →
    f.index < s.frames.size → c ∈ n.operands → K.le W₁ W₂ → s.Extends t →
      (c.Bindless → t.names f = s.names f) → K.node W₂ t f n n'
  -- names
  name {W : K.World} {s s' : Store} {f : FrameId} {w w' : Word} : K.frames W s s' →
    K.node W s f (.name w) (.name w') → limits.costs.search s' f w'.text = limits.costs.search s f w.text ∧
      Option.Rel (K.Values W) (s.get? f w.text) (s'.get? f w'.text) ∧
        (s.get? f w.text = none → w'.text = w.text)
  assign {W : K.World} {s s' : Store} {f : FrameId} {w w' : Word} {e e' : Node}
      {p p' : Option Place} {v v' : Value} : K.frames W s s' →
    K.node W s f (.assign w e p) (.assign w' e' p') → K.Values W v v' →
      limits.costs.search s' f w'.text = limits.costs.search s f w.text ∧
      ((s.holder? f w.text = none ∧ s'.holder? f w'.text = none ∧ w'.text = w.text) ∨
        ∃ h, s.holder? f w.text = some h ∧ s'.holder? f w'.text = some h ∧
          K.frames W (s.define h w.text v) (s'.define h w'.text v'))
  declare {W : K.World} {s s' : Store} {f : FrameId} {w w' : Word} {init init' : Option Node}
      {p p' : Option Place} {v v' : Value} : K.frames W s s' → f.index < s.frames.size →
    K.node W s f (.declare w init p) (.declare w' init' p') → K.Values W v v' →
      K.frames W (s.define f w.text v) (s'.define f w'.text v')
  function {W : K.World} {s s' : Store} {f : FrameId} {w w' : Word} {params params' : Parameters}
      {body body' : Node} {p p' : Option Place} : K.frames W s s' → f.index < s.frames.size →
    K.node W s f (.function w params body p) (.function w' params' body' p') →
      K.frames W (s.define f w.text (.function ⟨w.text, params.names.map (·.text), body, f⟩))
        (s'.define f w'.text (.function ⟨w'.text, params'.names.map (·.text), body', f⟩))
  -- new frames
  block {W : K.World} {s s' : Store} {f : FrameId} {body body' : List Node} {p p' : Option Place} :
    K.frames W s s' → f.index < s.frames.size → K.node W s f (.block body p) (.block body' p') →
      ∃ W', K.le W W' ∧
        K.frames W' (s.newFrame (some f) none none).2 (s'.newFrame (some f) none none).2 ∧
        K.Statements limits (s.newFrame (some f) none none).1 W' (s.newFrame (some f) none none).2
          body body'
  call {W : K.World} {s s' : Store} {c c' : Closure} {args args' : List Value} (depth : Int) :
    K.frames W s s' → K.closure W c c' → List.Forall₂ (K.Values W) args args' →
      let new := s.newFrame (some c.scope) none (some depth)
      let new' := s'.newFrame (some c'.scope) none (some depth)
      ∃ W', K.le W W' ∧
        K.frames W' (new.2.bind new.1 c.params args) (new'.2.bind new'.1 c'.params args') ∧
        K.node W' (new.2.bind new.1 c.params args) new.1 c.body c'.body

structure Lawful (K : Pairing) (limits : Limits) : Prop extends K.Coherent limits where
  parallel {W : K.World} {s : Store} {f : FrameId} {n n' : Node} : K.node W s f n n' →
    n.Parallel K.place (fun _ _ => True) (K.node W s f) (fun _ _ => True) n'

def SameDepths (K : Pairing) : Prop :=
  ∀ {W : K.World} {s s' : Store} (f : FrameId), K.frames W s s' → (s'.frame f).depth = (s.frame f).depth

structure Active (K : Pairing) (W : K.World) (s s' : Store) (a : Activation) (n' : Node) : Prop where
  stores : K.Stores W s s'
  scope : a.scope.index < s.frames.size
  node : K.node W s a.scope a.node n'

end Pairing

/-- The tasks of the activation and of the node beside it go in step from the given world on, if the nodes
    they ask for do. -/
def Task.Mirrors (K : Pairing) (limits : Limits) (a : Activation) (n' : Node) :
    K.World → Task → Task → Prop
  | W, .done out s, .done out' s' => ∃ W₁, K.le W W₁ ∧ K.Stores W₁ s s' ∧ K.Outcomes W₁ out out'
  | W, .visit cost c f s resume, .visit cost' c' f' s' resume' =>
    cost' = cost ∧ f' = f ∧ ∃ W₁, K.le W W₁ ∧ K.Active W₁ s s' ⟨c, f, a.depth + cost⟩ c' ∧
      ∀ W₂ out out' t t', K.le W₁ W₂ → c.EndsIn limits f s out t → K.Stores W₂ t t' →
        K.Outcomes W₂ out out' → (resume out t).Mirrors K limits a n' W₂ (resume' out' t')
  | W, .again s, .again s' => ∃ W₁, K.le W W₁ ∧ K.Active W₁ s s' a n'
  | _, _, _ => False

namespace Pairing.Coherent

variable {K : Pairing} {limits : Limits} {W W₁ : K.World} {s s' t t' : Store} {a : Activation}
  {n' : Node}

theorem values_mono (hK : K.Coherent limits) {v v' : Value} (hle : K.le W W₁) (h : K.Values W v v') :
    K.Values W₁ v v' :=
  h.mono fun _ _ => hK.closure_mono hle

theorem contents_mono (hK : K.Coherent limits) (hle : K.le W W₁) (h : s.Alike (K.Values W) s') :
    s.Alike (K.Values W₁) s' :=
  h.mono fun _ _ => hK.values_mono hle

theorem stores_congr (hK : K.Coherent limits) (h : K.Stores W s s') (hc : t.Alike (K.Values W) t')
    (hf : t.frames = s.frames) (hf' : t'.frames = s'.frames) : K.Stores W t t' :=
  ⟨hc, hK.frames_congr h.frames hf hf'⟩

theorem stores_newArray (hK : K.Coherent limits) {items items' : Array Value} (h : K.Stores W s s')
    (hi : List.Forall₂ (K.Values W) items.toList items'.toList) :
    K.Stores W (s.newArray items).2 (s'.newArray items').2 ∧
      K.Values W (.array (s.newArray items).1) (.array (s'.newArray items').1) := by
  refine ⟨hK.stores_congr h (h.contents.newArray hi) rfl rfl, ?_⟩
  rw [show (s'.newArray items').1 = (s.newArray items).1 from
    congrArg ArrayId.mk h.contents.arrays_size]
  exact .same nofun

theorem stores_newRecord (hK : K.Coherent limits) {fields fields' : Table Value}
    (h : K.Stores W s s') (hf : fields.Alike id (K.Values W) fields') :
    K.Stores W (s.newRecord fields).2 (s'.newRecord fields').2 ∧
      K.Values W (.record (s.newRecord fields).1) (.record (s'.newRecord fields').1) := by
  refine ⟨hK.stores_congr h (h.contents.newRecord hf) rfl rfl, ?_⟩
  rw [show (s'.newRecord fields').1 = (s.newRecord fields).1 from
    congrArg RecordId.mk h.contents.records_size]
  exact .same nofun

theorem outcomes_locate (hK : K.Coherent limits) {out out' : Outcome} {p p' : Option Place}
    (h : K.Outcomes W out out') (hp : K.place p p') : K.Outcomes W (out.locate p) (out'.locate p') := by
  cases h with
  | value h => exact .value h
  | returned h => exact .returned h
  | failed h => exact .failed (hK.place_or h hp)
  | aborted cause => exact .aborted cause

theorem active_after (hK : K.Coherent limits) (ha : K.Active W s s' a n') {c : Node} {out : Outcome}
    (hc : c ∈ a.node.operands) (hle : K.le W W₁) (hends : c.EndsIn limits a.scope s out t)
    (ht : K.Stores W₁ t t') : K.Active W₁ t t' a n' := by
  have he := hends.store_extends ha.scope
  refine ⟨ht, Nat.lt_of_lt_of_le ha.scope he.frames_size, ?_⟩
  exact hK.during ha.node ha.scope hc hle he fun hb => hends.names_eq ha.scope hb

end Pairing.Coherent

namespace Task

variable {K : Pairing} {limits : Limits} {cost : Nat} {a : Activation} {n' : Node} {W : K.World}
  {s s' : Store}

theorem Mirrors.mono (hK : K.Coherent limits) {W₁ : K.World} {task task' : Task} (hle : K.le W W₁)
    (h : task.Mirrors K limits a n' W₁ task') : task.Mirrors K limits a n' W task' := by
  cases task with
  | done out s =>
    cases task' with
    | done out' s' =>
      obtain ⟨W₂, h₂, hrest⟩ := h
      exact ⟨W₂, hK.le_trans hle h₂, hrest⟩
    | _ => exact h.elim
  | visit cost c f s resume =>
    cases task' with
    | visit cost' c' f' s' resume' =>
      obtain ⟨hcost, hf, W₂, h₂, hrest⟩ := h
      exact ⟨hcost, hf, W₂, hK.le_trans hle h₂, hrest⟩
    | _ => exact h.elim
  | again s =>
    cases task' with
    | again s' =>
      obtain ⟨W₂, h₂, hrest⟩ := h
      exact ⟨W₂, hK.le_trans hle h₂, hrest⟩
    | _ => exact h.elim

theorem mirrors_done (hK : K.Coherent limits) {out out' : Outcome} (hs : K.Stores W s s')
    (hout : K.Outcomes W out out') : (done out s).Mirrors K limits a n' W (done out' s') :=
  ⟨W, hK.le_refl W, hs, hout⟩

theorem mirrors_within (hK : K.Coherent limits) {depth more : Nat} {task task' : Task}
    (hs : K.Stores W s s') (h : task.Mirrors K limits a n' W task') :
    (within limits depth more s task).Mirrors K limits a n' W (within limits depth more s' task') := by
  unfold within
  split
  · exact h
  · exact mirrors_done hK hs (.aborted .stack)

theorem mirrors_yield (hK : K.Coherent limits) {v v' : Value} (hs : K.Stores W s s')
    (hv : K.Values W v v') : (yield v s).Mirrors K limits a n' W (yield v' s') :=
  mirrors_done hK hs (.value hv)

theorem mirrors_fail (hK : K.Coherent limits) (fault : Fault) (hs : K.Stores W s s') :
    (fail fault s).Mirrors K limits a n' W (fail fault s') :=
  mirrors_done hK hs (.failed hK.place_none)

theorem mirrors_ofExcept (hK : K.Coherent limits) {r r' : Except Fault Value} (hs : K.Stores W s s')
    (h : ExceptAlike (K.Values W) r r') : (ofExcept s r).Mirrors K limits a n' W (ofExcept s' r') := by
  cases h with
  | ok h => exact mirrors_yield hK hs h
  | error fault => exact mirrors_fail hK fault hs

theorem mirrors_visit (hK : K.Coherent limits) {c c' : Node} {f : FrameId}
    {k k' : Value → Store → Task} (hc : K.Active W s s' ⟨c, f, a.depth + cost⟩ c')
    (hk : ∀ W₁ v v' t t', K.le W W₁ → c.EndsIn limits f s (.value v) t → K.Stores W₁ t t' →
      K.Values W₁ v v' → (k v t).Mirrors K limits a n' W₁ (k' v' t')) :
    (value cost c f s k).Mirrors K limits a n' W (value cost c' f s' k') := by
  refine ⟨rfl, rfl, W, hK.le_refl W, hc, fun W₁ out out' t t' hle hends ht hout => ?_⟩
  cases hout with
  | value h => exact hk W₁ _ _ t t' hle hends ht h
  | returned h => exact mirrors_done hK ht (.returned h)
  | failed h => exact mirrors_done hK ht (.failed h)
  | aborted cause => exact mirrors_done hK ht (.aborted cause)

theorem mirrors_value (hK : K.Coherent limits) {c c' : Node} {k k' : Value → Store → Task}
    (ha : K.Active W s s' a n') (hc : c ∈ a.node.operands) (hcc : K.node W s a.scope c c')
    (hk : ∀ W₁ v v' t t', K.le W W₁ → K.Active W₁ t t' a n' → K.Values W₁ v v' →
      (k v t).Mirrors K limits a n' W₁ (k' v' t')) :
    (value cost c a.scope s k).Mirrors K limits a n' W (value cost c' a.scope s' k') :=
  mirrors_visit hK ⟨ha.stores, ha.scope, hcc⟩ fun W₁ v v' t t' hle hends ht hv =>
    hk W₁ v v' t t' hle (hK.active_after ha hc hle hends ht) hv

theorem mirrors_statements (hK : K.Coherent limits) {nodes nodes' : List Node} {f : FrameId}
    {last last' : Value} (hs : K.Stores W s s') (hf : f.index < s.frames.size)
    (hn : K.Statements limits f W s nodes nodes') (hv : K.Values W last last') :
    (sequence cost f nodes last s).Mirrors K limits a n' W (sequence cost f nodes' last' s') := by
  induction nodes generalizing W s s' nodes' last last' with
  | nil =>
    cases nodes' with
    | nil => exact mirrors_yield hK hs hv
    | cons _ _ => exact hn.elim
  | cons n nodes ih =>
    cases nodes' with
    | nil => exact hn.elim
    | cons n' nodes' =>
      refine mirrors_visit hK ⟨hs, hf, hn.1⟩ fun W₁ v v' t t' hle hends ht hv => ?_
      obtain ⟨W₂, hle₂, hframes, hrest⟩ := hn.2 W₁ v t t' hle hends ht
      refine Mirrors.mono hK hle₂ (ih ⟨hK.contents_mono hle₂ ht.contents, hframes⟩ ?_ hrest ?_)
      · exact Nat.lt_of_lt_of_le hf (hends.store_extends hf).frames_size
      · exact hK.values_mono hle₂ hv

theorem mirrors_sequence (hK : K.Coherent limits) {nodes nodes' : List Node} {last last' : Value}
    (ha : K.Active W s s' a n') (hc : ∀ c ∈ nodes, c ∈ a.node.operands)
    (hn : ∀ W₁ t t', K.Active W₁ t t' a n' → List.Forall₂ (K.node W₁ t a.scope) nodes nodes')
    (hv : K.Values W last last') :
    (sequence cost a.scope nodes last s).Mirrors K limits a n' W
      (sequence cost a.scope nodes' last' s') := by
  -- The condition is kept by each node, so the next one may start.
  induction nodes generalizing W s s' nodes' last last' with
  | nil =>
    cases hn W s s' ha
    exact mirrors_yield hK ha.stores hv
  | cons n nodes ih =>
    cases nodes' with
    | nil => cases hn W s s' ha
    | cons m nodes' =>
      rw [List.forall_mem_cons] at hc
      refine mirrors_value hK ha hc.1 (List.forall₂_cons.1 (hn W s s' ha)).1 fun W₁ v v' t t' _ ht hv => ?_
      exact ih ht hc.2 (fun W₂ u u' hu => (List.forall₂_cons.1 (hn W₂ u u' hu)).2) hv

theorem mirrors_collect (hK : K.Coherent limits) {nodes nodes' : List Node}
    {k k' : List Value → Store → Task} {seen seen' : List Value} (ha : K.Active W s s' a n')
    (hc : ∀ c ∈ nodes, c ∈ a.node.operands)
    (hn : ∀ W₁ t t', K.Active W₁ t t' a n' → List.Forall₂ (K.node W₁ t a.scope) nodes nodes')
    (hseen : List.Forall₂ (K.Values W) seen seen')
    (hk : ∀ W₁ vs vs' t t', K.le W W₁ → K.Active W₁ t t' a n' → List.Forall₂ (K.Values W₁) vs vs' →
      (k vs t).Mirrors K limits a n' W₁ (k' vs' t')) :
    (collect cost a.scope k nodes seen s).Mirrors K limits a n' W
      (collect cost a.scope k' nodes' seen' s') := by
  induction nodes generalizing W s s' nodes' seen seen' with
  | nil =>
    cases hn W s s' ha
    exact hk W _ _ s s' (hK.le_refl W) ha (List.rel_reverse hseen)
  | cons n nodes ih =>
    cases nodes' with
    | nil => cases hn W s s' ha
    | cons m nodes' =>
      rw [List.forall_mem_cons] at hc
      refine mirrors_value hK ha hc.1 (List.forall₂_cons.1 (hn W s s' ha)).1 fun W₁ v v' t t' hle ht hv => ?_
      refine ih ht hc.2 (fun W₂ u u' hu => (List.forall₂_cons.1 (hn W₂ u u' hu)).2) ?_ ?_
      · exact .cons hv (hseen.imp fun _ _ => hK.values_mono hle)
      · exact fun W₂ vs vs' u u' hle₂ => hk W₂ vs vs' u u' (hK.le_trans hle hle₂)

theorem mirrors_collectFields (hK : K.Coherent limits) {fields fields' : List (Field Node)}
    {seen seen' : Table Value} (ha : K.Active W s s' a n')
    (hc : ∀ f ∈ fields, f.value ∈ a.node.operands)
    (hkeys : List.Forall₂ (fun f f' => f'.key.text = f.key.text) fields fields')
    (hn : ∀ W₁ t t', K.Active W₁ t t' a n' →
      List.Forall₂ (K.node W₁ t a.scope) (fields.map (·.value)) (fields'.map (·.value)))
    (hseen : seen.Alike id (K.Values W) seen') :
    (collectFields a.scope fields seen s).Mirrors K limits a n' W
      (collectFields a.scope fields' seen' s') := by
  induction hkeys generalizing W s s' seen seen' with
  | nil =>
    obtain ⟨hs, hv⟩ := hK.stores_newRecord ha.stores hseen
    exact mirrors_yield hK hs hv
  | @cons field field' fields fields' hkey _ ih =>
    obtain ⟨key, value, q⟩ := field
    obtain ⟨key', value', q'⟩ := field'
    rw [List.forall_mem_cons] at hc
    refine mirrors_value hK ha hc.1 (List.forall₂_cons.1 (hn W s s' ha)).1 fun W₁ v v' t t' hle ht hv => ?_
    refine ih ht hc.2 (fun W₂ u u' hu => (List.forall₂_cons.1 (hn W₂ u u' hu)).2) ?_
    rw [show key'.text = key.text from hkey]
    exact (hseen.mono fun _ _ => hK.values_mono hle).put hv fun _ _ he => he

theorem mirrors_test (hK : K.Coherent limits) {keyword : String} {c c' : Node}
    {k k' : Bool → Store → Task} (ha : K.Active W s s' a n') (hc : c ∈ a.node.operands)
    (hcc : K.node W s a.scope c c')
    (hk : ∀ W₁ b t t', K.le W W₁ → K.Active W₁ t t' a n' →
      (k b t).Mirrors K limits a n' W₁ (k' b t')) :
    (test keyword c a.scope s k).Mirrors K limits a n' W (test keyword c' a.scope s' k') := by
  refine mirrors_value hK ha hc hcc fun W₁ v v' t t' hle ht hv => ?_
  cases hv with
  | function => exact mirrors_fail hK _ ht.stores
  | same =>
    cases v with
    | boolean b => exact hk W₁ b t t' hle ht
    | _ => exact mirrors_fail hK _ ht.stores

end Task

section Calls

variable {K : Pairing} {limits : Limits} {a : Activation} {n' : Node} {W : K.World} {s s' : Store}

theorem Native.call_mirrors (hK : K.Coherent limits) (fn : Native)
    (hdepth : fn.host = .callDepth → K.SameDepths) (levels : Option Nat)
    {receiver receiver' : Option Value} {args args' : List Value} (caller : FrameId)
    (hs : K.Stores W s s') (hreceiver : Option.Rel (K.Values W) receiver receiver')
    (hargs : List.Forall₂ (K.Values W) args args') :
    (fn.call levels caller receiver args s).Mirrors K limits a n' W
      (fn.call levels caller receiver' args' s') := by
  have hobject : Option.Rel (K.Values W) (fn.bound.map Value.array <|> receiver)
      (fn.bound.map Value.array <|> receiver') := by
    cases fn.bound with
    | none => exact hreceiver
    | some a => exact .some (.same nofun)
  generalize ho : (fn.bound.map Value.array <|> receiver) = object,
    ho' : (fn.bound.map Value.array <|> receiver') = object' at hobject
  unfold Native.call
  rw [ho, ho']
  cases hhost : fn.host with
  | printLine =>
    have htexts : args'.mapM (s'.display levels) = args.mapM (s.display levels) :=
      mapM_eq_of_forall₂ hargs fun v v' hv =>
        hs.contents.display_eq (fun _ _ => hK.closure_name) levels hv
    dsimp only
    rw [htexts]
    cases args.mapM (s.display levels) with
    | some texts =>
      exact Task.mirrors_yield hK (hK.stores_congr hs (hs.contents.write _) rfl rfl) .nothing
    | none => exact Task.mirrors_done hK hs (.aborted (.text levels))
  | typeName =>
    cases hargs with
    | nil => exact Task.mirrors_fail hK _ hs
    | cons hv hrest =>
      cases hrest with
      | nil =>
        dsimp only
        rw [hv.typeName_eq]
        exact Task.mirrors_yield hK hs (.same nofun)
      | cons _ hrest =>
        dsimp only [List.length_cons]
        rw [hrest.length_eq]
        exact Task.mirrors_fail hK _ hs
  | push =>
    cases hobject with
    | none => exact Task.mirrors_fail hK _ hs
    | @some v v' hv =>
      cases hv with
      | function => exact Task.mirrors_fail hK _ hs
      | same =>
        cases v with
        | array a =>
          exact Task.mirrors_yield hK (hK.stores_congr hs (hs.contents.append a hargs) rfl rfl) .nothing
        | _ => exact Task.mirrors_fail hK _ hs
  | receiver =>
    refine Task.mirrors_yield hK hs ?_
    cases hobject with
    | none => exact .nothing
    | some hv => exact hv
  | argumentCount =>
    dsimp only
    rw [hargs.length_eq]
    exact Task.mirrors_yield hK hs (.same nofun)
  | argumentArray =>
    have hitems : List.Forall₂ (K.Values W) args.toArray.toList args'.toArray.toList := hargs
    obtain ⟨hs', hv⟩ := hK.stores_newArray hs hitems
    exact Task.mirrors_yield hK hs' hv
  | callDepth =>
    dsimp only
    rw [hdepth hhost caller hs.frames]
    exact Task.mirrors_yield hK hs (.same nofun)
  | nothing => exact Task.mirrors_yield hK hs .nothing
  | foreign type => exact Task.mirrors_fail hK _ hs

theorem Task.leave_mirrors (hK : K.Coherent limits) {out out' : Outcome} (hs : K.Stores W s s')
    (hout : K.Outcomes W out out') :
    (Task.leave out s).Mirrors K limits a n' W (Task.leave out' s') := by
  cases hout with
  | value h => exact mirrors_yield hK hs .nothing
  | returned h => exact mirrors_yield hK hs h
  | failed h => exact mirrors_done hK hs (.failed h)
  | aborted cause => exact mirrors_done hK hs (.aborted cause)

theorem Closure.call_mirrors (hK : K.Coherent limits) (hdepth : K.SameDepths) {c c' : Closure}
    {args args' : List Value} (caller : FrameId) (hs : K.Stores W s s') (hc : K.closure W c c')
    (hargs : List.Forall₂ (K.Values W) args args') :
    (c.call limits caller args s).Mirrors K limits a n' W (c'.call limits caller args' s') := by
  unfold Closure.call
  rw [hdepth caller hs.frames, hK.closure_name hc]
  dsimp only
  split
  · exact Task.mirrors_fail hK _ hs
  · obtain ⟨W₁, hle, hframes, hbody⟩ := hK.call ((s.frame caller).depth + 1) hs.frames hc hargs
    have hcontents := (hs.contents.newFrame (some c.scope) (some c'.scope) none none
      (some ((s.frame caller).depth + 1)) (some ((s.frame caller).depth + 1))).bind
        (s.newFrame (some c.scope) none (some ((s.frame caller).depth + 1))).1
        (s'.newFrame (some c'.scope) none (some ((s.frame caller).depth + 1))).1 c.params c'.params args args'
    refine ⟨rfl, congrArg FrameId.mk (hK.size hs.frames), W₁, hle, ⟨⟨?_, hframes⟩, ?_, hbody⟩, ?_⟩
    · exact hK.contents_mono hle hcontents
    · exact Nat.lt_of_lt_of_le (s.newFrame_lt _ _ _) (Store.Extends.bind _ _ _ _).frames_size
    · exact fun W₂ out out' t t' _ _ ht hout => Task.leave_mirrors hK ht hout

theorem Value.call_mirrors (hK : K.Coherent limits) (hdepth : K.SameDepths) {callee callee' : Value}
    {depth : Nat} {receiver receiver' : Option Value} {args args' : List Value} (caller : FrameId)
    (hs : K.Stores W s s') (hc : K.Values W callee callee')
    (hreceiver : Option.Rel (K.Values W) receiver receiver')
    (hargs : List.Forall₂ (K.Values W) args args') :
    (callee.call limits depth caller receiver args s).Mirrors K limits a n' W
      (callee'.call limits depth caller receiver' args' s') := by
  cases hc with
  | function hc => exact Closure.call_mirrors hK hdepth caller hs hc hargs
  | same h =>
    cases callee with
    | native fn => exact Native.call_mirrors hK fn (fun _ => hdepth) _ caller hs hreceiver hargs
    | function c => exact (h c rfl).elim
    | _ => exact Task.mirrors_fail hK _ hs

theorem Task.mirrors_apply (hK : K.Coherent limits) (hdepth : K.SameDepths) {callee callee' : Value}
    {depth : Nat} {receiver receiver' : Option Value} {args args' : List Node} (ha : K.Active W s s' a n')
    (hc : K.Values W callee callee') (hreceiver : Option.Rel (K.Values W) receiver receiver')
    (hm : ∀ c ∈ args, c ∈ a.node.operands)
    (hn : ∀ W₁ t t', K.Active W₁ t t' a n' → List.Forall₂ (K.node W₁ t a.scope) args args') :
    (apply limits depth callee receiver args a.scope s).Mirrors K limits a n' W
      (apply limits depth callee' receiver' args' a.scope s') := by
  unfold apply
  rw [hc.isCallable_eq]
  split
  · refine mirrors_collect hK ha hm hn .nil fun W₁ vs vs' t t' hle ht hvs => ?_
    refine Value.call_mirrors hK hdepth a.scope ht.stores (hK.values_mono hle hc) ?_ hvs
    cases hreceiver with
    | none => exact .none
    | some hv => exact .some (hK.values_mono hle hv)
  · rw [hc.typeName_eq]
    exact mirrors_fail hK _ ha.stores

end Calls

/-- The rules of corresponding nodes go in step, if the nodes have the same form. Only a call looks at the
    depth of a frame. -/
theorem Node.start_mirrors {K : Pairing} {limits : Limits} (hK : K.Coherent limits) {W : K.World}
    {s s' : Store} {depth : Nat} {scope : FrameId} {n n' : Node}
    (hparallel : ∀ {W s}, K.node W s scope n n' →
      n.Parallel K.place (fun _ _ => True) (K.node W s scope) (fun _ _ => True) n')
    (hdepth : n.isCall → K.SameDepths) (ha : K.Active W s s' ⟨n, scope, depth⟩ n') :
    (n.start limits depth scope s).Mirrors K limits ⟨n, scope, depth⟩ n' W
      (n'.start limits depth scope s') := by
  have hs := ha.stores
  -- Which children correspond depends on the store, so the form is asked for again after each of them.
  cases hparallel ha.node with
  | @number w w' ht =>
    rw [Node.start, Node.start, ht]
    refine Task.mirrors_within hK hs ?_
    cases Text.integer? w.text with
    | some i => exact Task.mirrors_yield hK hs (.same (by simp))
    | none => exact Task.mirrors_done hK hs (.aborted .unreadable)
  | string ht =>
    rw [Node.start, Node.start, ht]
    exact Task.mirrors_within hK hs (Task.mirrors_yield hK hs (.same (by simp)))
  | boolean => exact Task.mirrors_within hK hs (Task.mirrors_yield hK hs (.same (by simp)))
  | @name w w' =>
    obtain ⟨hsearch, hfound, htext⟩ := hK.name hs.frames ha.node
    rw [Node.start, Node.start, hsearch]
    refine Task.mirrors_within hK hs ?_
    generalize hget : s.get? scope w.text = found, s'.get? scope w'.text = found' at hfound htext
    cases hfound with
    | none =>
      rw [htext rfl]
      exact Task.mirrors_fail hK _ hs
    | some hv => exact Task.mirrors_yield hK hs hv
  | binary hl =>
    refine Task.mirrors_value hK ha (by simp [operands, children]) hl fun W₁ x x' t t' _ ht hx => ?_
    cases hparallel ht.node with
    | binary _ hr =>
    refine Task.mirrors_value hK ht (by simp [operands, children]) hr fun W₂ y y' u u' hle hu hy => ?_
    exact Task.mirrors_ofExcept hK hu.stores (Value.Alike.operate (hK.values_mono hle hx) hy _)
  | negate he =>
    refine Task.mirrors_value hK ha (by simp [operands, children]) he fun W₁ v v' t t' _ ht hv => ?_
    exact Task.mirrors_ofExcept hK ht.stores (Value.Alike.negate hv)
  | array hi =>
    refine Task.mirrors_collect hK ha (fun c hc => hc) (fun W₁ t t' ht => ?_) .nil
      fun W₁ vs vs' t t' _ ht hvs => ?_
    · cases hparallel ht.node with
      | array hi => exact hi
    · have hitems : List.Forall₂ (K.Values W₁) vs.toArray.toList vs'.toArray.toList := hvs
      obtain ⟨ht', hv⟩ := hK.stores_newArray ht.stores hitems
      exact Task.mirrors_yield hK ht' hv
  | record hkeys =>
    refine Task.mirrors_collectFields hK ha (fun f hf => List.mem_map_of_mem hf)
      (hkeys.imp fun _ _ h => h.1) (fun W₁ t t' ht => ?_) .empty
    cases hparallel ht.node with
    | record _ hv => exact hv
  | item hb =>
    refine Task.mirrors_value hK ha (by simp [operands, children]) hb fun W₁ b b' t t' _ ht hb => ?_
    cases hparallel ht.node with
    | item _ hk =>
    refine Task.mirrors_value hK ht (by simp [operands, children]) hk fun W₂ k k' u u' hle hu hk => ?_
    exact Task.mirrors_ofExcept hK hu.stores (hu.stores.contents.getItem (hK.values_mono hle hb) hk)
  | call hc =>
    refine Task.mirrors_value hK ha (by simp [operands, children]) hc fun W₁ c c' t t' _ ht hc => ?_
    refine Task.mirrors_apply hK (hdepth rfl) ht hc .none (fun c hc => List.mem_cons_of_mem _ hc)
      fun W₂ u u' hu => ?_
    cases hparallel hu.node with
    | call _ hargs => exact hargs
  | methodCall hr =>
    refine Task.mirrors_value hK ha (by simp [operands, children]) hr fun W₁ r r' t t' _ ht hr => ?_
    cases hparallel ht.node with
    | methodCall _ hk =>
    refine Task.mirrors_value hK ht (by simp [operands, children]) hk fun W₂ k k' u u' hle hu hk => ?_
    have hr := hK.values_mono hle hr
    have hitem := hu.stores.contents.getItem hr hk
    generalize u.getItem r k = found, u'.getItem r' k' = found' at hitem
    cases hitem with
    | ok hc =>
      refine Task.mirrors_apply hK (hdepth rfl) hu hc (.some hr)
        (fun c hc => List.mem_cons_of_mem _ (List.mem_cons_of_mem _ hc)) fun W₃ x x' hx => ?_
      cases hparallel hx.node with
      | methodCall _ _ hargs => exact hargs
    | error fault => exact Task.mirrors_fail hK fault hu.stores
  | assign _ hv =>
    refine Task.mirrors_value hK ha (by simp [operands, children]) hv fun W₁ v v' t t' _ ht hv => ?_
    obtain ⟨hsearch, hheld⟩ := hK.assign ht.stores.frames ht.node hv
    rw [hsearch]
    refine Task.mirrors_within hK ht.stores ?_
    rcases hheld with ⟨h, h', htext⟩ | ⟨holder, h, h', hframes⟩
    · dsimp only at h h' ⊢
      rw [h, h', htext]
      exact Task.mirrors_fail hK _ ht.stores
    · dsimp only at h h' ⊢
      rw [h, h']
      exact Task.mirrors_yield hK ⟨ht.stores.contents.define _ _ _ _ _ _, hframes⟩ hv
  | setItem hb =>
    refine Task.mirrors_value hK ha (by simp [operands, children]) hb fun W₁ b b' t t' _ ht hb => ?_
    cases hparallel ht.node with
    | setItem _ hk =>
    refine Task.mirrors_value hK ht (by simp [operands, children]) hk fun W₂ k k' u u' hle₂ hu hk => ?_
    cases hparallel hu.node with
    | setItem _ _ hv =>
    refine Task.mirrors_value hK hu (by simp [operands, children]) hv fun W₃ v v' x x' hle₃ hx hv => ?_
    rw [hx.stores.contents.slot_eq (hK.values_mono (hK.le_trans hle₂ hle₃) hb) (hK.values_mono hle₃ hk)]
    cases x.slot b k with
    | ok slot =>
      have hslot := hx.stores.contents.fill slot hv
      refine Task.mirrors_yield hK (hK.stores_congr hx.stores hslot ?_ ?_) hv
      · cases slot <;> rfl
      · cases slot <;> rfl
    | error fault => exact Task.mirrors_fail hK fault hx.stores
  | sequence hb =>
    refine Task.mirrors_sequence hK ha (fun c hc => hc) (fun W₁ t t' ht => ?_) .nothing
    cases hparallel ht.node with
    | sequence hb => exact hb
  | @block body body' =>
    obtain ⟨W₁, hle, hframes, hbody⟩ := hK.block hs.frames ha.scope ha.node
    have hcontents := hK.contents_mono hle
      (hs.contents.newFrame (some scope) (some scope) none none none none)
    have hnew : (s'.newFrame (some scope) none none).1 = (s.newFrame (some scope) none none).1 :=
      congrArg FrameId.mk (hK.size hs.frames)
    change Task.Mirrors K limits _ _ W
      (Task.sequence 5 (s.newFrame (some scope) none none).1 body .nothing _)
      (Task.sequence 5 (s'.newFrame (some scope) none none).1 body' .nothing _)
    rw [hnew]
    refine Task.Mirrors.mono hK hle ?_
    exact Task.mirrors_statements hK ⟨hcontents, hframes⟩ (s.newFrame_lt _ _ _) hbody .nothing
  | expression he =>
    exact Task.mirrors_value hK ha (by simp [operands, children]) he fun W₁ v v' t t' _ ht hv =>
      Task.mirrors_yield hK ht.stores hv
  | declare _ hi =>
    cases hi with
    | none =>
      have hframes := hK.declare hs.frames ha.scope ha.node .nothing
      exact Task.mirrors_yield hK ⟨hs.contents.define _ _ _ _ _ _, hframes⟩ .nothing
    | some he =>
      refine Task.mirrors_value hK ha (by simp [operands, children]) he fun W₁ v v' t t' _ ht hv => ?_
      have hframes := hK.declare ht.stores.frames ht.scope ht.node hv
      exact Task.mirrors_yield hK ⟨ht.stores.contents.define _ _ _ _ _ _, hframes⟩ hv
  | function =>
    have hframes := hK.function hs.frames ha.scope ha.node
    exact Task.mirrors_yield hK ⟨hs.contents.define _ _ _ _ _ _, hframes⟩ .nothing
  | print he =>
    refine Task.mirrors_value hK ha (by simp [operands, children]) he fun W₁ v v' t t' _ ht hv => ?_
    rw [ht.stores.contents.display_eq (fun _ _ => hK.closure_name) (limits.levels depth) hv]
    cases t.display (limits.levels depth) v with
    | some text =>
      exact Task.mirrors_yield hK (hK.stores_congr ht.stores (ht.stores.contents.write _) rfl rfl) hv
    | none => exact Task.mirrors_done hK ht.stores (.aborted (.text _))
  | giveBack hv =>
    cases hv with
    | none => exact Task.mirrors_done hK hs (.returned .nothing)
    | some hv =>
      exact Task.mirrors_value hK ha (by simp [operands, children]) hv fun W₁ v v' t t' _ ht hv =>
        Task.mirrors_done hK ht.stores (.returned hv)
  | loop hc =>
    refine Task.mirrors_test hK ha (by simp [operands, children]) hc fun W₁ b t t' _ ht => ?_
    cases b with
    | true =>
      cases hparallel ht.node with
      | loop _ hb =>
      exact Task.mirrors_value hK ht (by simp [operands, children]) hb fun W₂ v v' u u' _ hu _ =>
        ⟨W₂, hK.le_refl W₂, hu⟩
    | false => exact Task.mirrors_yield hK ht.stores .nothing
  | branch hc =>
    refine Task.mirrors_test hK ha (by simp [operands, children]) hc fun W₁ b t t' _ ht => ?_
    cases hparallel ht.node with
    | branch _ hy hn =>
    cases b with
    | true =>
      exact Task.mirrors_value hK ht (by simp [operands, children]) hy fun W₂ v v' u u' _ hu hv =>
        Task.mirrors_yield hK hu.stores hv
    | false =>
      exact Task.mirrors_value hK ht (by simp [operands, children]) hn fun W₂ v v' u u' _ hu hv =>
        Task.mirrors_yield hK hu.stores hv
  | @malformed defect =>
    cases defect with
    | wrongShape => exact Task.mirrors_done hK hs (.aborted .unreadable)
    | _ => exact Task.mirrors_fail hK _ hs

section Recursion

variable {K : Pairing} {limits : Limits}

def Pairing.Results (K : Pairing) (W : K.World) :
    Option (Outcome × Store) → Option (Outcome × Store) → Prop :=
  Option.Rel fun r r' => ∃ W₁, K.le W W₁ ∧ K.Stores W₁ r.2 r'.2 ∧ K.Outcomes W₁ r.1 r'.1

/-- How the results of two evaluations hang together in some later world. Neither side has one or they
    correspond, unless the first side may be the only one to have ended, or the second one. -/
inductive Pairing.Tied (K : Pairing) (W : K.World) (first second : Prop) :
    Option (Outcome × Store) → Option (Outcome × Store) → Prop where
  | neither : Tied K W first second none none
  | both {r r' : Outcome × Store}
      (h : ∃ W₁, K.le W W₁ ∧ K.Stores W₁ r.2 r'.2 ∧ K.Outcomes W₁ r.1 r'.1) :
      Tied K W first second (some r) (some r')
  | first (h : first) (r : Outcome × Store) : Tied K W first second (some r) none
  | second (h : second) (r' : Outcome × Store) : Tied K W first second none (some r')

namespace Pairing.Tied

variable {first second : Prop} {W W₁ : K.World} {r r' : Option (Outcome × Store)}

theorem mono (hK : K.Coherent limits) (hle : K.le W W₁) (h : K.Tied W₁ first second r r') :
    K.Tied W first second r r' := by
  cases h with
  | neither => exact .neither
  | both h =>
    obtain ⟨W₂, hle₂, hr⟩ := h
    exact .both ⟨W₂, hK.le_trans hle hle₂, hr⟩
  | first h r => exact .first h r
  | second h r' => exact .second h r'

theorem of_first (h : first) : K.Tied W first second r none := by
  cases r with
  | none => exact .neither
  | some r => exact .first h r

theorem of_second (h : second) : K.Tied W first second none r' := by
  cases r' with
  | none => exact .neither
  | some r' => exact .second h r'

theorem results (h : K.Tied W False False r r') : K.Results W r r' := by
  cases h with
  | neither => exact .none
  | both h => exact .some h
  | first h => exact h.elim
  | second h => exact h.elim

end Pairing.Tied

theorem Task.Mirrors.carryOut (hK : K.Coherent limits) {C : Contract} {first second : Prop}
    {fuel fuel' : Nat}
    (heval : ∀ W s s' (a : Activation) n', K.Active W s s' a n' → C.Active s a →
      C.Active s' ⟨n', a.scope, a.depth⟩ → K.Tied W first second (a.eval limits fuel s)
        (Activation.eval limits fuel' ⟨n', a.scope, a.depth⟩ s'))
    {a : Activation} {n' : Node} {W : K.World} {s s' : Store} {calls : Nat} {task task' : Task}
    (hplace : K.place a.node.place n'.place) (h : task.Mirrors K limits a n' W task')
    (ha : C.Active s a) (hobeys : task.Obeys C calls a s)
    (ha' : C.Active s' ⟨n', a.scope, a.depth⟩)
    (hobeys' : task'.Obeys C calls ⟨n', a.scope, a.depth⟩ s') :
    K.Tied W first second (task.carryOut limits (Activation.eval limits fuel) a)
      (task'.carryOut limits (Activation.eval limits fuel') ⟨n', a.scope, a.depth⟩) := by
  -- Both contracts are carried along, since the children may take them for granted.
  induction task generalizing W task' s s' with
  | done out u =>
    cases task' with
    | done out' u' =>
      obtain ⟨W₁, hle, hs, hout⟩ := h
      exact .both ⟨W₁, hle, hs, hK.outcomes_locate hout hplace⟩
    | _ => exact h.elim
  | visit cost c f u resume ih =>
    cases task' with
    | visit cost' c' f' u' resume' =>
      obtain ⟨rfl, rfl, W₁, hle, hc, hresume⟩ := h
      obtain ⟨hu, hnode, -, hrest⟩ := hobeys
      obtain ⟨hu', hnode', -, hrest'⟩ := hobeys'
      simp only [Task.carryOut]
      by_cases hroom : limits.allows (a.depth + cost') = true
      · rw [if_pos hroom, if_pos hroom]
        have htied := heval W₁ u u' _ c' hc hnode hnode'
        generalize hr : Activation.eval limits fuel ⟨c, f', a.depth + cost'⟩ u = r,
          hr' : Activation.eval limits fuel' ⟨c', f', a.depth + cost'⟩ u' = r' at htied
        cases htied with
        | neither => exact .neither
        | both htied =>
          obtain ⟨W₂, hle₂, ht, hout⟩ := htied
          obtain ⟨he, hstore, houtcome⟩ := Activation.eval_obeys hnode hr
          obtain ⟨he', hstore', houtcome'⟩ := Activation.eval_obeys hnode' hr'
          have hends : c.EndsIn limits f' u _ _ := .inl ⟨_, fuel, hr⟩
          exact .mono hK (hK.le_trans hle hle₂) (ih _ _ (hresume W₂ _ _ _ _ hle₂ hends ht hout)
            (ha.mono (hu.trans he) hstore) (hrest _ _ he hstore houtcome)
            (ha'.mono (hu'.trans he') hstore') (hrest' _ _ he' hstore' houtcome'))
        | first hfirst => exact .of_first hfirst
        | second hsecond => exact .of_second hsecond
      · -- Both sides ask for the same number of activations, so neither has room.
        rw [if_neg hroom, if_neg hroom]
        have hstopped := hresume W₁ _ _ _ _ (hK.le_refl W₁) (.inr ⟨rfl, rfl⟩) hc.stores (.aborted .stack)
        exact .mono hK hle (ih _ _ hstopped (ha.mono hu hnode.store)
          (hrest _ _ (.refl u) hnode.store (C.stack rfl)) (ha'.mono hu' hnode'.store)
          (hrest' _ _ (.refl u') hnode'.store (C.stack rfl)))
    | _ => exact h.elim
  | again u =>
    cases task' with
    | again u' =>
      obtain ⟨W₁, hle, hactive⟩ := h
      exact .mono hK hle (heval W₁ u u' a n' hactive (ha.mono hobeys.1 hobeys.2.1)
        (ha'.mono hobeys'.1 hobeys'.2.1))
    | _ => exact h.elim

theorem Activation.eval_mirrors (hK : K.Lawful limits) (hdepth : K.SameDepths) (fuel : Nat)
    {W : K.World} {s s' : Store} {a : Activation} {n' : Node} (ha : K.Active W s s' a n') :
    K.Results W (a.eval limits fuel s) (Activation.eval limits fuel ⟨n', a.scope, a.depth⟩ s') := by
  apply Pairing.Tied.results
  induction fuel generalizing W s s' a n' with
  | zero => exact .neither
  | succ fuel ih =>
    have hscope' : a.scope.index < s'.frames.size := by
      rw [hK.size ha.stores.frames]
      exact ha.scope
    have hstart := Node.start_mirrors hK.toCoherent hK.parallel (fun _ => hdepth) ha
    have hfirst : Contract.any.Active s a := ⟨trivial, ha.scope, trivial⟩
    have hsecond : Contract.any.Active s' ⟨n', a.scope, a.depth⟩ := ⟨trivial, hscope', trivial⟩
    exact hstart.carryOut hK.toCoherent (fun _ _ _ _ _ h _ _ => ih h) (hK.parallel ha.node).place hfirst
      (Node.start_obeys hfirst) hsecond (Node.start_obeys hsecond)

theorem rel_flip {α β : Type} {R : α → β → Prop} {a : Option α} {b : Option β}
    (h : Option.Rel R a b) : Option.Rel (flip R) b a := by
  cases h with
  | none => exact .none
  | some h => exact .some h

theorem exists_of_rel {α β : Type} {R : α → β → Prop} {a : Option α} {b : Option β} {x : α}
    (h : Option.Rel R a b) (ha : a = some x) : ∃ y, b = some y ∧ R x y := by
  subst ha
  cases h with
  | some h => exact ⟨_, rfl, h⟩

theorem Machine.evaluate_of_rel {R : Outcome × Store → Outcome × Store → Prop} {n n' : Node}
    {scope : FrameId} {s s' : Store} {steps : Nat} {r : Outcome × Store}
    (h : ∀ fuel, Option.Rel R (Activation.eval limits fuel ⟨n, scope, 0⟩ s)
      (Activation.eval limits fuel ⟨n', scope, 0⟩ s'))
    (hr : evaluate limits steps n scope s = some r) :
    ∃ steps' r', evaluate limits steps' n' scope s' = some r' ∧ R r r' := by
  obtain ⟨fuel, heval⟩ := evaluate_iff.1 ⟨steps, hr⟩
  obtain ⟨r', heval', hR⟩ := exists_of_rel (h fuel) heval
  obtain ⟨steps', hr'⟩ := evaluate_iff.2 ⟨fuel, heval'⟩
  exact ⟨steps', r', hr', hR⟩

end Recursion

end Scripting
