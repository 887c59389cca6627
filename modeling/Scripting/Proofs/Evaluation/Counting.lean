import Scripting.Proofs.Evaluation.Matching
import Scripting.Proofs.Evaluation.Strictness

/-!
Evaluation that counts calls. The number of calls that are active goes from rule to rule beside the store:
a call of a function raises it, and every way out of the function lowers it again. The depths of frames are
not looked at. The evaluation of a node goes in step with this one, if the counter starts at the depth of
the frame, and leaves the same store behind, up to the depths of frames.
-/

set_option autoImplicit false

namespace Scripting

namespace Counting

structure State where
  active : Int
  store : Store

inductive Task where
  | done (out : Outcome) (state : State)
  | visit (cost : Nat) (node : Node) (scope : FrameId) (state : State)
      (resume : Outcome → State → Task)
  | again (state : State)

namespace Task

def ofTask (active : Int) : Scripting.Task → Task
  | .done out s => .done out ⟨active, s⟩
  | .visit cost node f s resume =>
    .visit cost node f ⟨active, s⟩ fun out c => ofTask c.active (resume out c.store)
  | .again s => .again ⟨active, s⟩

def onValue (k : Value → State → Task) : Outcome → State → Task
  | .value v, c => k v c
  | out, c => .done out c

def value (cost : Nat) (node : Node) (scope : FrameId) (c : State) (k : Value → State → Task) : Task :=
  .visit cost node scope c (onValue k)

def collect (cost : Nat) (scope : FrameId) (k : List Value → State → Task) :
    List Node → List Value → State → Task
  | [], seen, c => k seen.reverse c
  | n :: ns, seen, c => .value cost n scope c fun v c => collect cost scope k ns (v :: seen) c

/-- Calls a function of the program. The call is active from here until its body has ended, in whatever
    way. -/
def callFunction (limits : Limits) (fn : Closure) (args : List Value) (c : State) : Task :=
  if (limits.calls : Int) < c.active + 1 then
    .ofTask c.active (.fail (.callDepth limits.calls fn.name) c.store)
  else
    let (f, s) := c.store.newFrame (some fn.scope) none none
    .visit 6 fn.body f ⟨c.active + 1, s.bind f fn.params args⟩ fun out c =>
      .ofTask (c.active - 1) (.leave out c.store)

def callNative (levels : Option Nat) (fn : Native) (caller : FrameId) (receiver : Option Value)
    (args : List Value) (c : State) : Task :=
  match fn.host with
  | .callDepth => .ofTask c.active (.yield (.number c.active) c.store)
  | _ => .ofTask c.active (fn.call levels caller receiver args c.store)

def call (limits : Limits) (depth : Nat) (callee : Value) (caller : FrameId) (receiver : Option Value)
    (args : List Value) (c : State) : Task :=
  match callee with
  | .native fn => callNative (limits.levels depth) fn caller receiver args c
  | .function fn => callFunction limits fn args c
  | v => .ofTask c.active (.fail (.notCallable v.typeName) c.store)

def apply (limits : Limits) (depth : Nat) (callee : Value) (receiver : Option Value)
    (args : List Node) (scope : FrameId) (c : State) : Task :=
  if callee.isCallable then
    collect (5 + limits.costs.list) scope (fun vs c => call limits depth callee scope receiver vs c) args [] c
  else .ofTask c.active (.fail (.notCallable callee.typeName) c.store)

end Task

def start (limits : Limits) (depth : Nat) (scope : FrameId) (c : State) : Node → Task
  | .call callee args _ _ =>
    .value 4 callee scope c fun v c => .apply limits depth v none args scope c
  | .methodCall receiver key args _ _ =>
    .value 4 receiver scope c fun r c =>
    .value 4 key scope c fun k c =>
    match c.store.getItem r k with
    | .ok callee => .apply limits depth callee (some r) args scope c
    | .error fault => .ofTask c.active (.fail fault c.store)
  | n => .ofTask c.active (n.start limits depth scope c.store)

def Task.carryOut (limits : Limits) (eval : Activation → State → Option (Outcome × State))
    (a : Activation) : Task → Option (Outcome × State)
  | .done out c => some (out.locate a.node.place, c)
  | .visit cost node scope c resume =>
    if limits.allows (a.depth + cost) then
      match eval ⟨node, scope, a.depth + cost⟩ c with
      | none => none
      | some (out, c) => (resume out c).carryOut limits eval a
    else (resume (.aborted .stack) c).carryOut limits eval a
  | .again c => eval a c

def eval (limits : Limits) : Nat → Activation → State → Option (Outcome × State)
  | 0, _, _ => none
  | fuel + 1, a, c => (start limits a.depth a.scope c a.node).carryOut limits (eval limits fuel) a

end Counting

/-! Stores that differ in the depths of frames only. -/

def Store.withoutDepths (s : Store) : Store :=
  s.view (fun _ => 0) id

/-- The same program on both sides, in frames of whatever depth. -/
def Pairing.depthless : Pairing :=
  .matching Eq Eq fun _ _ => True

theorem Pairing.depthless_lawful (limits : Limits) : Pairing.depthless.Lawful limits := by
  refine matching_lawful ⟨rfl, ?_, fun _ => trivial, ?_⟩ limits
  · rintro p _ q _ rfl rfl
    rfl
  · rintro n _ rfl
    exact .refl (fun _ => rfl) (fun _ => rfl) (fun _ _ => rfl) fun _ _ => rfl

theorem Pairing.values_depthless {v v' : Value} : Pairing.depthless.Values () v v' ↔ v' = v := by
  constructor
  · intro h
    cases h with
    | same => rfl
    | @function c c' h =>
      have hbody : c.body = c'.body := h.body
      obtain ⟨hname, hparams, hscope, -⟩ := h
      cases c
      cases c'
      simp_all
  · rintro rfl
    cases v' with
    | function c => exact .function ⟨rfl, rfl, rfl, rfl⟩
    | _ => exact .same nofun

theorem Pairing.outcomes_depthless {out out' : Outcome} :
    Pairing.depthless.Outcomes () out out' ↔ out' = out := by
  constructor
  · intro h
    cases h with
    | value h => rw [values_depthless.1 h]
    | returned h => rw [values_depthless.1 h]
    | failed h => rw [show _ = _ from h]
    | aborted cause => rfl
  · rintro rfl
    cases out' with
    | value v => exact .value (values_depthless.2 rfl)
    | returned v => exact .returned (values_depthless.2 rfl)
    | failed failure => exact .failed rfl
    | aborted cause => exact .aborted cause

theorem Store.withoutDepths_eq_iff {s s' : Store} :
    s'.withoutDepths = s.withoutDepths ↔ Pairing.depthless.Stores () s s' := by
  have hD (d d' : Int) : True ↔ (0 : Int) = 0 := by simp
  have hV (v v' : Value) : Pairing.depthless.Values () v v' ↔ id v' = id v := Pairing.values_depthless
  refine (Store.view_eq_iff hD hV).trans ?_
  exact ⟨fun h => ⟨h.1, h.2⟩, fun h => ⟨h.contents, h.frames⟩⟩

/-! Evaluation in step. -/

/-- The counter stands at the depth of the frame, in a store that differs from the other one in depths
    only. -/
structure Counting.State.Counts (c : Counting.State) (s : Store) (f : FrameId) : Prop where
  stores : Pairing.depthless.Stores () s c.store
  scope : f.index < s.frames.size
  active : c.active = (s.frame f).depth

theorem Counting.State.Counts.later {active : Int} {s t t' : Store} {f : FrameId}
    (hactive : active = (s.frame f).depth) (hf : f.index < s.frames.size) (he : s.Extends t)
    (ht : Pairing.depthless.Stores () t t') : Counting.State.Counts ⟨active, t'⟩ t f :=
  ⟨ht, Nat.lt_of_lt_of_le hf he.frames_size, by rw [(he.frame f hf).depth, hactive]⟩

def Task.Counted (limits : Limits) (a : Activation) : Task → Counting.Task → Prop
  | .done out s, .done out' c => out' = out ∧ c.Counts s a.scope
  | .visit cost n f s resume, .visit cost' n' f' c resume' =>
    cost' = cost ∧ n' = n ∧ f' = f ∧ c.Counts s f ∧
      ∀ out t c', n.EndsIn limits f s out t → c'.Counts t f →
        (resume out t).Counted limits a (resume' out c')
  | .again s, .again c => c.Counts s a.scope
  | _, _ => False

namespace Task

variable {limits : Limits} {cost calls depth : Nat} {a : Activation} {s : Store} {c : Counting.State}

theorem counted_done {out : Outcome} (hc : c.Counts s a.scope) :
    (done out s).Counted limits a (.ofTask c.active (.done out c.store)) :=
  ⟨rfl, hc⟩

/-- What goes in step with its own rule in the other store, counts, unless it enters a function. -/
theorem Mirrors.counted {n' : Node} {start : Store} {active : Int} {task task' : Task}
    (hcall : ¬a.node.isCall) (hscope : a.scope.index < start.frames.size)
    (hactive : active = (start.frame a.scope).depth) (ho : task.Obeys .any calls a start)
    (h : task.Mirrors .depthless limits a n' () task') : task.Counted limits a (.ofTask active task') := by
  induction task generalizing start active task' with
  | done out s =>
    cases task' with
    | done out' s' =>
      obtain ⟨W, -, hs, hout⟩ := h
      exact ⟨Pairing.outcomes_depthless.1 hout, .later hactive hscope ho.1 hs⟩
    | _ => exact h.elim
  | visit cost n f s resume ih =>
    cases task' with
    | visit cost' n' f' s' resume' =>
      obtain ⟨rfl, rfl, W, -, hn, hresume⟩ := h
      obtain ⟨he, -, hask, hobeys⟩ := ho
      have hs := Nat.lt_of_lt_of_le hscope he.frames_size
      -- The node is no call, so what it asks for is evaluated at its own depth.
      have hdepth : (s.frame f').depth = (s.frame a.scope).depth := by
        cases hask with
        | operand => rfl
        | statement _ _ hd => exact hd
        | body hn => exact (hcall hn).elim
      have hsame : active = (s.frame f').depth := by rw [hdepth, (he.frame _ hscope).depth, hactive]
      refine ⟨rfl, (show n = n' from hn.node).symm, rfl, ⟨hn.stores, hn.scope, hsame⟩, ?_⟩
      intro out t c' hends hc'
      have ht := hends.store_extends hn.scope
      refine ih out t (Nat.lt_of_lt_of_le hs ht.frames_size) ?_ (hobeys out t ht trivial ?_) ?_
      · rw [hc'.active, (ht.frame _ hn.scope).depth, hdepth, (ht.frame _ hs).depth]
      · cases out <;> trivial
      · exact hresume () out out t c'.store trivial hends hc'.stores (Pairing.outcomes_depthless.2 rfl)
    | _ => exact h.elim
  | again s =>
    cases task' with
    | again s' =>
      obtain ⟨W, -, ha⟩ := h
      exact .later hactive hscope ho.1 ha.stores
    | _ => exact h.elim

theorem counted_value {n : Node} {k : Value → Store → Task} {k' : Value → Counting.State → Counting.Task}
    (hc : c.Counts s a.scope)
    (hk : ∀ v t c', c'.Counts t a.scope → (k v t).Counted limits a (k' v c')) :
    (value cost n a.scope s k).Counted limits a (.value cost n a.scope c k') := by
  refine ⟨rfl, rfl, rfl, hc, fun out t c' _ hc' => ?_⟩
  cases out with
  | value v => exact hk v t c' hc'
  | returned v => exact counted_done hc'
  | failed failure => exact counted_done hc'
  | aborted cause => exact counted_done hc'

theorem counted_collect {nodes : List Node} {k : List Value → Store → Task}
    {k' : List Value → Counting.State → Counting.Task} {seen : List Value} (hc : c.Counts s a.scope)
    (hk : ∀ vs t c', c'.Counts t a.scope → (k vs t).Counted limits a (k' vs c')) :
    (collect cost a.scope k nodes seen s).Counted limits a (.collect cost a.scope k' nodes seen c) := by
  induction nodes generalizing s c seen with
  | nil => exact hk _ s c hc
  | cons n nodes ih => exact counted_value hc fun v t c' hc' => ih hc'

theorem leave_counted {out : Outcome} {t : Store} {f : FrameId} {c' : Counting.State}
    (hscope : a.scope.index < s.frames.size) (he : s.Extends t) (hc : c'.Counts t f)
    (hd : (t.frame f).depth = (s.frame a.scope).depth + 1) :
    (leave out t).Counted limits a (.ofTask (c'.active - 1) (leave out c'.store)) := by
  have hback : Counting.State.Counts ⟨c'.active - 1, c'.store⟩ t a.scope := by
    refine .later ?_ hscope he hc.stores
    rw [hc.active, hd]
    omega
  cases out with
  | value v => exact counted_done hback
  | returned v => exact counted_done hback
  | failed failure => exact counted_done hback
  | aborted cause => exact counted_done hback

theorem counts_enter (fn : Closure) (args : List Value) (hc : c.Counts s a.scope) :
    let new := s.newFrame (some fn.scope) none (some ((s.frame a.scope).depth + 1))
    let new' := c.store.newFrame (some fn.scope) none none
    new'.1 = new.1 ∧ Counting.State.Counts ⟨c.active + 1, new'.2.bind new.1 fn.params args⟩
      (new.2.bind new.1 fn.params args) new.1 := by
  intro new new'
  have hargs : List.Forall₂ (Pairing.depthless.Values ()) args args :=
    List.forall₂_same.2 fun _ _ => Pairing.values_depthless.2 rfl
  have hframes := hc.stores.frames.newFrame (some fn.scope) none
    (some ((s.frame a.scope).depth + 1)) none trivial
  refine ⟨congrArg FrameId.mk hc.stores.frames.size, ⟨?_, hframes.bind .nothing _ fn.params hargs⟩, ?_, ?_⟩
  · exact (hc.stores.contents.newFrame _ _ _ _ _ _).bind _ _ _ _ _ _
  · exact Nat.lt_of_lt_of_le (s.newFrame_lt _ _ _) (Store.Extends.bind _ _ _ _).frames_size
  · rw [Store.depth_bind_newFrame, hc.active]

theorem callFunction_counted (fn : Closure) (args : List Value) (hc : c.Counts s a.scope) :
    (fn.call limits a.scope args s).Counted limits a (.callFunction limits fn args c) := by
  obtain ⟨hsame, hbody⟩ := counts_enter fn args hc
  unfold Closure.call Counting.Task.callFunction
  dsimp only at hsame hbody ⊢
  rw [hsame, ← hc.active]
  rw [← hc.active] at hbody
  split
  · exact counted_done hc
  · refine ⟨rfl, rfl, rfl, hbody, fun out t c' hends hc' => ?_⟩
    have he := hends.store_extends hbody.scope
    have hextends := (Store.Extends.newFrame s (some fn.scope) none (some (c.active + 1))).trans
      (.bind _ (s.newFrame (some fn.scope) none (some (c.active + 1))).1 fn.params args)
    refine leave_counted hc.scope (hextends.trans he) hc' ?_
    rw [(he.frame _ hbody.scope).depth, ← hbody.active, hc.active]

theorem callNative_counted (fn : Native) (levels : Option Nat) (receiver : Option Value)
    (args : List Value) (hc : c.Counts s a.scope) :
    (fn.call levels a.scope receiver args s).Counted limits a
      (.callNative levels fn a.scope receiver args c) := by
  unfold Counting.Task.callNative
  split
  · rename_i hhost
    simp only [Native.call, hhost, ← hc.active]
    exact counted_done hc
  · rename_i hhost
    have hargs : List.Forall₂ (Pairing.depthless.Values ()) args args :=
      List.forall₂_same.2 fun _ _ => Pairing.values_depthless.2 rfl
    have hreceiver : Option.Rel (Pairing.depthless.Values ()) receiver receiver := by
      cases receiver with
      | none => exact .none
      | some v => exact .some (Pairing.values_depthless.2 rfl)
    have hmirrors : (fn.call levels a.scope receiver args s).Mirrors .depthless limits a a.node ()
        (fn.call levels a.scope receiver args c.store) :=
      fn.call_mirrors (Pairing.depthless_lawful limits).toCoherent (fun h => (hhost h).elim) levels a.scope
        hc.stores hreceiver hargs
    have hobeys : (fn.call levels a.scope receiver args s).Obeys .any 0 a s :=
      fn.call_obeys trivial trivial (fun _ _ => trivial) fun _ _ => trivial
    obtain ⟨out, t, ht⟩ := exists_done_of_native fn levels a.scope receiver args s
    obtain ⟨out', t', ht'⟩ := exists_done_of_native fn levels a.scope receiver args c.store
    rw [ht] at hmirrors hobeys ⊢
    rw [ht'] at hmirrors ⊢
    obtain ⟨W, -, hs, hout⟩ := hmirrors
    exact ⟨Pairing.outcomes_depthless.1 hout, .later hc.active hc.scope hobeys.1 hs⟩

theorem call_counted (callee : Value) (receiver : Option Value) (args : List Value)
    (hc : c.Counts s a.scope) :
    (callee.call limits depth a.scope receiver args s).Counted limits a
      (.call limits depth callee a.scope receiver args c) := by
  cases callee with
  | native fn => exact callNative_counted fn _ receiver args hc
  | function fn => exact callFunction_counted fn args hc
  | _ => exact counted_done hc

theorem apply_counted (callee : Value) (receiver : Option Value) (args : List Node)
    (hc : c.Counts s a.scope) :
    (apply limits depth callee receiver args a.scope s).Counted limits a
      (.apply limits depth callee receiver args a.scope c) := by
  unfold apply Counting.Task.apply
  split
  · exact counted_collect hc fun vs t c' hc' => call_counted callee receiver vs hc'
  · exact counted_done hc

end Task

theorem Node.start_counted {limits : Limits} {depth : Nat} {scope : FrameId} {s : Store}
    {c : Counting.State} (n : Node) (hc : c.Counts s scope) :
    (n.start limits depth scope s).Counted limits ⟨n, scope, depth⟩
      (Counting.start limits depth scope c n) := by
  by_cases hcall : n.isCall
  · cases n with
    | call callee args _ _ =>
      exact Task.counted_value hc fun v t c' hc' => Task.apply_counted v none args hc'
    | methodCall receiver key args _ _ =>
      refine Task.counted_value hc fun r t c₁ hc₁ => Task.counted_value hc₁ fun k u c₂ hc₂ => ?_
      have hitem : c₂.store.getItem r k = u.getItem r k := by
        have hlike := hc₂.stores.contents.getItem (Pairing.values_depthless.2 (rfl : r = r))
          (Pairing.values_depthless.2 (rfl : k = k))
        generalize u.getItem r k = found, c₂.store.getItem r k = found' at hlike
        cases hlike with
        | ok h => rw [Pairing.values_depthless.1 h]
        | error fault => rfl
      rw [hitem]
      cases u.getItem r k with
      | ok callee => exact Task.apply_counted callee (some r) args hc₂
      | error fault => exact Task.counted_done hc₂
    | _ => cases hcall
  · have hstart : Counting.start limits depth scope c n =
        .ofTask c.active (n.start limits depth scope c.store) := by
      cases n with
      | call | methodCall => exact (hcall rfl).elim
      | _ => rfl
    rw [hstart]
    have hobeys : (n.start limits depth scope s).Obeys .any limits.calls ⟨n, scope, depth⟩ s :=
      Node.start_obeys ⟨trivial, hc.scope, trivial⟩
    have hmirrors : (n.start limits depth scope s).Mirrors .depthless limits ⟨n, scope, depth⟩ n ()
        (n.start limits depth scope c.store) :=
      Node.start_mirrors (Pairing.depthless_lawful limits).toCoherent (Pairing.depthless_lawful limits).parallel
        (fun h => (hcall h).elim) ⟨hc.stores, hc.scope, rfl⟩
    exact hmirrors.counted hcall hc.scope hc.active hobeys

namespace Counting

def Ends (f : FrameId) (r : Outcome × Store) (r' : Outcome × State) : Prop :=
  r'.1 = r.1 ∧ r'.2.Counts r.2 f

variable {limits : Limits} {fuel : Nat} {a : Activation}

theorem carryOut_counted
    (heval : ∀ (a : Activation) s c, c.Counts s a.scope →
      Option.Rel (Ends a.scope) (a.eval limits fuel s) (eval limits fuel a c))
    {task : Scripting.Task} {task' : Task} (h : task.Counted limits a task') :
    Option.Rel (Ends a.scope) (task.carryOut limits (Activation.eval limits fuel) a)
      (task'.carryOut limits (eval limits fuel) a) := by
  induction task generalizing task' with
  | done out s =>
    cases task' with
    | done out' c =>
      obtain ⟨rfl, hc⟩ := h
      exact .some ⟨rfl, hc⟩
    | _ => exact h.elim
  | visit cost n f s resume ih =>
    cases task' with
    | visit cost' n' f' c resume' =>
      obtain ⟨rfl, rfl, rfl, hc, hresume⟩ := h
      simp only [Scripting.Task.carryOut, Task.carryOut]
      by_cases hroom : limits.allows (a.depth + cost') = true
      · rw [if_pos hroom, if_pos hroom]
        have hchild := heval ⟨n', f', a.depth + cost'⟩ s c hc
        generalize hr : Activation.eval limits fuel ⟨n', f', a.depth + cost'⟩ s = r,
          eval limits fuel ⟨n', f', a.depth + cost'⟩ c = r' at hchild
        cases hchild with
        | none => exact .none
        | @some r r' hends =>
          obtain ⟨out, t⟩ := r
          obtain ⟨out', c'⟩ := r'
          obtain ⟨rfl, hc'⟩ := hends
          exact ih _ t (hresume _ t c' (.inl ⟨_, fuel, hr⟩) hc')
      · rw [if_neg hroom, if_neg hroom]
        exact ih _ s (hresume _ s c (.inr ⟨rfl, rfl⟩) hc)
    | _ => exact h.elim
  | again s =>
    cases task' with
    | again c => exact heval a s c h
    | _ => exact h.elim

theorem eval_counted (fuel : Nat) {s : Store} {c : State} (hc : c.Counts s a.scope) :
    Option.Rel (Ends a.scope) (a.eval limits fuel s) (eval limits fuel a c) := by
  induction fuel generalizing a s c with
  | zero => exact .none
  | succ fuel ih => exact carryOut_counted (fun _ _ _ => ih) (a.node.start_counted hc)

theorem evaluate_iff {n : Node} {f : FrameId} {s : Store} {c : State} (hc : c.Counts s f)
    {out : Outcome} {view : Store} :
    (∃ steps t, Machine.evaluate limits steps n f s = some (out, t) ∧ t.withoutDepths = view) ↔
      ∃ fuel e, eval limits fuel ⟨n, f, 0⟩ c = some (out, e) ∧ e.active = c.active ∧
        e.store.withoutDepths = view := by
  have heval (fuel : Nat) : Option.Rel (Ends f) (Activation.eval limits fuel ⟨n, f, 0⟩ s)
      (eval limits fuel ⟨n, f, 0⟩ c) := eval_counted (a := ⟨n, f, 0⟩) fuel hc
  constructor
  · rintro ⟨steps, t, hr, rfl⟩
    obtain ⟨fuel, hr⟩ := Machine.evaluate_iff.1 ⟨steps, hr⟩
    obtain ⟨⟨_, e⟩, hr', rfl, he⟩ := exists_of_rel (heval fuel) hr
    have hdepth := ((Activation.eval_extends hc.scope hr).frame f hc.scope).depth
    refine ⟨fuel, e, hr', ?_, Store.withoutDepths_eq_iff.2 he.stores⟩
    rw [he.active, hdepth, hc.active]
  · rintro ⟨fuel, e, hr', -, rfl⟩
    obtain ⟨⟨_, t⟩, hr, rfl, he⟩ := exists_of_rel (rel_flip (heval fuel)) hr'
    obtain ⟨steps, hr⟩ := Machine.evaluate_iff.2 ⟨fuel, hr⟩
    exact ⟨steps, t, hr, (Store.withoutDepths_eq_iff.2 he.stores).symm⟩

end Counting

end Scripting
