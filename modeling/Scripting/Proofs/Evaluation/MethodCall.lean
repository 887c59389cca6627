import Mathlib
import Scripting.Proofs.Evaluation.CountedLoop
import Scripting.Proofs.Evaluation.Heap
import Scripting.Proofs.Evaluation.Joining
import Scripting.Proofs.Evaluation.Legible
import Scripting.Proofs.Evaluation.Limits
import Scripting.Proofs.Node.Parts

/-!
Method calls. The call of a member hands the object to the callee as its receiver, but of the host functions
that a program can find only `push` asks for one, and that is always bound to its array. So a method call
does what the call of the item does: with unbounded nesting the two give the same result, and a program with
some method calls replaced runs in step with the original one, which takes fewer host activations.
-/

set_option autoImplicit false

namespace Scripting

/-- The second node is the first one with some of its method calls, in function bodies too, replaced by
    calls of the item, which stands where the method call stood. -/
inductive Node.Expands : Node → Node → Prop where
  | node {n n' : Node} (h : n.Parallel Eq Eq Expands Expands n') : Expands n n'
  | methodCall {r r' k k' : Node} {args args' : List Node} {q p : Option Place} (hr : Expands r r')
      (hk : Expands k k') (hargs : List.Forall₂ Expands args args') :
      Expands (.methodCall r k args q p) (.call (.item r' k' p) args' q p)

theorem Node.Expands.refl (n : Node) : n.Expands n := by
  refine .node (.refl (fun _ => rfl) (fun _ => rfl) (fun c hc => ?_) fun c hc => ?_)
  · have := Node.sizeOf_child (Node.mem_children_of_operands hc)
    exact Node.Expands.refl c
  · have := Node.sizeOf_child hc
    exact Node.Expands.refl c
termination_by sizeOf n

def Policy.standard : Policy where
  __ := Policy.any
  hosts := Policy.legible.hosts
  push := Policy.legible.push
  receiver _ _ _ _ _ := trivial
  foreign _ _ _ _ := trivial

/-! Host activations without a bound. -/

section Unbounded

variable {limits : Limits} (hlimits : limits.nesting = none)

include hlimits

theorem Limits.levels_of_unbounded (depth : Nat) : limits.levels depth = none := by
  rw [Limits.levels, hlimits]
  rfl

theorem Node.start_unbounded (depth depth' : Nat) (scope : FrameId) (s : Store) (n : Node) :
    n.start limits depth scope s = n.start limits depth' scope s := by
  have hlevels : limits.levels depth = limits.levels depth' := by
    rw [Limits.levels_of_unbounded hlimits, Limits.levels_of_unbounded hlimits]
  cases n with
  | call | methodCall => simp only [Node.start, Task.apply, Value.call, hlevels]
  | print => simp only [Node.start, hlevels]
  | number | string | boolean | name | assign =>
    simp only [Node.start, Task.within_of_allows (Limits.allows_of_unbounded hlimits _)]
  | declare w init p => cases init <;> rfl
  | giveBack value p => cases value <;> rfl
  | _ => rfl

theorem Activation.eval_unbounded (fuel depth depth' : Nat) (n : Node) (scope : FrameId) (s : Store) :
    Activation.eval limits fuel ⟨n, scope, depth⟩ s = Activation.eval limits fuel ⟨n, scope, depth'⟩ s := by
  induction fuel generalizing depth depth' n scope s with
  | zero => rfl
  | succ fuel ih =>
    simp only [Activation.eval, Node.start_unbounded hlimits depth depth']
    induction n.start limits depth' scope s with
    | done out t => rfl
    | visit cost c f t resume ih' =>
      simp only [Task.carryOut, Limits.allows_of_unbounded hlimits, if_true, ih _ (depth' + cost)]
      split
      · rfl
      · exact ih' _ _
    | again t => exact ih depth depth' n scope t

end Unbounded

/-! One method call. -/

theorem Native.call_receiver {fn : Native} (h : Policy.standard.hosts fn) (levels : Option Nat) (caller : FrameId)
    (receiver : Option Value) (args : List Value) (s : Store) :
    fn.call levels caller receiver args s = fn.call levels caller none args s := by
  unfold Native.call
  rcases h with h | h | ⟨h, hbound⟩
  · rw [h]
  · rw [h]
  · obtain ⟨a, ha⟩ := Option.isSome_iff_exists.1 hbound
    rw [h, ha]
    rfl

theorem Task.apply_receiver {callee : Value} (h : callee.Obeys .standard) (limits : Limits) (depth : Nat)
    (receiver : Option Value) (args : List Node) (scope : FrameId) (s : Store) :
    apply limits depth callee receiver args scope s = apply limits depth callee none args scope s := by
  have hcall (vs : List Value) (t : Store) :
      callee.call limits depth scope receiver vs t = callee.call limits depth scope none vs t := by
    cases callee with
    | native fn => exact fn.call_receiver h _ _ _ _ _
    | _ => rfl
  simp only [apply, hcall]

section Local

variable {limits : Limits} {fuel depth : Nat} {f : FrameId} {r k : Node} {args : List Node}
  {q p : Option Place} {s : Store}

section Congruence

variable {eval : Activation → Store → Option (Outcome × Store)} {a b : Activation}

theorem Task.carryOut_value_congr {cost : Nat} {n : Node} {g g' : Value → Store → Task}
    (hplace : b.node.place = a.node.place) (hdepth : b.depth = a.depth)
    (hg : ∀ v t, (g' v t).carryOut limits eval b = (g v t).carryOut limits eval a) :
    (value cost n f s g').carryOut limits eval b = (value cost n f s g).carryOut limits eval a := by
  have hrest (out : Outcome) (t : Store) :
      (onValue g' out t).carryOut limits eval b = (onValue g out t).carryOut limits eval a := by
    cases out with
    | value v => exact hg v t
    | _ => simp only [onValue, carryOut, hplace]
  simp only [value, carryOut, hdepth, hrest]

/-- The task of a call never starts over, so that of its node only the place and the depth count. -/
theorem Task.carryOut_apply_congr (hplace : b.node.place = a.node.place) (hdepth : b.depth = a.depth)
    (callee : Value) (receiver : Option Value) :
    (apply limits depth callee receiver args f s).carryOut limits eval b =
      (apply limits depth callee receiver args f s).carryOut limits eval a := by
  have hdone (out : Outcome) (t : Store) :
      (done out t).carryOut limits eval b = (done out t).carryOut limits eval a := by
    simp only [carryOut, hplace]
  have hleave (out : Outcome) (t : Store) :
      (leave out t).carryOut limits eval b = (leave out t).carryOut limits eval a := by
    cases out <;> exact hdone _ t
  have hcall (vs : List Value) (t : Store) :
      (callee.call limits depth f receiver vs t).carryOut limits eval b =
        (callee.call limits depth f receiver vs t).carryOut limits eval a := by
    cases callee with
    | native fn =>
      obtain ⟨out, u, hfn⟩ := exists_done_of_native fn (limits.levels depth) f receiver vs t
      rw [Value.call, hfn]
      exact hdone out u
    | function fn =>
      simp only [Value.call, Closure.call]
      split
      · exact hdone _ t
      · simp only [carryOut, hdepth, hleave]
    | _ => exact hdone _ t
  have hcollect (cost : Nat) (seen : List Value) :
      (collect cost f (fun vs t => callee.call limits depth f receiver vs t) args seen s).carryOut limits eval b =
        (collect cost f (fun vs t => callee.call limits depth f receiver vs t) args seen s).carryOut limits
          eval a := by
    induction args generalizing seen s with
    | nil => exact hcall _ s
    | cons n args ih => exact carryOut_value_congr hplace hdepth fun v t => ih (v :: seen)
  unfold apply
  split
  · exact hcollect _ []
  · exact hdone _ s

end Congruence

theorem Activation.eval_located {a : Activation} {out : Outcome} {t : Store}
    (h : a.eval limits fuel s = some (out, t)) : out.locate a.node.place = out := by
  cases hplace : a.node.place with
  | none =>
    cases out with
    | failed failure =>
      obtain ⟨fault, place⟩ := failure
      cases place <;> rfl
    | _ => rfl
  | some place => exact (Activation.eval_isPlaced (by rw [hplace]; rfl) h).locate_eq _

theorem Activation.eval_call (hlimits : limits.nesting = none) {callee : Node} (hp : callee.place = p) :
    Activation.eval limits (fuel + 1) ⟨.call callee args q p, f, depth⟩ s =
      (Activation.eval limits fuel ⟨callee, f, depth⟩ s).bind (Outcome.andThen fun c t =>
        (Task.apply limits depth c none args f t).carryOut limits (Activation.eval limits fuel)
          ⟨.call callee args q p, f, depth⟩) := by
  simp only [Activation.eval, Node.start, Task.value, Task.carryOut, Limits.allows_of_unbounded hlimits, if_true]
  rw [Activation.eval_unbounded hlimits fuel (depth + 4) depth]
  cases hcallee : Activation.eval limits fuel ⟨callee, f, depth⟩ s with
  | none => rfl
  | some x =>
    obtain ⟨out, t⟩ := x
    have hlocated : out.locate p = out := hp ▸ Activation.eval_located hcallee
    cases out with
    | value c => rfl
    | _ => exact congrArg (fun o => some (o, t)) hlocated

theorem Activation.eval_methodCall (hlimits : limits.nesting = none) (hs : s.Sound .standard)
    (hf : f.index < s.frames.size) :
    Activation.eval limits (fuel + 1) ⟨.methodCall r k args q p, f, depth⟩ s =
      (Activation.eval limits (fuel + 1) ⟨.item r k p, f, depth⟩ s).bind (Outcome.andThen fun c t =>
        (Task.apply limits depth c none args f t).carryOut limits (Activation.eval limits fuel)
          ⟨.call (.item r k p) args q p, f, depth⟩) := by
  have hobeys {c : Value} {t : Store}
      (h : Activation.eval limits (fuel + 1) ⟨.item r k p, f, depth⟩ s = some (.value c, t)) :
      c.Obeys .standard :=
    (Activation.eval_keeps hs ⟨hf, fun _ _ => trivial⟩ h).2.2.obeys
  simp only [Activation.eval, Node.start, Task.value, Task.carryOut, Limits.allows_of_unbounded hlimits, if_true]
    at hobeys ⊢
  cases hr : Activation.eval limits fuel ⟨r, f, depth + 4⟩ s with
  | none => rfl
  | some x =>
    obtain ⟨out, t⟩ := x
    cases out with
    | value object =>
      simp only [hr, Task.onValue, Task.carryOut, Limits.allows_of_unbounded hlimits, if_true] at hobeys ⊢
      cases hk : Activation.eval limits fuel ⟨k, f, depth + 4⟩ t with
      | none => rfl
      | some y =>
        obtain ⟨out, u⟩ := y
        cases out with
        | value key =>
          simp only [hk] at hobeys ⊢
          cases hget : u.getItem object key with
          | error fault => rfl
          | ok c =>
            rw [hget] at hobeys
            change (Task.apply limits depth c (some object) args f u).carryOut limits (Activation.eval limits fuel)
                ⟨.methodCall r k args q p, f, depth⟩ =
              (Task.apply limits depth c none args f u).carryOut limits (Activation.eval limits fuel)
                ⟨.call (.item r k p) args q p, f, depth⟩
            rw [Task.apply_receiver (hobeys rfl)]
            apply Task.carryOut_apply_congr
            · rfl
            · rfl
        | _ => rfl
    | _ => rfl

theorem Outcome.andThen_mono {g g' : Value → Store → Option (Outcome × Store)}
    (hg : ∀ v t x, g v t = some x → g' v t = some x) {o o' : Option (Outcome × Store)} {x : Outcome × Store}
    (ho : ∀ y, o = some y → o' = some y) (h : o.bind (Outcome.andThen g) = some x) :
    o'.bind (Outcome.andThen g') = some x := by
  obtain ⟨⟨out, t⟩, hfirst, hrest⟩ := Option.bind_eq_some_iff.1 h
  refine Option.bind_eq_some_iff.2 ⟨(out, t), ho _ hfirst, ?_⟩
  cases out with
  | value v => exact hg v t x hrest
  | _ => exact hrest

theorem Activation.eval_call_of_methodCall (hlimits : limits.nesting = none) (hs : s.Sound .standard)
    (hf : f.index < s.frames.size) {x : Outcome × Store}
    (h : Activation.eval limits (fuel + 1) ⟨.methodCall r k args q p, f, depth⟩ s = some x) :
    Activation.eval limits (fuel + 2) ⟨.call (.item r k p) args q p, f, depth⟩ s = some x := by
  rw [Activation.eval_methodCall hlimits hs hf] at h
  rw [Activation.eval_call hlimits (show (Node.item r k p).place = p from rfl)]
  refine Outcome.andThen_mono (fun c t y hy => ?_) (fun y hy => hy) h
  exact Task.carryOut_mono (Activation.eval_mono (Nat.le_succ fuel)) _ _ _ hy

theorem Activation.eval_methodCall_of_call (hlimits : limits.nesting = none) (hs : s.Sound .standard)
    (hf : f.index < s.frames.size) {x : Outcome × Store}
    (h : Activation.eval limits (fuel + 1) ⟨.call (.item r k p) args q p, f, depth⟩ s = some x) :
    Activation.eval limits (fuel + 1) ⟨.methodCall r k args q p, f, depth⟩ s = some x := by
  rw [Activation.eval_call hlimits (show (Node.item r k p).place = p from rfl)] at h
  rw [Activation.eval_methodCall hlimits hs hf]
  refine Outcome.andThen_mono (fun c t y hy => hy) (fun y hy => ?_) h
  exact Activation.eval_mono (Nat.le_succ fuel) _ _ _ hy

end Local

/-! Any number of method calls. -/

def Pairing.expanding : Pairing :=
  .matching Eq Node.Expands Eq

namespace Pairing.Tied

variable {K : Pairing} {W : K.World} {r r' r'' : Option (Outcome × Store)} {x x' : Outcome × Store}

theorem exists_second (h : K.Tied W False True (some x) r') : ∃ x', r' = some x' ∧
    ∃ W₁, K.le W W₁ ∧ K.Stores W₁ x.2 x'.2 ∧ K.Outcomes W₁ x.1 x'.1 := by
  cases h with
  | both h => exact ⟨_, rfl, h⟩
  | first h => exact h.elim

theorem exists_first (h : K.Tied W True False r (some x')) : ∃ x, r = some x ∧
    ∃ W₁, K.le W W₁ ∧ K.Stores W₁ x.2 x'.2 ∧ K.Outcomes W₁ x.1 x'.1 := by
  cases h with
  | both h => exact ⟨_, rfl, h⟩
  | second h => exact h.elim

theorem grow_second (h : K.Tied W False True r r') (hr : ∀ x, r' = some x → r'' = some x) :
    K.Tied W False True r r'' := by
  cases h with
  | both h =>
    rw [hr _ rfl]
    exact .both h
  | first h => exact h.elim
  | neither | second => exact .of_second trivial

theorem shrink_second (h : K.Tied W True False r r') (hr : ∀ x, r'' = some x → r' = some x) :
    K.Tied W True False r r'' := by
  cases r'' with
  | none => exact .of_first trivial
  | some x =>
    rw [hr x rfl] at h
    exact h

end Pairing.Tied

section Simulation

variable {limits : Limits} {s s' : Store} {a : Activation} {n' : Node}

theorem Pairing.expanding_coherent (limits : Limits) : Pairing.expanding.Coherent limits := by
  refine matching_coherent ⟨rfl, ?_, fun _ => rfl, ?_⟩ limits
  · rintro p _ q _ rfl rfl
    rfl
  · intro n n' h hcall
    cases h with
    | node h => exact h.imp (fun w w' hw => by rw [hw]) (fun _ _ _ h => h) fun _ _ h => h
    | methodCall => cases hcall

theorem Pairing.expanding_tied {first second : Prop} {fuel fuel' : Nat}
    (heval : ∀ {s s' : Store} {a : Activation} {n' : Node}, Pairing.expanding.Active () s s' a n' →
      s.Sound .standard → s'.Sound .standard → Pairing.expanding.Tied () first second (a.eval limits fuel s)
        (Activation.eval limits fuel' ⟨n', a.scope, a.depth⟩ s'))
    (hstores : Pairing.expanding.Stores () s s') (hf : a.scope.index < s.frames.size)
    (hs : s.Sound .standard) (hs' : s'.Sound .standard)
    (hn : a.node.Parallel Eq Eq Node.Expands Node.Expands n') :
    Pairing.expanding.Tied () first second (a.eval limits (fuel + 1) s)
      (Activation.eval limits (fuel' + 1) ⟨n', a.scope, a.depth⟩ s') := by
  have hcoherent := Pairing.expanding_coherent limits
  have hf' : a.scope.index < s'.frames.size := by
    rw [hcoherent.size hstores.frames]
    exact hf
  have hfirst : Policy.standard.contract.Active s a := ⟨hs, hf, fun _ _ => trivial⟩
  have hsecond : Policy.standard.contract.Active s' ⟨n', a.scope, a.depth⟩ := ⟨hs', hf', fun _ _ => trivial⟩
  have hstart := Node.start_mirrors hcoherent
    (fun _ => hn.imp (fun _ _ _ => trivial) (fun _ _ _ h => h) fun _ _ _ => trivial)
    (fun _ => Pairing.matching_sameDepths) ⟨hstores, hf, .node hn⟩
  exact hstart.carryOut hcoherent (fun _ _ _ _ _ h ha ha' => heval h ha.store ha'.store) hn.place hfirst
    (Node.start_obeys hfirst) hsecond (Node.start_obeys hsecond)

/-- Whatever the first node ends with, the second one ends with the like. A unit of fuel may have to pay for
    a method call and again for the item. -/
theorem Activation.eval_expands (hlimits : limits.nesting = none) (fuel : Nat)
    (ha : Pairing.expanding.Active () s s' a n') (hs : s.Sound .standard) (hs' : s'.Sound .standard) :
    Pairing.expanding.Tied () False True (a.eval limits fuel s)
      (Activation.eval limits (2 * fuel) ⟨n', a.scope, a.depth⟩ s') := by
  induction fuel generalizing a n' s s' with
  | zero => exact .neither
  | succ fuel ih =>
    have hf' := (Pairing.expanding_coherent limits).size ha.stores.frames ▸ ha.scope
    have hparts {m : Node} (hm : a.node.Parallel Eq Eq Node.Expands Node.Expands m) :=
      Pairing.expanding_tied ih ha.stores ha.scope hs hs' hm
    obtain ⟨n, f, depth⟩ := a
    cases ha.node with
    | node h => exact (hparts h).grow_second fun x hx => Activation.eval_mono (Nat.le_succ _) _ _ _ hx
    | methodCall hr hk hargs =>
      refine (hparts (.methodCall hr hk hargs rfl rfl)).grow_second fun x hx => ?_
      exact Activation.eval_call_of_methodCall hlimits hs' hf' hx

theorem Activation.eval_contracts (hlimits : limits.nesting = none) (fuel : Nat)
    (ha : Pairing.expanding.Active () s s' a n') (hs : s.Sound .standard) (hs' : s'.Sound .standard) :
    Pairing.expanding.Tied () True False (a.eval limits fuel s)
      (Activation.eval limits fuel ⟨n', a.scope, a.depth⟩ s') := by
  -- No more fuel is called for than the expanded node has.
  induction fuel generalizing a n' s s' with
  | zero => exact .neither
  | succ fuel ih =>
    have hf' := (Pairing.expanding_coherent limits).size ha.stores.frames ▸ ha.scope
    have hparts {m : Node} (hm : a.node.Parallel Eq Eq Node.Expands Node.Expands m) :=
      Pairing.expanding_tied ih ha.stores ha.scope hs hs' hm
    obtain ⟨n, f, depth⟩ := a
    cases ha.node with
    | node h => exact hparts h
    | methodCall hr hk hargs =>
      refine (hparts (.methodCall hr hk hargs rfl rfl)).shrink_second fun x hx => ?_
      exact Activation.eval_methodCall_of_call hlimits hs' hf' hx

end Simulation

theorem Pairing.expanding_stores (s : Store) : Pairing.expanding.Stores () s s :=
  matching_stores_self (fun _ => rfl) fun _ _ c _ => .refl c.body

/-- With some method calls replaced by calls of the item, a program ends with the same value or error, the
    same output and the same variables, unless the host runs out of room for one of the two. -/
theorem method_calls_are_item_calls [Host] {n n' : Node} (hn : n.Expands n') {scope : FrameId} {s : Store}
    (hs : s.Sound .standard) (hscope : scope.index < s.frames.size) (calls : Nat) :
    (∀ steps r, Program.execute calls steps n scope s = some r → ¬Program.OutOfRoom r.1 →
      ∃ steps' r', Program.execute calls steps' n' scope s = some r' ∧
        (Program.OutOfRoom r'.1 ∨ Program.EndsAlike .expanding () r r')) ∧
    ∀ steps r', Program.execute calls steps n' scope s = some r' → ¬Program.OutOfRoom r'.1 →
      ∃ steps' r, Program.execute calls steps' n scope s = some r ∧
        (Program.OutOfRoom r.1 ∨ Program.EndsAlike .expanding () r r') := by
  let unbounded := (Program.limits calls).unbounded
  have hactive : Pairing.expanding.Active () s s ⟨n, scope, 0⟩ n' :=
    ⟨Pairing.expanding_stores s, hscope, hn⟩
  have hlimit : Program.EndsAlike .expanding () (.error (.crash .limit), s) (.error (.crash .limit), s) :=
    ⟨.crashed .limit, Pairing.expanding_stores s⟩
  refine ⟨fun steps r hrun hr => ?_, fun steps r' hrun hr => ?_⟩
  · refine Program.exists_execute_of_unbounded (fun fuel x hx => ?_) hlimit hrun hr
    have htied := Activation.eval_expands (show unbounded.nesting = none from rfl) fuel hactive hs hs
    rw [hx] at htied
    obtain ⟨x', hx', _, -, hstores, hout⟩ := htied.exists_second
    exact ⟨2 * fuel, x', hx', Program.endsAlike_of_outcomes rfl hstores hout⟩
  · have hback : ∀ fuel x', Activation.eval unbounded fuel ⟨n', scope, 0⟩ s = some x' → ∃ fuel' x,
        Activation.eval unbounded fuel' ⟨n, scope, 0⟩ s = some x ∧ flip (Program.EndsAlike .expanding ())
          (Program.result x'.1, x'.2) (Program.result x.1, x.2) := by
      intro fuel x' hx'
      have htied := Activation.eval_contracts (show unbounded.nesting = none from rfl) fuel hactive hs hs
      rw [hx'] at htied
      obtain ⟨x, hx, _, -, hstores, hout⟩ := htied.exists_first
      exact ⟨fuel, x, hx, Program.endsAlike_of_outcomes rfl hstores hout⟩
    exact Program.exists_execute_of_unbounded hback hlimit hrun hr

theorem method_calls_are_item_calls_pushing :
    ∃ n n' t steps' r',
      Program.parse "var a = [1]; fun f(x) \x7b a.push(x); return a; \x7d print f(2);\na.pop();" = .ok n ∧
      n.Expands n' ∧ n' ≠ n ∧
      Program.execute 50 400 n (Store.rootWith none standardNatives).1 (Store.rootWith none standardNatives).2 =
        some (.error (.runtime ⟨.noArrayMember "pop", some ⟨2, some 1⟩⟩), t) ∧
      t.output = "[1, 2]\n" ∧
      Program.execute 50 steps' n' (Store.rootWith none standardNatives).1
        (Store.rootWith none standardNatives).2 = some r' ∧
      (Program.OutOfRoom r'.1 ∨ Program.EndsAlike .expanding ()
        (.error (.runtime ⟨.noArrayMember "pop", some ⟨2, some 1⟩⟩), t) r') := by
  obtain ⟨first, w, params, r, k, args, q, p, p₁, second, p₂, p₃, third, r₁, k₁, q₁, p₄, p₅, p₆, t, hparse, hrun,
      houtput⟩ : ∃ first w params r k args q p p₁ second p₂ p₃ third r₁ k₁ q₁ p₄ p₅ p₆ t,
      Program.parse "var a = [1]; fun f(x) \x7b a.push(x); return a; \x7d print f(2);\na.pop();" = .ok
        (.sequence [first,
          .function w params (.sequence [.expression (.methodCall r k args q p) p₁, second] p₂) p₃, third,
          .expression (.methodCall r₁ k₁ [] q₁ p₄) p₅] p₆) ∧
      Program.execute 50 400 (.sequence [first,
          .function w params (.sequence [.expression (.methodCall r k args q p) p₁, second] p₂) p₃, third,
          .expression (.methodCall r₁ k₁ [] q₁ p₄) p₅] p₆) (Store.rootWith none standardNatives).1
        (Store.rootWith none standardNatives).2 =
          some (.error (.runtime ⟨.noArrayMember "pop", some ⟨2, some 1⟩⟩), t) ∧
      t.output = "[1, 2]\n" :=
    ⟨_, _, _, _, _, _, _, _, _, _, _, _, _, _, _, _, _, _, _, _, by cbv, by cbv, by cbv⟩
  have hpush : (Node.methodCall r k args q p).Expands (.call (.item r k p) args q p) :=
    .methodCall (.refl r) (.refl k) (List.forall₂_same.2 fun c _ => .refl c)
  have hpop : (Node.methodCall r₁ k₁ [] q₁ p₄).Expands (.call (.item r₁ k₁ p₄) [] q₁ p₄) :=
    .methodCall (.refl r₁) (.refl k₁) .nil
  have hbody := Node.Expands.node (.sequence
    (.cons (.node (.expression hpush (Eq.refl p₁))) (.cons (.refl second) .nil)) (Eq.refl p₂))
  have hf := Node.Expands.node (.function (Eq.refl w) (List.forall₂_same.2 fun x _ => Eq.refl x)
    (Eq.refl params.place) hbody (Eq.refl p₃))
  have hn := Node.Expands.node (.sequence (.cons (.refl first) (.cons hf (.cons (.refl third)
    (.cons (.node (.expression hpop (Eq.refl p₅))) .nil)))) (Eq.refl p₆))
  have hs : (Store.rootWith none standardNatives).2.Sound .standard :=
    Store.Sound.rootWith none (by simp [standardNatives, Policy.standard, Policy.legible])
  have hroom : ¬Program.OutOfRoom (.error (.runtime ⟨.noArrayMember "pop", some ⟨2, some 1⟩⟩)) := by
    rintro ⟨cause, -, heq⟩
    cases cause <;> cases heq
  obtain ⟨steps', r', hrun', halike⟩ :=
    (method_calls_are_item_calls hn hs (Store.rootWith_lt none standardNatives) 50).1 400 _ hrun hroom
  exact ⟨_, _, t, steps', r', hparse, hn, by simp, hrun, houtput, hrun', halike⟩

end Scripting
