import Mathlib
import Scripting.Proofs.Evaluation.Counting
import Scripting.Proofs.Evaluation.Course

/-!
The depth of a frame is the height of the call stack. In every configuration of the machine, the frame in
which it works stands as many calls deeper than the frame of the program as there are calls that wait for
the body of a function. So the limit of calls applies to those and to nothing else.
-/

set_option autoImplicit false

namespace Scripting

namespace Machine

/-- How many calls are active at a node with others that wait. While a call is active its node waits in one
    frame for the body of the function in another frame. -/
def activeCalls (a : Activation) : List Waiting → Nat
  | [] => 0
  | w :: stack =>
    activeCalls w.activation stack +
      if w.activation.node.isCall ∧ a.scope ≠ w.activation.scope then 1 else 0

def outermost (a : Activation) : List Waiting → FrameId
  | [] => a.scope
  | w :: stack => outermost w.activation stack

namespace Asked

variable {calls : Nat} {s : Store} {a : Activation} {stack : List Waiting}

theorem depth_eq (h : Asked calls s a stack) :
    (s.frame a.scope).depth = (s.frame (outermost a stack)).depth + activeCalls a stack := by
  induction stack generalizing a with
  | nil => exact (Int.add_zero _).symm
  | cons w stack ih =>
    obtain ⟨hask, hrest⟩ := h
    have hrest := ih hrest
    rw [outermost, activeCalls]
    generalize hf : a.scope = f, a.node = n at hask
    cases hask with
    | operand => simpa using hrest
    | statement hn _ hd => simpa [hn, Node.isCall, hd] using hrest
    | body hn hd =>
      have hne : f ≠ w.activation.scope := by
        rintro rfl
        omega
      rw [if_pos ⟨hn, hne⟩]
      omega

theorem depth_le (h : Asked calls s a stack) :
    activeCalls a stack = 0 ∨ (s.frame a.scope).depth ≤ calls := by
  induction stack generalizing a with
  | nil => exact .inl rfl
  | cons w stack ih =>
    obtain ⟨hask, hrest⟩ := h
    have hrest := ih hrest
    rw [activeCalls]
    generalize hf : a.scope = f, a.node = n at hask
    cases hask with
    | operand => simpa using hrest
    | statement hn _ hd => simpa [hn, Node.isCall, hd] using hrest
    | body _ _ hle => exact .inr hle

end Asked

namespace Config

def activeCalls (c : Config) : Nat :=
  Machine.activeCalls c.active c.stack

theorem outermost_next {limits : Limits} {c d : Config} (h : c.next limits = some d) :
    outermost d.active d.stack = outermost c.active c.stack := by
  obtain ⟨task, active, stack⟩ := c
  cases task with
  | done out s =>
    cases stack with
    | nil => cases h
    | cons waiting stack =>
      cases h
      rfl
  | visit cost node f s resume =>
    rw [Config.next] at h
    split at h
    all_goals
      cases h
      rfl
  | again s =>
    cases h
    rfl

theorem Reaches.outermost_eq {limits : Limits} {c d : Config} (h : c.Reaches limits d) :
    outermost d.active d.stack = outermost c.active c.stack := by
  induction h with
  | refl => rfl
  | next _ he ih => rw [outermost_next he, ih]

theorem Reaches.depth_eq {limits : Limits} {program : Node} {f : FrameId} {s : Store} {d : Config}
    (hf : f.index < s.frames.size) (h : (Config.start limits program f s).Reaches limits d) :
    (d.store.frame d.active.scope).depth = (s.frame f).depth + d.activeCalls ∧
      (d.activeCalls = 0 ∨ (s.frame f).depth + d.activeCalls ≤ limits.calls) ∧ s.Extends d.store := by
  have hstart : (Config.start limits program f s).Obeys .any limits.calls ∧
      s.Extends (Config.start limits program f s).store := Obeys.start limits trivial hf trivial
  obtain ⟨hd, hlater⟩ := hstart.1.reaches h
  have hs := hstart.2.trans hlater
  have hdepth := hd.asked.depth_eq
  rw [h.outermost_eq] at hdepth
  have hroot : (d.store.frame f).depth = (s.frame f).depth := (hs.frame f hf).depth
  have hcount : (d.store.frame d.active.scope).depth = (s.frame f).depth + d.activeCalls := by
    rw [← hroot]
    exact hdepth
  refine ⟨hcount, ?_, hs⟩
  rw [← hcount]
  exact hd.asked.depth_le

end Config

end Machine

theorem Closure.call_eq_fail_iff {limits : Limits} {fn : Closure} {caller : FrameId} {args : List Value}
    {s : Store} :
    fn.call limits caller args s = .fail (.callDepth limits.calls fn.name) s ↔
      (limits.calls : Int) < (s.frame caller).depth + 1 := by
  unfold Closure.call
  dsimp only
  split
  · exact iff_of_true rfl ‹_›
  · exact iff_of_false nofun ‹_›

open Machine (Config)

/-- The depth of the frame at work counts the active calls, also in a session that has failed before, and a
    call fails for the limit exactly if it would be one too many. A counter beside the store does the same. -/
theorem session_depth_counts_calls {programs : Node → Prop} {root : FrameId} {s : Store} {c : Config}
    (hroot : root.index < s.frames.size) (hc : Session programs root (.idle root s) c) (limits : Limits)
    (program : Node) {f : FrameId} (hf : f.index < s.frames.size) :
    (∀ d, (Config.start limits program f c.store).Reaches limits d →
      (d.store.frame d.active.scope).depth = (s.frame f).depth + d.activeCalls ∧
      (d.activeCalls = 0 ∨ (s.frame f).depth + d.activeCalls ≤ limits.calls) ∧
      ∀ (fn : Closure) args (t : Store), d.active.scope.index < t.frames.size → t.Extends d.store →
        (fn.call limits d.active.scope args t = .fail (.callDepth limits.calls fn.name) t ↔
          limits.calls < (s.frame f).depth + d.activeCalls + 1)) ∧
    ∀ (s' : Store), s'.withoutDepths = c.store.withoutDepths → ∀ out view,
      (∃ steps t, Machine.evaluate limits steps program f c.store = some (out, t) ∧
        t.withoutDepths = view) ↔
      ∃ fuel e, Counting.eval limits fuel ⟨program, f, 0⟩ ⟨(s.frame f).depth, s'⟩ = some (out, e) ∧
        e.active = (s.frame f).depth ∧ e.store.withoutDepths = view := by
  have hidle : (Config.idle root s).Obeys .any 0 := .idle trivial hroot trivial
  have hextends : s.Extends c.store := (hc.obeys (fun _ _ _ _ => trivial) hidle hroot).2
  have hlt := Nat.lt_of_lt_of_le hf hextends.frames_size
  have hframe : (c.store.frame f).depth = (s.frame f).depth := (hextends.frame f hf).depth
  constructor
  · intro d hd
    obtain ⟨hdepth, hle, -⟩ := hd.depth_eq hlt
    rw [hframe] at hdepth hle
    refine ⟨hdepth, hle, fun fn args t ht he => ?_⟩
    rw [Closure.call_eq_fail_iff, ← (he.frame _ ht).depth, hdepth]
  · intro s' hs' out view
    have hcounts : Counting.State.Counts ⟨(s.frame f).depth, s'⟩ c.store f :=
      ⟨Store.withoutDepths_eq_iff.1 hs', hlt, hframe.symm⟩
    exact Counting.evaluate_iff hcounts

theorem session_depth_counts_calls_after_overflow :
    ∃ failure t program u fuel e,
      Program.run 3 400 "fun f(n) \x7b if (n > 0) return f(n - 1); return typeof(n); \x7d f(9);"
        (Store.rootWith none standardNatives).1 (Store.rootWith none standardNatives).2 =
          some (.error (.runtime failure), t) ∧
      failure.fault = .callDepth 3 "f" ∧
      Program.parse "return f(2);" = .ok program ∧
      Machine.evaluate (Program.limits 3) 400 program (Store.rootWith none standardNatives).1 t =
        some (.returned (.string "number"), u) ∧
      Counting.eval (Program.limits 3) fuel ⟨program, (Store.rootWith none standardNatives).1, 0⟩
        ⟨0, t.withoutDepths⟩ = some (.returned (.string "number"), e) ∧
      e.active = 0 ∧ e.store.withoutDepths = u.withoutDepths := by
  obtain ⟨failure, t, program, u, hfirst, hfault, hparse, hsecond⟩ : ∃ failure t program u,
      Program.run 3 400 "fun f(n) \x7b if (n > 0) return f(n - 1); return typeof(n); \x7d f(9);"
        (Store.rootWith none standardNatives).1 (Store.rootWith none standardNatives).2 =
          some (.error (.runtime failure), t) ∧
      failure.fault = .callDepth 3 "f" ∧
      Program.parse "return f(2);" = .ok program ∧
      Machine.evaluate (Program.limits 3) 400 program (Store.rootWith none standardNatives).1 t =
        some (.returned (.string "number"), u) :=
    ⟨_, _, _, _, by cbv, by cbv, by cbv, by cbv⟩
  have hroot := Store.rootWith_lt none standardNatives
  obtain ⟨c, hc, rfl⟩ := Session.run_source (.refl (.idle _ _)) (fun _ _ => trivial) hfirst
  obtain ⟨fuel, e, heval, hactive, hstore⟩ :=
    ((session_depth_counts_calls hroot hc (Program.limits 3) program hroot).2 c.store.withoutDepths
      (by simp [Store.withoutDepths, Store.view, Table.map]) _ _).1 ⟨400, u, hsecond, rfl⟩
  exact ⟨failure, _, program, u, fuel, e, hfirst, hfault, hparse, hsecond, heval, hactive, hstore⟩

end Scripting
