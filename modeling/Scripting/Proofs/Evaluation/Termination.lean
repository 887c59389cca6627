import Scripting.Program
import Scripting.Proofs.Evaluation.Contract
import Scripting.Proofs.Evaluation.Session
import Scripting.Proofs.Node.Parts

/-!
Programs without loops end. A node asks for smaller nodes at its own call depth, or for the body of a
function one level deeper, and the limit on the call depth bounds the levels. A body may be larger than
the call, and it comes from the store; that it has no loop either is kept by the evaluation.
-/

set_option autoImplicit false

namespace Scripting

def Node.LoopFree (n : Node) : Prop :=
  n.Everywhere fun m => m.isLoop = false

instance (n : Node) : Decidable n.LoopFree :=
  inferInstanceAs (Decidable (n.Everywhere fun m => m.isLoop = false))

def Value.LoopFree : Value → Prop
  | .function c => c.body.LoopFree
  | _ => True

def Store.LoopFree (s : Store) : Prop :=
  ∀ v, s.Holds v → v.LoopFree

namespace Store

namespace LoopFree

variable {s : Store}

theorem define {v : Value} (hs : s.LoopFree) (f : FrameId) (name : String) (hv : v.LoopFree) :
    (s.define f name v).LoopFree :=
  AllHold.define hs f name hv

theorem newRoot (hs : s.LoopFree) (source : Option String) : (s.newRoot source).2.LoopFree :=
  (AllHold.newFrame hs none source none).install _ fun _ _ => trivial

end LoopFree

theorem loopFree_empty : Store.empty.LoopFree :=
  AllHold.empty

end Store

def Contract.loopFree : Contract where
  store s := s.LoopFree
  value _ v := v.LoopFree
  node _ _ n := n.LoopFree
  value_mono _ hv := hv
  node_mono _ hn := hn
  operand hn hc := hn.child (Node.mem_children_of_operands hc)
  block hs _ hn := ⟨Store.AllHold.newFrame hs _ _ _, fun _ hc => hn.child hc⟩
  call _ hs hfn hargs := ⟨(Store.AllHold.newFrame hs _ _ _).bind _ _ trivial hargs, hfn⟩
  write hs := Store.AllHold.write hs _
  newArray hs hv := ⟨Store.AllHold.newArray hs hv, trivial⟩
  newRecord hs hv := ⟨Store.AllHold.newRecord hs hv, trivial⟩
  append hs _ hv := Store.AllHold.append hs _ hv
  fill hs _ _ hv := Store.AllHold.fill hs _ hv
  assign hs _ _ hv := hs.define _ _ hv
  declare hs _ hv := hs.define _ _ hv
  function hs _ hn := hs.define _ _ (hn.child (List.mem_singleton_self _))
  nothing := trivial
  string _ := trivial
  boolean _ := trivial
  numeral _ _ := trivial
  wrapped _ := trivial
  name hs _ hv := hs _ (Store.holds_of_get? hv)
  item hs _ hv := Store.AllHold.getItem hs (fun _ => trivial) (fun _ => trivial) hv
  bound _ _ := trivial
  count _ _ _ := trivial

section Ends

variable {C : Contract} {limits : Limits}

theorem Task.Obeys.ends {a : Activation} {task : Task} {s : Store} (hloop : a.node.isLoop = false)
    (h : task.Obeys C limits.calls a s)
    (hask : ∀ (b : Activation) (t : Store), s.Extends t → C.Active t b →
      a.node.Asks limits.calls a.scope t b.scope b.node → ∃ fuel r, b.eval limits fuel t = some r) :
    ∃ fuel r, task.carryOut limits (Activation.eval limits fuel) a = some r := by
  induction task generalizing s with
  | done out t => exact ⟨0, _, rfl⟩
  | visit cost node f t resume ih =>
    obtain ⟨hst, hnode, hasks, hresume⟩ := h
    by_cases hroom : limits.allows (a.depth + cost) = true
    · obtain ⟨first, ⟨out, u⟩, hfirst⟩ := hask _ t hst hnode hasks
      obtain ⟨htu, hu, hout⟩ := Activation.eval_obeys hnode hfirst
      obtain ⟨rest, r, hrest⟩ := ih out u (hresume out u htu hu hout) fun b v huv =>
        hask b v ((hst.trans htu).trans huv)
      -- the larger of the two amounts of fuel serves both
      refine ⟨max first rest, r, ?_⟩
      have hchild := Activation.eval_mono (Nat.le_max_left first rest) _ _ _ hfirst
      simp only [Task.carryOut, hroom, if_true, hchild]
      exact Task.carryOut_mono (Activation.eval_mono (Nat.le_max_right first rest)) _ _ _ hrest
    · obtain ⟨fuel, r, hr⟩ := ih (.aborted .stack) t
        (hresume (.aborted .stack) t (.refl t) hnode.store (C.stack rfl)) fun b v htv =>
          hask b v (hst.trans htv)
      refine ⟨fuel, r, ?_⟩
      simp only [Task.carryOut, hroom]
      exact hr
  | again t =>
    have hagain := h.2.2
    rw [hloop] at hagain
    cases hagain

/-- What is asked for is smaller at the same call depth, or one level of calls deeper within the limit. -/
theorem Node.Asks.lex {n c : Node} {scope f : FrameId} {s t : Store} (he : s.Extends t)
    (hscope : scope.index < s.frames.size) (h : n.Asks limits.calls scope t f c) :
    Prod.Lex (· < ·) (· < ·) ((limits.calls - (t.frame f).depth).toNat, sizeOf c)
      ((limits.calls - (s.frame scope).depth).toNat, sizeOf n) := by
  have hdepth : (t.frame scope).depth = (s.frame scope).depth := (he.frame scope hscope).depth
  cases h with
  | operand hc =>
    rw [hdepth]
    exact .right _ (Node.sizeOf_child (Node.mem_children_of_operands hc))
  | statement hn hc hd =>
    subst hn
    rw [hd, hdepth]
    exact .right _ (Node.sizeOf_child hc)
  | body _ hd hle =>
    refine .left _ _ ?_
    omega

theorem Activation.eval_ends (a : Activation) (s : Store) (ha : Contract.loopFree.Active s a) :
    ∃ fuel r, a.eval limits fuel s = some r := by
  have hstart : (a.node.start limits a.depth a.scope s).Obeys .loopFree limits.calls a s :=
    Node.start_obeys ha
  obtain ⟨fuel, r, hr⟩ := hstart.ends ha.node.here fun b t het hb hasks => eval_ends b t hb
  exact ⟨fuel + 1, r, hr⟩
termination_by ((limits.calls - (s.frame a.scope).depth).toNat, sizeOf a.node)
decreasing_by exact hasks.lex het ha.scope

theorem Machine.evaluate_ends (limits : Limits) {n : Node} {scope : FrameId} {s : Store} (hs : s.LoopFree)
    (hscope : scope.index < s.frames.size) (hn : n.LoopFree) :
    ∃ steps r, evaluate limits steps n scope s = some r := by
  obtain ⟨fuel, r, hr⟩ := Activation.eval_ends ⟨n, scope, 0⟩ s ⟨hs, hscope, hn⟩
  obtain ⟨steps, h⟩ := evaluate_iff.2 ⟨fuel, hr⟩
  exact ⟨steps, r, h⟩

end Ends

/-- An accepted source without loops ends in a new root frame, whatever the call depth limit, and so does any
    tree without loops in a store whose functions have none. -/
theorem loopFree_execution_ends [Host] (calls : Nat) :
    (∀ file source program, Program.parse source = .ok program → program.LoopFree →
      ∃ steps result t,
        Program.run calls steps source (Store.empty.newRoot file).1 (Store.empty.newRoot file).2 =
          some (result, t)) ∧
    ∀ nesting costs program (scope : FrameId) (s : Store), scope.index < s.frames.size → s.LoopFree →
      program.LoopFree →
      ∃ steps out t, Machine.evaluate ⟨calls, nesting, costs⟩ steps program scope s = some (out, t) := by
  constructor
  · intro file source program hparse hloop
    obtain ⟨steps, ⟨out, t⟩, h⟩ := Machine.evaluate_ends (Program.limits calls)
      (Store.loopFree_empty.newRoot file) (Store.empty.newRoot_lt file) hloop
    by_cases hlimit : Program.maxNesting < Program.nesting calls
    · refine ⟨0, .error (.crash .limit), (Store.empty.newRoot file).2, ?_⟩
      simp only [Program.run, hparse, Program.execute, if_pos hlimit]
    · refine ⟨steps, Program.result out, t, ?_⟩
      simp only [Program.run, hparse, Program.execute, if_neg hlimit, h, Option.map_some]
  · intro nesting costs program scope s hscope hs hloop
    obtain ⟨steps, ⟨out, t⟩, h⟩ := Machine.evaluate_ends ⟨calls, nesting, costs⟩ hs hscope hloop
    exact ⟨steps, out, t, h⟩

/-- A function that calls what it finds in its argument, applied to an array with itself. -/
theorem loopFree_execution_ends_self_application :
    (∃ program, Program.parse "fun f(g) \x7b return g[0](g); \x7d return f([f]);" = .ok program ∧
      program.LoopFree ∧ ∃ steps result t,
        Program.run 6 steps "fun f(g) \x7b return g[0](g); \x7d return f([f]);"
          (Store.empty.newRoot none).1 (Store.empty.newRoot none).2 = some (result, t)) ∧
    ∃ steps out t,
      Machine.evaluate ⟨6, none, Host.costs⟩ steps (.call (.name ⟨"f", none⟩) [.name ⟨"f", none⟩] none none)
        (Store.empty.newRoot none).1
        ((Store.empty.newRoot none).2.define (Store.empty.newRoot none).1 "f"
          (.function ⟨"f", ["g"], .giveBack (some (.call (.name ⟨"g", none⟩) [.name ⟨"g", none⟩] none none)) none,
            (Store.empty.newRoot none).1⟩)) = some (out, t) := by
  have hparse : (match Program.parse "fun f(g) \x7b return g[0](g); \x7d return f([f]);" with
    | .ok program => decide program.LoopFree
    | .error _ => false) = true := by decide +kernel
  constructor
  · split at hparse
    · rename_i program hprogram
      have hloop : program.LoopFree := of_decide_eq_true hparse
      exact ⟨program, hprogram, hloop, (loopFree_execution_ends 6).1 none _ program hprogram hloop⟩
    · cases hparse
  · refine (loopFree_execution_ends 6).2 none _ _ _ _ (by decide) ?_ (by decide)
    refine (Store.loopFree_empty.newRoot none).define _ _ ?_
    change Node.LoopFree _
    decide

end Scripting
