import Mathlib.Data.List.Forall2
import Scripting.Program
import Scripting.Proofs.Store.Contents

/-!
Evaluation neither looks at the sources of frames nor at what was printed before. Without them it takes the
same steps to the same outcome, and what it leaves differs only in them.
-/

set_option autoImplicit false

namespace Scripting

/-- The second task does what the first one does, with the stores that `change` gives. -/
def Task.Along (change : Store → Store) : Task → Task → Prop
  | .done out s, other => other = .done out (change s)
  | .visit cost n scope s resume, other =>
    ∃ resume', other = .visit cost n scope (change s) resume' ∧
      ∀ out t, (resume out t).Along change (resume' out (change t))
  | .again s, other => other = .again (change s)

namespace Task

section Combinators

variable {change : Store → Store} {cost : Nat} {scope : FrameId} {s : Store}

theorem along_value {n : Node} {k k' : Value → Store → Task}
    (hk : ∀ v t, (k v t).Along change (k' v (change t))) :
    (value cost n scope s k).Along change (value cost n scope (change s) k') := by
  refine ⟨onValue k', rfl, fun out t => ?_⟩
  cases out with
  | value v => exact hk v t
  | _ => rfl

theorem along_ofExcept (r : Except Fault Value) :
    (ofExcept s r).Along change (ofExcept (change s) r) := by
  cases r <;> rfl

theorem along_sequence (nodes : List Node) (last : Value) :
    (sequence cost scope nodes last s).Along change (sequence cost scope nodes last (change s)) := by
  induction nodes generalizing last s with
  | nil => rfl
  | cons n nodes ih => exact along_value fun v t => ih v

theorem along_collect {k : List Value → Store → Task}
    (hk : ∀ vs t, (k vs t).Along change (k vs (change t))) (nodes : List Node) (seen : List Value) :
    (collect cost scope k nodes seen s).Along change (collect cost scope k nodes seen (change s)) := by
  induction nodes generalizing seen s with
  | nil => exact hk _ s
  | cons n nodes ih => exact along_value fun v t => ih (v :: seen)

theorem along_test {keyword : String} {condition : Node} {k : Bool → Store → Task}
    (hk : ∀ b t, (k b t).Along change (k b (change t))) :
    (test keyword condition scope s k).Along change (test keyword condition scope (change s) k) := by
  refine along_value fun v t => ?_
  cases v with
  | boolean b => exact hk b t
  | _ => rfl

theorem along_leave (out : Outcome) : (leave out s).Along change (leave out (change s)) := by
  cases out <;> rfl

end Combinators

variable {before : String} {scope : FrameId} {s : Store}

theorem along_within {limits : Limits} {depth more : Nat} {task task' : Task}
    (h : task.Along (.bare before) task') :
    (within limits depth more s task).Along (.bare before)
      (within limits depth more (s.bare before) task') := by
  unfold within
  split
  · exact h
  · rfl

theorem along_collectFields (fields : List (Field Node)) (seen : Table Value) :
    (collectFields scope fields seen s).Along (.bare before)
      (collectFields scope fields seen (s.bare before)) := by
  induction fields generalizing seen s with
  | nil => rfl
  | cons field fields ih => exact along_value fun v t => ih _

theorem along_native (fn : Native) (levels : Option Nat) (caller : FrameId) (receiver : Option Value)
    (args : List Value) :
    (fn.call levels caller receiver args s).Along (.bare before)
      (fn.call levels caller receiver args (s.bare before)) := by
  unfold Native.call
  simp only [Store.display_bare, Store.depth_bare]
  repeat' split
  all_goals first | rfl | exact congrArg _ (Store.bare_write ..).symm

theorem along_closure (limits : Limits) (fn : Closure) (caller : FrameId) (args : List Value) :
    (fn.call limits caller args s).Along (.bare before)
      (fn.call limits caller args (s.bare before)) := by
  simp only [Closure.call, Store.depth_bare, Store.bare_newFrame]
  split
  · rfl
  · exact ⟨leave, by rw [Store.bare_bind], fun out t => along_leave out⟩

theorem along_call (limits : Limits) (depth : Nat) (callee : Value) (caller : FrameId)
    (receiver : Option Value) (args : List Value) :
    (callee.call limits depth caller receiver args s).Along (.bare before)
      (callee.call limits depth caller receiver args (s.bare before)) := by
  cases callee with
  | native fn => exact along_native fn (limits.levels depth) caller receiver args
  | function fn => exact along_closure limits fn caller args
  | _ => rfl

theorem along_apply (limits : Limits) (depth : Nat) (callee : Value) (receiver : Option Value)
    (args : List Node) :
    (apply limits depth callee receiver args scope s).Along (.bare before)
      (apply limits depth callee receiver args scope (s.bare before)) := by
  unfold apply
  split
  · apply along_collect
    exact fun vs t => along_call limits depth callee scope receiver vs
  · rfl

end Task

theorem Node.start_along (before : String) (limits : Limits) (depth : Nat) (scope : FrameId) (s : Store)
    (n : Node) :
    (n.start limits depth scope s).Along (.bare before)
      (n.start limits depth scope (s.bare before)) := by
  cases n with
  | number w =>
    refine Task.along_within ?_
    split <;> rfl
  | string w => exact Task.along_within rfl
  | boolean b w => exact Task.along_within rfl
  | name w =>
    simp only [Node.start, Store.get?_bare, Store.search_bare]
    refine Task.along_within ?_
    split <;> rfl
  | binary op l r p =>
    exact Task.along_value fun _ _ => Task.along_value fun _ _ => Task.along_ofExcept _
  | negate e p => exact Task.along_value fun _ _ => Task.along_ofExcept _
  | array items p =>
    refine Task.along_collect (fun _ _ => ?_) items []
    rfl
  | record fields p => exact Task.along_collectFields fields .empty
  | item base key p =>
    exact Task.along_value fun _ _ => Task.along_value fun _ _ => Task.along_ofExcept _
  | setItem base key value p =>
    refine Task.along_value fun b _ => Task.along_value fun k _ => Task.along_value fun v t => ?_
    simp only [Store.slot_bare]
    split
    · exact congrArg _ (Store.bare_fill ..).symm
    · rfl
  | call callee args q p => exact Task.along_value fun _ _ => Task.along_apply limits depth _ none args
  | methodCall receiver key args q p =>
    refine Task.along_value fun _ _ => Task.along_value fun _ _ => ?_
    simp only [Store.getItem_bare]
    split
    · exact Task.along_apply limits depth _ _ args
    · rfl
  | assign w value p =>
    refine Task.along_value fun _ _ => ?_
    simp only [Store.holder?_bare, Store.search_bare]
    refine Task.along_within ?_
    split
    · exact congrArg _ (Store.bare_define ..).symm
    · rfl
  | sequence body p => exact Task.along_sequence body .nothing
  | block body p =>
    simp only [Node.start, Store.bare_newFrame]
    exact Task.along_sequence body .nothing
  | expression e p => exact Task.along_value fun _ _ => rfl
  | declare w init p =>
    cases init with
    | none => exact congrArg _ (Store.bare_define ..).symm
    | some e => exact Task.along_value fun _ _ => congrArg _ (Store.bare_define ..).symm
  | function w params body p => exact congrArg _ (Store.bare_define ..).symm
  | print e p =>
    refine Task.along_value fun _ _ => ?_
    simp only [Store.display_bare]
    split
    · exact congrArg _ (Store.bare_write ..).symm
    · rfl
  | giveBack value p =>
    cases value with
    | none => rfl
    | some e => exact Task.along_value fun _ _ => rfl
  | loop condition body p =>
    refine Task.along_test fun b _ => ?_
    split
    · exact Task.along_value fun _ _ => rfl
    · rfl
  | branch condition yes no p => exact Task.along_test fun _ _ => Task.along_value fun _ _ => rfl
  | malformed defect p => cases defect <;> rfl

namespace Machine

def Waiting.Along (change : Store → Store) (w w' : Waiting) : Prop :=
  w'.activation = w.activation ∧ ∀ out t, (w.resume out t).Along change (w'.resume out (change t))

theorem run_along {before : String} {limits : Limits} {steps : Nat} {task task' : Task} {a : Activation}
    {stack stack' : List Waiting} (h : task.Along (.bare before) task')
    (hstack : List.Forall₂ (Waiting.Along (.bare before)) stack stack') :
    run limits steps task' a stack' =
      (run limits steps task a stack).map fun r => (r.1, r.2.bare before) := by
  induction steps generalizing task task' a stack stack' with
  | zero => rfl
  | succ steps ih =>
    cases task with
    | done out s =>
      cases h
      cases hstack with
      | nil => rfl
      | @cons w w' stack stack' hw hstack =>
        simp only [run, hw.1]
        exact ih (hw.2 _ s) hstack
    | visit cost n scope s resume =>
      obtain ⟨resume', rfl, hresume⟩ := h
      simp only [run]
      split
      · exact ih (n.start_along before limits _ scope s) (.cons ⟨rfl, hresume⟩ hstack)
      · exact ih (hresume _ s) hstack
    | again s =>
      cases h
      exact ih (a.node.start_along before limits _ _ s) hstack

theorem evaluate_bare (before : String) (limits : Limits) (steps : Nat) (n : Node) (scope : FrameId)
    (s : Store) :
    evaluate limits steps n scope (s.bare before) =
      (evaluate limits steps n scope s).map fun r => (r.1, r.2.bare before) :=
  run_along (n.start_along before limits 0 scope s) .nil

end Machine

namespace Program

variable [Host]

theorem execute_bare (before : String) (calls steps : Nat) (program : Node) (scope : FrameId) (s : Store) :
    execute calls steps program scope (s.bare before) =
      (execute calls steps program scope s).map fun r => (r.1, r.2.bare before) := by
  unfold execute
  split
  · rfl
  · rw [Machine.evaluate_bare, Option.map_map, Option.map_map]
    rfl

theorem execute_contents (calls steps : Nat) (program : Node) (scope : FrameId) (s : Store) :
    (execute calls steps program scope s).map (fun r => (r.1, r.2.bare "")) =
      (execute calls steps program scope s.contents).map fun r => (r.1, r.2.bare s.output) := by
  rw [← execute_bare, ← execute_bare, Store.bare_contents]

/-- Two stores with the same contents take a program to the same result. Afterwards their contents are
    the same again, and the same text has been printed behind what stood there. -/
theorem execute_of_contents_eq {calls steps : Nat} {program : Node} {scope : FrameId} {s s' t : Store}
    {result : Except Error Value} (h : s.contents = s'.contents)
    (hrun : execute calls steps program scope s = some (result, t)) :
    ∃ t' printed, execute calls steps program scope s' = some (result, t') ∧
      t.contents = t'.contents ∧ t.output = s.output ++ printed ∧ t'.output = s'.output ++ printed := by
  have hfirst := execute_contents calls steps program scope s
  have hsecond := execute_contents calls steps program scope s'
  rw [hrun, h] at hfirst
  obtain ⟨⟨result', u⟩, hu, heq⟩ := Option.map_eq_some_iff.1 hfirst.symm
  obtain ⟨rfl, hbare⟩ := Prod.mk.inj heq
  rw [hu] at hsecond
  obtain ⟨⟨result'', t'⟩, ht', heq'⟩ := Option.map_eq_some_iff.1 hsecond
  obtain ⟨rfl, hbare'⟩ := Prod.mk.inj heq'
  obtain ⟨hcontents, hprinted⟩ := Store.bare_eq_iff.1 hbare
  obtain ⟨hcontents', hprinted'⟩ := Store.bare_eq_iff.1 hbare'
  refine ⟨t', u.output, ht', hcontents.symm.trans hcontents'.symm, ?_, ?_⟩
  · simpa using hprinted.symm
  · simpa using hprinted'

end Program

end Scripting
