import Scripting.Fault
import Scripting.Host
import Scripting.Store.Basic

/-!
Evaluation as data. The rule of a node does its own part of the work on the store and asks for the
evaluation of its children; what remains to be done with a child's outcome waits in the task.
-/

set_option autoImplicit false

namespace Scripting

/-- Why an evaluation stops that neither ends nor fails by a rule of the language. -/
inductive Abort where
  | stack
  | text (levels : Option Nat)
  /-- A part of the program cannot be read: a numeral that is none, or a node with the wrong children. -/
  | unreadable
deriving DecidableEq, Repr

def Abort.isStack : Abort → Bool
  | stack | text _ => true
  | unreadable => false

/-- What the evaluation of a node ends with. -/
inductive Outcome where
  | value (v : Value)
  | returned (v : Value)
  | failed (failure : Failure)
  | aborted (cause : Abort)
deriving Inhabited

def Outcome.locate (place : Option Place) : Outcome → Outcome
  | failed f => failed (f.locate place)
  | out => out

inductive Task where
  | done (out : Outcome) (store : Store)
  /-- A child is to be evaluated in a scope, below the given number of further host activations. -/
  | visit (cost : Nat) (node : Node) (scope : FrameId) (store : Store)
      (resume : Outcome → Store → Task)
  | again (store : Store)

/-- A node under evaluation, and how many host activations are in use at it. -/
structure Activation where
  node : Node
  scope : FrameId
  depth : Nat

/-- The activations that the look-up of a name takes beyond its node. -/
def Costs.search (costs : Costs) (s : Store) (f : FrameId) (name : String) : Nat :=
  costs.link * s.reach f name + if (s.holder? f name).isSome then 0 else costs.refusal

theorem Costs.search_eq (costs : Costs) {s s' : Store} {f : FrameId} {name name' : String}
    (hparent : ∀ f, (s'.frame f).parent = (s.frame f).parent)
    (h : s'.holder? f name' = s.holder? f name) : costs.search s' f name' = costs.search s f name := by
  rw [search, search, Store.reach_eq_of_holder?_eq (fun g _ => hparent g) h, h]

namespace Task

def yield (v : Value) (s : Store) : Task := .done (.value v) s

def fail (fault : Fault) (s : Store) : Task := .done (.failed ⟨fault, none⟩) s

def onValue (k : Value → Store → Task) : Outcome → Store → Task
  | .value v, s => k v s
  | out, s => .done out s

def value (cost : Nat) (node : Node) (scope : FrameId) (s : Store) (k : Value → Store → Task) :
    Task :=
  .visit cost node scope s (onValue k)

def within (limits : Limits) (depth more : Nat) (s : Store) (task : Task) : Task :=
  if limits.allows (depth + more) then task else .done (.aborted .stack) s

theorem within_of_allows {limits : Limits} {depth more : Nat} {s : Store} {task : Task}
    (h : limits.allows (depth + more)) : within limits depth more s task = task :=
  if_pos h

theorem within_of_not_allows {limits : Limits} {depth more : Nat} {s : Store} {task : Task}
    (h : limits.allows (depth + more) = false) :
    within limits depth more s task = .done (.aborted .stack) s :=
  if_neg (by simp [h])

theorem within_cases {motive : Task → Prop} {limits : Limits} {depth more : Nat} {s : Store} {task : Task}
    (fits : motive task) (stops : motive (.done (.aborted .stack) s)) :
    motive (within limits depth more s task) := by
  unfold within
  split
  · exact fits
  · exact stops

def ofExcept (s : Store) : Except Fault Value → Task
  | .ok v => yield v s
  | .error fault => fail fault s

end Task

end Scripting
