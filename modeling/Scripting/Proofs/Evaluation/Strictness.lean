import Scripting.Evaluation.BigStep

/-!
No rule handles a failure, and none gives its own a place. Whenever a node that was asked for fails or is
aborted, the node that asked for it ends at once in the same way, with the store as it is then.
-/

set_option autoImplicit false

namespace Scripting

namespace Outcome

def isFailure : Outcome → Bool
  | .failed _ | .aborted _ => true
  | _ => false

def IsUnplaced : Outcome → Prop
  | .failed failure => failure.place = none
  | _ => True

end Outcome

/-- What the rule itself fails with has no place, and failures of the nodes that are asked for are passed
    on. -/
def Task.Plain : Task → Prop
  | .done out _ => out.IsUnplaced
  | .again _ => True
  | .visit _ _ _ _ resume =>
    (∀ out s, out.isFailure → resume out s = .done out s) ∧
      ∀ out s, out.isFailure = false → (resume out s).Plain

def Task.Strict : Task → Prop
  | .done _ _ | .again _ => True
  | .visit _ _ _ _ resume =>
    (∀ out s, out.isFailure → resume out s = .done out s) ∧ ∀ out s, (resume out s).Strict

namespace Task

variable {cost : Nat} {scope : FrameId} {s : Store}

theorem plain_value {n : Node} {k : Value → Store → Task} (hk : ∀ v t, (k v t).Plain) :
    (value cost n scope s k).Plain := by
  refine ⟨fun out t h => ?_, fun out t h => ?_⟩
  · cases out with
    | value | returned => cases h
    | failed | aborted => rfl
  · cases out with
    | value v => exact hk v t
    | returned => trivial
    | failed | aborted => cases h

theorem plain_ofExcept (r : Except Fault Value) : (ofExcept s r).Plain := by
  cases r <;> trivial

theorem plain_sequence (nodes : List Node) (last : Value) : (sequence cost scope nodes last s).Plain := by
  induction nodes generalizing last s with
  | nil => trivial
  | cons n nodes ih => exact plain_value fun v t => ih v

theorem plain_collect {k : List Value → Store → Task} (hk : ∀ vs t, (k vs t).Plain)
    (nodes : List Node) (seen : List Value) : (collect cost scope k nodes seen s).Plain := by
  induction nodes generalizing seen s with
  | nil => exact hk _ s
  | cons n nodes ih => exact plain_value fun v t => ih (v :: seen)

theorem plain_collectFields (fields : List (Field Node)) (seen : Table Value) :
    (collectFields scope fields seen s).Plain := by
  induction fields generalizing seen s with
  | nil => trivial
  | cons field fields ih => exact plain_value fun v t => ih _

theorem plain_test {keyword : String} {condition : Node} {k : Bool → Store → Task}
    (hk : ∀ b t, (k b t).Plain) : (test keyword condition scope s k).Plain := by
  refine plain_value fun v t => ?_
  cases v with
  | boolean b => exact hk b t
  | _ => trivial

theorem exists_done_of_native (fn : Native) (levels : Option Nat) (caller : FrameId)
    (receiver : Option Value) (args : List Value) (s : Store) :
    ∃ out t, fn.call levels caller receiver args s = .done out t := by
  unfold Native.call
  dsimp only
  repeat' split
  all_goals exact ⟨_, _, rfl⟩

theorem plain_native (fn : Native) (levels : Option Nat) (caller : FrameId) (receiver : Option Value)
    (args : List Value) : (fn.call levels caller receiver args s).Plain := by
  unfold Native.call
  dsimp only
  repeat' split
  all_goals trivial

theorem plain_leave {out : Outcome} (h : out.isFailure = false) : (leave out s).Plain := by
  cases out with
  | value | returned => trivial
  | failed | aborted => cases h

theorem plain_call (limits : Limits) (depth : Nat) (callee : Value) (caller : FrameId)
    (receiver : Option Value) (args : List Value) :
    (callee.call limits depth caller receiver args s).Plain := by
  cases callee with
  | native fn => exact plain_native fn (limits.levels depth) caller receiver args
  | function fn =>
    simp only [Value.call, Closure.call]
    split
    · trivial
    · refine ⟨fun out t h => ?_, fun out t h => plain_leave h⟩
      cases out with
      | value | returned => cases h
      | failed | aborted => rfl
  | _ => trivial

theorem plain_apply (limits : Limits) (depth : Nat) (callee : Value) (receiver : Option Value)
    (args : List Node) : (apply limits depth callee receiver args scope s).Plain := by
  unfold apply
  split
  · exact plain_collect (fun vs t => plain_call limits depth callee scope receiver vs) args []
  · trivial

theorem Plain.strict {task : Task} (h : task.Plain) : task.Strict := by
  induction task with
  | done | again => trivial
  | visit cost n scope s resume ih =>
    refine ⟨h.1, fun out t => ?_⟩
    cases hout : out.isFailure with
    | true =>
      rw [h.1 out t hout]
      trivial
    | false => exact ih out t (h.2 out t hout)

end Task

theorem Node.start_plain (limits : Limits) (depth : Nat) (scope : FrameId) (s : Store) (n : Node) :
    (n.start limits depth scope s).Plain := by
  cases n with
  | number w =>
    refine Task.within_cases ?_ trivial
    split <;> trivial
  | string w => exact Task.within_cases trivial trivial
  | boolean b w => exact Task.within_cases trivial trivial
  | name w =>
    refine Task.within_cases ?_ trivial
    split <;> trivial
  | binary op l r p =>
    exact Task.plain_value fun _ _ => Task.plain_value fun _ _ => Task.plain_ofExcept _
  | negate e p => exact Task.plain_value fun _ _ => Task.plain_ofExcept _
  | array items p =>
    refine Task.plain_collect (fun _ _ => ?_) items []
    trivial
  | record fields p => exact Task.plain_collectFields fields .empty
  | item base key p =>
    exact Task.plain_value fun _ _ => Task.plain_value fun _ _ => Task.plain_ofExcept _
  | setItem base key value p =>
    refine Task.plain_value fun _ _ => Task.plain_value fun _ _ => Task.plain_value fun _ _ => ?_
    split <;> trivial
  | call callee args q p => exact Task.plain_value fun _ _ => Task.plain_apply limits depth _ none args
  | methodCall receiver key args q p =>
    refine Task.plain_value fun _ _ => Task.plain_value fun _ _ => ?_
    split
    · exact Task.plain_apply limits depth _ _ args
    · trivial
  | assign w value p =>
    refine Task.plain_value fun _ _ => Task.within_cases ?_ trivial
    split <;> trivial
  | sequence body p => exact Task.plain_sequence body .nothing
  | block body p => exact Task.plain_sequence body .nothing
  | expression e p => exact Task.plain_value fun _ _ => trivial
  | declare w init p =>
    cases init with
    | none => trivial
    | some e => exact Task.plain_value fun _ _ => trivial
  | function w params body p => trivial
  | print e p =>
    refine Task.plain_value fun _ _ => ?_
    split <;> trivial
  | giveBack value p =>
    cases value with
    | none => trivial
    | some e => exact Task.plain_value fun _ _ => trivial
  | loop condition body p =>
    refine Task.plain_test fun b _ => ?_
    split
    · exact Task.plain_value fun _ _ => trivial
    · trivial
  | branch condition yes no p =>
    exact Task.plain_test fun _ _ => Task.plain_value fun _ _ => trivial
  | malformed defect p => cases defect <;> trivial

theorem Node.start_strict (limits : Limits) (depth : Nat) (scope : FrameId) (s : Store) (n : Node) :
    (n.start limits depth scope s).Strict :=
  (n.start_plain limits depth scope s).strict

end Scripting
