import Scripting.Evaluation.Rules

/-!
Evaluation by recursion on nodes. A node's task is carried out with the outcomes of the nodes it asks
for, each evaluated with one unit of fuel less. The machine ends with a result exactly if some fuel
gives that result (`Machine.evaluate_iff`), so that what holds of evaluation by recursion holds of
what the machine does.
-/

set_option autoImplicit false

namespace Scripting

/-- Carries out the task of an active node; `eval` evaluates the nodes it asks for. -/
def Task.carryOut (limits : Limits) (eval : Activation → Store → Option (Outcome × Store))
    (active : Activation) : Task → Option (Outcome × Store)
  | .done out s => some (out.locate active.node.place, s)
  | .visit cost node scope s resume =>
    if limits.allows (active.depth + cost) then
      match eval ⟨node, scope, active.depth + cost⟩ s with
      | none => none
      | some (out, s) => (resume out s).carryOut limits eval active
    else (resume (.aborted .stack) s).carryOut limits eval active
  | .again s => eval active s

def Activation.eval (limits : Limits) : Nat → Activation → Store → Option (Outcome × Store)
  | 0, _, _ => none
  | fuel + 1, active, s =>
    (active.node.start limits active.depth active.scope s).carryOut limits (Activation.eval limits fuel) active

theorem Task.carryOut_mono {limits : Limits}
    {eval eval' : Activation → Store → Option (Outcome × Store)}
    (h : ∀ a s r, eval a s = some r → eval' a s = some r) (active : Activation) (task : Task)
    (r : Outcome × Store) (hr : task.carryOut limits eval active = some r) :
    task.carryOut limits eval' active = some r := by
  induction task with
  | done out s => exact hr
  | visit cost node scope s resume ih =>
    simp only [Task.carryOut] at hr ⊢
    by_cases ha : limits.allows (active.depth + cost) = true
    · rw [if_pos ha] at hr ⊢
      cases he : eval ⟨node, scope, active.depth + cost⟩ s with
      | none => rw [he] at hr; cases hr
      | some p =>
        rw [he] at hr
        rw [h _ _ _ he]
        exact ih _ _ hr
    · rw [if_neg ha] at hr ⊢
      exact ih _ _ hr
  | again s => exact h _ _ _ hr

theorem Activation.eval_mono {limits : Limits} {fuel more : Nat} (hle : fuel ≤ more)
    (a : Activation) (s : Store) (r : Outcome × Store) (hr : a.eval limits fuel s = some r) :
    a.eval limits more s = some r := by
  induction fuel generalizing more a s r with
  | zero => cases hr
  | succ fuel ih =>
    cases more with
    | zero => omega
    | succ more => exact Task.carryOut_mono (fun a s r => ih (by omega) a s r) _ _ _ hr

namespace Machine

def deliver (limits : Limits) (steps : Nat) (r : Outcome × Store) :
    List Waiting → Option (Outcome × Store)
  | [] => some r
  | waiting :: stack => run limits steps (waiting.resume r.1 r.2) waiting.activation stack

theorem run_of_carryOut {limits : Limits} {eval : Activation → Store → Option (Outcome × Store)}
    (h : ∀ a s r, eval a s = some r → ∃ k, ∀ steps stack,
      run limits (steps + k) (a.node.start limits a.depth a.scope s) a stack = deliver limits steps r stack)
    (active : Activation) (task : Task) (r : Outcome × Store)
    (hr : task.carryOut limits eval active = some r) :
    ∃ k, ∀ steps stack,
      run limits (steps + k) task active stack = deliver limits steps r stack := by
  induction task with
  | done out s =>
    cases hr
    exact ⟨1, fun steps stack => by cases stack <;> rfl⟩
  | visit cost node scope s resume ih =>
    simp only [Task.carryOut] at hr
    by_cases ha : limits.allows (active.depth + cost) = true
    · rw [if_pos ha] at hr
      cases he : eval ⟨node, scope, active.depth + cost⟩ s with
      | none => rw [he] at hr; cases hr
      | some p =>
        rw [he] at hr
        obtain ⟨k, hk⟩ := h _ _ _ he
        obtain ⟨m, hm⟩ := ih _ _ hr
        -- One step leads to the child, `k` steps through it, and `m` to the end of the task.
        refine ⟨m + k + 1, fun steps stack => ?_⟩
        rw [show steps + (m + k + 1) = (steps + m + k) + 1 by omega, run]
        simp only [ha, if_true]
        rw [hk]
        exact hm steps stack
    · rw [if_neg ha] at hr
      obtain ⟨m, hm⟩ := ih _ _ hr
      refine ⟨m + 1, fun steps stack => ?_⟩
      rw [show steps + (m + 1) = (steps + m) + 1 by omega, run]
      simp only [ha]
      exact hm steps stack
  | again s =>
    obtain ⟨k, hk⟩ := h _ _ _ hr
    exact ⟨k + 1, fun steps stack => hk steps stack⟩

theorem run_of_eval {limits : Limits} (fuel : Nat) (a : Activation) (s : Store)
    (r : Outcome × Store) (hr : a.eval limits fuel s = some r) :
    ∃ k, ∀ steps stack,
      run limits (steps + k) (a.node.start limits a.depth a.scope s) a stack =
        deliver limits steps r stack := by
  induction fuel generalizing a s r with
  | zero => cases hr
  | succ fuel ih => exact run_of_carryOut ih _ _ _ hr

theorem carryOut_of_run {limits : Limits} (steps : Nat) (task : Task) (active : Activation)
    (stack : List Waiting) (r : Outcome × Store)
    (hr : run limits steps task active stack = some r) :
    ∃ fuel m p, task.carryOut limits (Activation.eval limits fuel) active = some p ∧ m < steps ∧
      deliver limits m p stack = some r := by
  induction steps using Nat.strongRecOn generalizing task active stack r with
  | _ steps ih =>
    cases steps with
    | zero => cases hr
    | succ steps =>
      cases task with
      | done out s =>
        refine ⟨0, steps, (out.locate active.node.place, s), rfl, by omega, ?_⟩
        cases stack <;> exact hr
      | visit cost node scope s resume =>
        rw [run] at hr
        simp only at hr
        by_cases ha : limits.allows (active.depth + cost) = true
        · rw [if_pos ha] at hr
          obtain ⟨f, k, p, hp, hk, hd⟩ := ih steps (by omega) _ _ _ _ hr
          obtain ⟨g, m, q, hq, hm, he⟩ := ih k (by omega) _ _ _ _ hd
          -- The child and what is left of the task each come with a fuel of their own.
          refine ⟨max (f + 1) g, m, q, ?_, by omega, he⟩
          have first : Activation.eval limits (f + 1) ⟨node, scope, active.depth + cost⟩ s = some p :=
            hp
          have child := Activation.eval_mono (show f + 1 ≤ max (f + 1) g by omega) _ _ _ first
          simp only [Task.carryOut, ha, if_true, child]
          exact Task.carryOut_mono (fun a s r => Activation.eval_mono (by omega) a s r) _ _ _ hq
        · rw [if_neg ha] at hr
          obtain ⟨f, k, p, hp, hk, hd⟩ := ih steps (by omega) _ _ _ _ hr
          refine ⟨f, k, p, ?_, by omega, hd⟩
          simp only [Task.carryOut, ha]
          exact hp
      | again s =>
        obtain ⟨f, k, p, hp, hk, hd⟩ := ih steps (by omega) _ _ _ _ hr
        exact ⟨f + 1, k, p, hp, by omega, hd⟩

/-- The machine ends with a result exactly if evaluation by recursion has it. -/
theorem evaluate_iff {limits : Limits} {node : Node} {scope : FrameId} {s : Store}
    {r : Outcome × Store} :
    (∃ steps, evaluate limits steps node scope s = some r) ↔
      ∃ fuel, Activation.eval limits fuel ⟨node, scope, 0⟩ s = some r := by
  constructor
  · rintro ⟨steps, h⟩
    obtain ⟨fuel, m, p, hp, -, hd⟩ := carryOut_of_run _ _ _ _ _ h
    cases hd
    exact ⟨fuel + 1, hp⟩
  · rintro ⟨fuel, h⟩
    obtain ⟨k, hk⟩ := run_of_eval _ _ _ _ h
    exact ⟨0 + k, hk 0 []⟩

end Machine

end Scripting
