import Mathlib
import Scripting.Proofs.Evaluation.Legible
import Scripting.Proofs.Evaluation.Names
import Scripting.Proofs.Grammar.Places
import Scripting.Proofs.Node.Parts

/-!
How far a return goes. A node passes on the return of a node that it asked for, unless that is the body of
a function that it called: there the return ends the call. So a node without a return statement of its own
never ends with a return, whatever it calls, and an expression has none.
-/

set_option autoImplicit false

namespace Scripting

namespace Node

mutual

/-- A return statement stands in the node, outside the functions that are defined there. -/
def returns : Node → Bool
  | .giveBack _ _ => true
  | .number _ | .string _ | .boolean _ _ | .name _ | .function _ _ _ _ | .malformed _ _ => false
  | .binary _ l r _ => l.returns || r.returns
  | .negate e _ => e.returns
  | .array items _ => anyReturns items
  | .record fields _ => anyFieldReturns fields
  | .item b k _ => b.returns || k.returns
  | .call c args _ _ => c.returns || anyReturns args
  | .methodCall r k args _ _ => r.returns || (k.returns || anyReturns args)
  | .assign _ v _ => v.returns
  | .setItem b k v _ => b.returns || (k.returns || v.returns)
  | .sequence body _ | .block body _ => anyReturns body
  | .expression e _ => e.returns
  | .declare _ none _ => false
  | .declare _ (some e) _ => e.returns
  | .print e _ => e.returns
  | .loop c b _ => c.returns || b.returns
  | .branch c yes no _ => c.returns || (yes.returns || no.returns)
termination_by structural n => n

def anyReturns : List Node → Bool
  | [] => false
  | n :: ns => n.returns || anyReturns ns
termination_by structural ns => ns

def anyFieldReturns : List (Field Node) → Bool
  | [] => false
  | ⟨_, value, _⟩ :: fields => value.returns || anyFieldReturns fields
termination_by structural fields => fields

end

theorem anyReturns_eq_false_iff {ns : List Node} :
    anyReturns ns = false ↔ ∀ n ∈ ns, n.returns = false := by
  induction ns with
  | nil => simp [anyReturns]
  | cons n ns ih => simp [anyReturns, ih]

theorem anyFieldReturns_eq_false_iff {fields : List (Field Node)} :
    anyFieldReturns fields = false ↔ ∀ f ∈ fields, f.value.returns = false := by
  induction fields with
  | nil => simp [anyFieldReturns]
  | cons f fields ih => simp [anyFieldReturns, ih]

def isFunction : Node → Bool
  | .function _ _ _ _ => true
  | _ => false

theorem returns_eq_false_iff {n : Node} :
    n.returns = false ↔ n.isFunction ∨
      (∀ value p, n ≠ .giveBack value p) ∧ ∀ c ∈ n.children, c.returns = false := by
  cases n with
  | giveBack value p => simp [returns, isFunction]
  | declare w init p => cases init <;> simp [returns, isFunction, children]
  | record fields p => simp [returns, isFunction, children, anyFieldReturns_eq_false_iff]
  | _ => simp [returns, isFunction, children, anyReturns_eq_false_iff]

theorem returns_operand {n c : Node} (h : n.returns = false) (hc : c ∈ n.operands) : c.returns = false := by
  rcases returns_eq_false_iff.1 h with hf | ⟨-, hn⟩
  · cases n with
    | function => cases hc
    | _ => cases hf
  · exact hn c (mem_children_of_operands hc)

theorem isExpression_child {n c : Node} (h : n.isExpression) (hc : c ∈ n.children) : c.isExpression := by
  cases n with
  | block | function => cases h
  | _ => exact isExpression_operand h hc

theorem returns_of_isExpression {n : Node} (h : n.isExpression) : n.returns = false := by
  induction hs : sizeOf n using Nat.strongRecOn generalizing n with
  | _ size ih =>
    subst hs
    refine returns_eq_false_iff.2 (.inr ⟨?_, fun c hc => ?_⟩)
    · rintro value p rfl
      cases h
    · exact ih _ (sizeOf_child hc) (isExpression_child h hc) rfl

/-! The parts of a program. -/

/-- The nodes whose values the node works with: operands, arguments, keys, conditions, and what is to be
    bound, printed or returned. Statements that it runs are not among them. -/
def inputs : Node → List Node
  | .sequence _ _ | .block _ _ | .function _ _ _ _ => []
  | .loop c _ _ | .branch c _ _ _ => [c]
  | n => n.children

def isParsed (n : Node) : Bool :=
  n.isProgram || n.isStatement || n.isExpression

theorem isParsed_of_mem {ns : List Node} (h : areStatements ns) {n : Node} (hn : n ∈ ns) : n.isParsed := by
  induction ns with
  | nil => cases hn
  | cons m ns ih =>
    simp only [areStatements, Bool.and_eq_true] at h
    rcases List.mem_cons.1 hn with rfl | hn
    · simp [isParsed, h.1]
    · exact ih h.2 hn

theorem isParsed_of_isStatement {n : Node} (h : n.isStatement) : n.isParsed := by
  simp [isParsed, h]

theorem isParsed_of_isExpression {n : Node} (h : n.isExpression) : n.isParsed := by
  simp [isParsed, h]

theorem isExpression_input_of_isStatement {n c : Node} (h : n.isStatement) (hc : c ∈ n.inputs) :
    c.isExpression := by
  cases n with
  | block | function => cases hc
  | expression e p | print e p =>
    obtain rfl := List.mem_singleton.1 hc
    exact h
  | declare w init p | giveBack init p =>
    cases init with
    | none => cases hc
    | some e =>
      obtain rfl := List.mem_singleton.1 hc
      exact h
  | loop condition body p | branch condition yes no p =>
    simp only [isStatement, Bool.and_eq_true] at h
    obtain rfl := List.mem_singleton.1 hc
    simp only [h]
  | _ => cases h

theorem isExpression_input {n c : Node} (h : n.isParsed) (hc : c ∈ n.inputs) : c.isExpression := by
  simp only [isParsed, Bool.or_eq_true] at h
  rcases h with (h | h) | h
  · cases n with
    | sequence => cases hc
    | _ => cases h
  · exact isExpression_input_of_isStatement h hc
  · cases n with
    | sequence | block | function | loop | branch => cases h
    | _ => exact isExpression_child h hc

theorem isParsed_child_of_isStatement {n c : Node} (h : n.isStatement) (hc : c ∈ n.children) :
    c.isParsed := by
  have hinput (hc : c ∈ n.inputs) : c.isParsed :=
    isParsed_of_isExpression (isExpression_input_of_isStatement h hc)
  cases n with
  | block body p => exact isParsed_of_mem h hc
  | function w params body p =>
    obtain rfl := List.mem_singleton.1 hc
    cases c with
    | sequence body p =>
      simp only [isStatement, Bool.and_eq_true] at h
      simp [isParsed, isProgram, h.2]
    | _ => cases h
  | loop condition body p =>
    rcases List.mem_cons.1 hc with rfl | hc
    · exact hinput List.mem_cons_self
    · obtain rfl := List.mem_singleton.1 hc
      simp only [isStatement, Bool.and_eq_true] at h
      exact isParsed_of_isStatement h.2
  | branch condition yes no p =>
    rcases List.mem_cons.1 hc with rfl | hc
    · exact hinput List.mem_cons_self
    · simp only [isStatement, Bool.and_eq_true, Bool.or_eq_true] at h
      simp only [List.mem_cons, List.not_mem_nil, or_false] at hc
      rcases hc with rfl | rfl
      · exact isParsed_of_isStatement h.1.2
      · rcases h.2 with hno | ⟨-, hno⟩
        · -- without an `else` an empty list of statements stands there
          unfold isAbsent at hno
          split at hno
          · rfl
          · cases hno
        · exact isParsed_of_isStatement hno
  | expression | print | declare | giveBack => exact hinput hc
  | _ => cases h

theorem isParsed_child {n c : Node} (h : n.isParsed) (hc : c ∈ n.children) : c.isParsed := by
  simp only [isParsed, Bool.or_eq_true] at h
  rcases h with (h | h) | h
  · cases n with
    | sequence body p => exact isParsed_of_mem h hc
    | _ => cases h
  · exact isParsed_child_of_isStatement h hc
  · exact isParsed_of_isExpression (isExpression_child h hc)

theorem isParsed_of_within {m n : Node} (hm : m.Within n) (h : n.isParsed) : m.isParsed := by
  induction hm with
  | refl => exact h
  | child hc _ ih => exact ih (isParsed_child h hc)

end Node

theorem Program.Accepted.isParsed [Host] {program : Node} (h : Program.Accepted program) : program.isParsed := by
  obtain ⟨source, h⟩ := h
  obtain ⟨tiles, ns, -, ⟨d, -⟩, rfl⟩ := Program.parse_eq_ok_iff.1 h
  have hshape : Node.areStatements ns := d.hasShape
  simp [Node.isParsed, Node.isProgram, hshape]

/-! Evaluation. -/

def Outcome.isReturn : Outcome → Bool
  | .returned _ => true
  | _ => false

theorem Outcome.isReturn_locate (out : Outcome) (place : Option Place) :
    (out.locate place).isReturn = out.isReturn := by
  cases out <;> rfl

/-- The task does not end with a return, provided that of the nodes it asks for none does that has no return
    statement of its own. -/
def Task.Quiet : Task → Prop
  | .done out _ => out.isReturn = false
  | .again _ => True
  | .visit _ n _ _ resume =>
    ∀ out s, (n.returns = false → out.isReturn = false) → (resume out s).Quiet

namespace Task

variable {cost : Nat} {scope : FrameId} {s : Store}

theorem quiet_value {n : Node} {k : Value → Store → Task} (hn : n.returns = false)
    (hk : ∀ v t, (k v t).Quiet) : (value cost n scope s k).Quiet := by
  intro out t hout
  cases out with
  | value v => exact hk v t
  | returned v => cases hout hn
  | failed | aborted => rfl

theorem quiet_ofExcept (r : Except Fault Value) : (ofExcept s r).Quiet := by
  cases r <;> rfl

theorem quiet_sequence {nodes : List Node} (hn : ∀ n ∈ nodes, n.returns = false) (last : Value) :
    (sequence cost scope nodes last s).Quiet := by
  induction nodes generalizing last s with
  | nil => rfl
  | cons n nodes ih =>
    rw [List.forall_mem_cons] at hn
    exact quiet_value hn.1 fun v t => ih hn.2 v

theorem quiet_within {limits : Limits} {depth more : Nat} {task : Task} (h : task.Quiet) :
    (within limits depth more s task).Quiet :=
  within_cases h rfl

theorem quiet_collect {k : List Value → Store → Task} (hk : ∀ vs t, (k vs t).Quiet)
    {nodes : List Node} (hn : ∀ n ∈ nodes, n.returns = false) (seen : List Value) :
    (collect cost scope k nodes seen s).Quiet := by
  induction nodes generalizing seen s with
  | nil => exact hk _ s
  | cons n nodes ih =>
    rw [List.forall_mem_cons] at hn
    exact quiet_value hn.1 fun v t => ih hn.2 (v :: seen)

theorem quiet_collectFields {fields : List (Field Node)} (hn : ∀ f ∈ fields, f.value.returns = false)
    (seen : Table Value) : (collectFields scope fields seen s).Quiet := by
  induction fields generalizing seen s with
  | nil => rfl
  | cons field fields ih =>
    rw [List.forall_mem_cons] at hn
    exact quiet_value hn.1 fun v t => ih hn.2 _

theorem quiet_test {keyword : String} {condition : Node} {k : Bool → Store → Task}
    (hn : condition.returns = false) (hk : ∀ b t, (k b t).Quiet) :
    (test keyword condition scope s k).Quiet := by
  refine quiet_value hn fun v t => ?_
  cases v with
  | boolean b => exact hk b t
  | _ => rfl

theorem quiet_native (fn : Native) (levels : Option Nat) (caller : FrameId) (receiver : Option Value)
    (args : List Value) : (fn.call levels caller receiver args s).Quiet := by
  unfold Native.call
  dsimp only
  repeat' split
  all_goals rfl

theorem quiet_leave (out : Outcome) : (leave out s).Quiet := by
  cases out <;> rfl

theorem quiet_call (limits : Limits) (depth : Nat) (callee : Value) (caller : FrameId)
    (receiver : Option Value) (args : List Value) :
    (callee.call limits depth caller receiver args s).Quiet := by
  cases callee with
  | native fn => exact quiet_native fn (limits.levels depth) caller receiver args
  | function fn =>
    simp only [Value.call, Closure.call]
    split
    · rfl
    · exact fun out t _ => quiet_leave out
  | _ => rfl

theorem quiet_apply (limits : Limits) (depth : Nat) (callee : Value) (receiver : Option Value)
    {args : List Node} (hn : ∀ n ∈ args, n.returns = false) :
    (apply limits depth callee receiver args scope s).Quiet := by
  unfold apply
  split
  · exact quiet_collect (fun vs t => quiet_call limits depth callee scope receiver vs) hn []
  · rfl

end Task

theorem Node.start_quiet (limits : Limits) (depth : Nat) (scope : FrameId) (s : Store) {n : Node}
    (h : n.returns = false) : (n.start limits depth scope s).Quiet := by
  have hop : ∀ c ∈ n.operands, c.returns = false := fun c hc => returns_operand h hc
  cases n with
  | number w =>
    refine Task.quiet_within ?_
    split <;> rfl
  | string w => exact Task.quiet_within rfl
  | boolean b w => exact Task.quiet_within rfl
  | name w =>
    refine Task.quiet_within ?_
    split <;> rfl
  | binary op l r p =>
    simp only [operands, children, List.forall_mem_cons] at hop
    exact Task.quiet_value hop.1 fun _ _ => Task.quiet_value hop.2.1 fun _ _ => Task.quiet_ofExcept _
  | negate e p =>
    exact Task.quiet_value h fun _ _ => Task.quiet_ofExcept _
  | array items p =>
    refine Task.quiet_collect ?_ hop []
    exact fun _ _ => rfl
  | record fields p => exact Task.quiet_collectFields (List.forall_mem_map.1 hop) .empty
  | item base key p =>
    simp only [operands, children, List.forall_mem_cons] at hop
    exact Task.quiet_value hop.1 fun _ _ => Task.quiet_value hop.2.1 fun _ _ => Task.quiet_ofExcept _
  | setItem base key value p =>
    simp only [operands, children, List.forall_mem_cons] at hop
    refine Task.quiet_value hop.1 fun _ _ => Task.quiet_value hop.2.1 fun _ _ =>
      Task.quiet_value hop.2.2.1 fun _ _ => ?_
    split <;> rfl
  | call callee args q p =>
    simp only [operands, children, List.forall_mem_cons] at hop
    exact Task.quiet_value hop.1 fun _ _ => Task.quiet_apply limits depth _ none hop.2
  | methodCall receiver key args q p =>
    simp only [operands, children, List.forall_mem_cons] at hop
    refine Task.quiet_value hop.1 fun _ _ => Task.quiet_value hop.2.1 fun _ _ => ?_
    split
    · exact Task.quiet_apply limits depth _ _ hop.2.2
    · rfl
  | assign w value p =>
    refine Task.quiet_value h fun _ _ => Task.quiet_within ?_
    split <;> rfl
  | sequence body p => exact Task.quiet_sequence hop .nothing
  | block body p => exact Task.quiet_sequence (anyReturns_eq_false_iff.1 h) .nothing
  | expression e p => exact Task.quiet_value h fun _ _ => rfl
  | declare w init p =>
    cases init with
    | none => rfl
    | some e => exact Task.quiet_value h fun _ _ => rfl
  | function w params body p => rfl
  | print e p =>
    refine Task.quiet_value h fun _ _ => ?_
    split <;> rfl
  | giveBack value p => cases h
  | loop condition body p =>
    simp only [operands, children, List.forall_mem_cons] at hop
    refine Task.quiet_test hop.1 fun b _ => ?_
    split
    · exact Task.quiet_value hop.2.1 fun _ _ => trivial
    · rfl
  | branch condition yes no p =>
    simp only [operands, children, List.forall_mem_cons] at hop
    refine Task.quiet_test hop.1 fun b _ => Task.quiet_value ?_ fun _ _ => rfl
    cases b
    · exact hop.2.2.1
    · exact hop.2.1
  | malformed defect p => cases defect <;> rfl

section Recursion

variable {limits : Limits} {a : Activation} {s t : Store} {out : Outcome}

theorem Task.Quiet.carryOut {eval : Activation → Store → Option (Outcome × Store)}
    (heval : ∀ a s out t, a.node.returns = false → eval a s = some (out, t) → out.isReturn = false)
    (ha : a.node.returns = false) {task : Task} (h : task.Quiet)
    (hr : task.carryOut limits eval a = some (out, t)) : out.isReturn = false := by
  induction task with
  | done last u =>
    cases hr
    exact (last.isReturn_locate a.node.place).trans h
  | visit cost n scope u resume ih =>
    simp only [Task.carryOut] at hr
    split at hr
    · cases he : eval ⟨n, scope, a.depth + cost⟩ u with
      | none => rw [he] at hr; cases hr
      | some r =>
        rw [he] at hr
        exact ih _ _ (h _ _ fun hn => heval _ _ _ _ hn he) hr
    · exact ih _ _ (h _ _ fun _ => rfl) hr
  | again u => exact heval a u out t ha hr

theorem Activation.eval_quiet {fuel : Nat} (ha : a.node.returns = false)
    (hr : a.eval limits fuel s = some (out, t)) : out.isReturn = false := by
  induction fuel generalizing a s out t with
  | zero => cases hr
  | succ fuel ih => exact (Node.start_quiet limits _ _ s ha).carryOut (fun _ _ _ _ => ih) ha hr

theorem Machine.run_quiet {steps : Nat} {task : Task} (ha : a.node.returns = false) (h : task.Quiet)
    (hr : run limits steps task a [] = some (out, t)) : out.isReturn = false := by
  obtain ⟨fuel, m, r, hcarry, -, hlast⟩ := carryOut_of_run _ _ _ _ _ hr
  cases hlast
  exact h.carryOut (fun _ _ _ _ => Activation.eval_quiet) ha hcarry

theorem Machine.run_start_quiet {steps : Nat} (ha : a.node.returns = false)
    (hr : run limits steps (a.node.start limits a.depth a.scope s) a [] = some (out, t)) :
    out.isReturn = false :=
  run_quiet ha (Node.start_quiet limits a.depth a.scope s ha) hr

end Recursion

theorem Program.execute_eq_ok_iff [Host] {calls steps : Nat} {program : Node} {scope : FrameId} {s t : Store}
    {v : Value} :
    execute calls steps program scope s = some (.ok v, t) ↔ nesting calls ≤ maxNesting ∧
      (Machine.evaluate (limits calls) steps program scope s = some (.value v, t) ∨
        Machine.evaluate (limits calls) steps program scope s = some (.returned v, t)) := by
  have hresult (out : Outcome) : result out = .ok v ↔ out = .value v ∨ out = .returned v := by
    unfold result
    split <;> simp
  unfold execute
  split
  · simp only [Option.some.injEq, Prod.mk.injEq, reduceCtorEq, false_and, false_iff]
    omega
  · simp only [Option.map_eq_some_iff, Prod.exists, Prod.mk.injEq, hresult, Nat.not_lt.1 ‹_›, true_and]
    constructor
    · rintro ⟨out, u, hrun, rfl | rfl, rfl⟩
      · exact .inl hrun
      · exact .inr hrun
    · rintro (hrun | hrun)
      · exact ⟨_, _, hrun, .inl rfl, rfl⟩
      · exact ⟨_, _, hrun, .inr rfl, rfl⟩

/-- A return comes only from a return statement of the node that is evaluated, outside the functions in it. So
    neither an expression nor a call nor a program ends with one. -/
theorem returns_stay_in_their_function [Host] (limits : Limits) (steps : Nat) (s : Store) :
    (∀ a : Activation, a.node.returns = false → ∀ v t,
      Machine.run limits steps (a.node.start limits a.depth a.scope s) a [] ≠ some (.returned v, t)) ∧
    (∀ a : Activation, a.node.isExpression → ∀ v t,
      Machine.run limits steps (a.node.start limits a.depth a.scope s) a [] ≠ some (.returned v, t)) ∧
    (∀ program, Program.Accepted program → ∀ n : Node, n.Within program → ∀ c ∈ n.inputs, ∀ scope depth v t,
      Machine.run limits steps (c.start limits depth scope s) ⟨c, scope, depth⟩ [] ≠
        some (.returned v, t)) ∧
    (∀ callee caller receiver args v t,
      Machine.call limits steps callee caller receiver args s ≠ some (.returned v, t)) ∧
    (∀ calls program scope v t,
      Program.execute calls steps program scope s = some (.ok v, t) ↔
        Program.nesting calls ≤ Program.maxNesting ∧
        (Machine.evaluate (Program.limits calls) steps program scope s = some (.value v, t) ∨
          Machine.evaluate (Program.limits calls) steps program scope s = some (.returned v, t))) := by
  refine ⟨fun a ha v t hr => ?_, fun a ha v t hr => ?_, fun program hp n hn c hc scope depth v t hr => ?_,
    fun callee caller receiver args v t hr => ?_, fun calls program scope v t => ?_⟩
  · cases Machine.run_start_quiet ha hr
  · cases Machine.run_start_quiet (Node.returns_of_isExpression ha) hr
  · have hexpr : c.isExpression := Node.isExpression_input (Node.isParsed_of_within hn hp.isParsed) hc
    have hquiet : (⟨c, scope, depth⟩ : Activation).node.returns = false :=
      Node.returns_of_isExpression hexpr
    cases Machine.run_start_quiet hquiet hr
  · cases Machine.run_quiet rfl (Task.quiet_call limits 0 callee caller receiver args) hr
  · exact Program.execute_eq_ok_iff

theorem returns_stay_in_their_function_loop :
    ∃ f e p q v t,
      Program.parse "fun f(n) \x7b while (n) \x7b return 7; \x7d \x7d print [f(true)];" =
        .ok (.sequence [f, .print e p] q) ∧
      (Node.sequence [f, .print e p] q).returns = false ∧
      Program.execute 50 200 (.sequence [f, .print e p] q) (Store.empty.newRoot none).1
        (Store.empty.newRoot none).2 = some (.ok v, t) ∧
      t.output = "[7]\n" ∧
      ∀ limits steps scope s u, Machine.evaluate limits steps e scope s ≠ some (.returned v, u) := by
  obtain ⟨f, e, p, q, v, t, hparse, hreturns, hrun, hout⟩ :
      ∃ f e p q v t,
        Program.parse "fun f(n) \x7b while (n) \x7b return 7; \x7d \x7d print [f(true)];" =
          .ok (.sequence [f, .print e p] q) ∧
        (Node.sequence [f, .print e p] q).returns = false ∧
        Program.execute 50 200 (.sequence [f, .print e p] q) (Store.empty.newRoot none).1
          (Store.empty.newRoot none).2 = some (.ok v, t) ∧
        t.output = "[7]\n" :=
    ⟨_, _, _, _, _, _, by cbv, by cbv, by cbv, by cbv⟩
  have hwithin : (Node.print e p).Within (.sequence [f, .print e p] q) :=
    .child (List.mem_cons_of_mem f List.mem_cons_self) (.refl _)
  refine ⟨f, e, p, q, v, t, hparse, hreturns, hrun, hout, fun limits steps scope s u => ?_⟩
  obtain ⟨-, -, hinputs, -⟩ := returns_stay_in_their_function limits steps s
  exact hinputs _ ⟨_, hparse⟩ _ hwithin e List.mem_cons_self scope 0 v u

end Scripting
