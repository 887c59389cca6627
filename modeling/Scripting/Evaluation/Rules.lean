import Scripting.Evaluation.Call
import Scripting.Number
import Scripting.Store.Item
import Scripting.Text.Numeral

/-!
The rules of evaluation, one a node, and the machine that carries them out. The number that goes with a child
is that of the host activations between the node and the child. Nodes that wait for a child stand on a stack,
so that the machine itself needs none; it stops after a given number of steps.
-/

set_option autoImplicit false

namespace Scripting

namespace Task

def sequence (cost : Nat) (scope : FrameId) : List Node → Value → Store → Task
  | [], last, s => .yield last s
  | n :: ns, _, s => .value cost n scope s fun v s => sequence cost scope ns v s

/-- Evaluates nodes from left to right and goes on with their values; `seen` are those so far, the
    latest first. -/
def collect (cost : Nat) (scope : FrameId) (k : List Value → Store → Task) :
    List Node → List Value → Store → Task
  | [], seen, s => k seen.reverse s
  | n :: ns, seen, s => .value cost n scope s fun v s => collect cost scope k ns (v :: seen) s

def collectFields (scope : FrameId) : List (Field Node) → Table Value → Store → Task
  | [], seen, s =>
    let (r, s) := s.newRecord seen
    .yield (.record r) s
  | ⟨key, node, _⟩ :: fields, seen, s =>
    .value 4 node scope s fun v s => collectFields scope fields (seen.put key.text v) s

def test (keyword : String) (condition : Node) (scope : FrameId) (s : Store)
    (k : Bool → Store → Task) : Task :=
  .value 5 condition scope s fun v s =>
    match v with
    | .boolean b => k b s
    | v => .fail (.conditionType keyword v.typeName) s

/-- Evaluates the arguments of a call and makes the call; what cannot be called is refused before. -/
def apply (limits : Limits) (depth : Nat) (callee : Value) (receiver : Option Value)
    (args : List Node) (scope : FrameId) (s : Store) : Task :=
  if callee.isCallable then
    collect (5 + limits.costs.list) scope (fun vs s => callee.call limits depth scope receiver vs s) args [] s
  else .fail (.notCallable callee.typeName) s

def ofDefect (defect : Defect) (s : Store) : Task :=
  match defect with
  | .unknownLabel label => .fail (.unknownLabel label) s
  | .unknownToken kind text => .fail (.unknownToken kind text) s
  | .notIdentifier role => .fail (.notIdentifier role) s
  | .malformedFunction => .fail .malformedFunction s
  | .wrongShape => .done (.aborted .unreadable) s

end Task

def Node.start (limits : Limits) (depth : Nat) (scope : FrameId) (s : Store) : Node → Task
  | .number w =>
    .within limits depth limits.costs.literal s <|
    match Text.integer? w.text with
    | some n => .yield (.number n) s
    | none => .done (.aborted .unreadable) s
  | .string w => .within limits depth limits.costs.literal s (.yield (.string w.text) s)
  | .boolean b _ => .within limits depth limits.costs.literal s (.yield (.boolean b) s)
  | .name w =>
    .within limits depth (limits.costs.search s scope w.text) s <|
    match s.get? scope w.text with
    | some v => .yield v s
    | none => .fail (.unknownName w.text) s
  | .binary op left right _ =>
    .value 4 left scope s fun a s =>
    .value 4 right scope s fun b s =>
    .ofExcept s (Value.operate op.symbol a b)
  | .negate operand _ => .value 4 operand scope s fun v s => .ofExcept s v.negate
  | .array items _ =>
    .collect (4 + limits.costs.list) scope (fun vs s =>
      let (a, s) := s.newArray vs.toArray
      .yield (.array a) s) items [] s
  | .record fields _ => .collectFields scope fields .empty s
  | .item base key _ =>
    .value 4 base scope s fun b s =>
    .value 4 key scope s fun k s =>
    .ofExcept s (s.getItem b k)
  | .setItem base key value _ =>
    .value 4 base scope s fun b s =>
    .value 4 key scope s fun k s =>
    .value 4 value scope s fun v s =>
    match s.slot b k with
    | .ok slot => .yield v (s.fill v slot)
    | .error fault => .fail fault s
  | .call callee args _ _ =>
    .value 4 callee scope s fun c s => .apply limits depth c none args scope s
  | .methodCall receiver key args _ _ =>
    .value 4 receiver scope s fun r s =>
    .value 4 key scope s fun k s =>
    match s.getItem r k with
    | .ok c => .apply limits depth c (some r) args scope s
    | .error fault => .fail fault s
  | .assign target value _ =>
    .value 4 value scope s fun v s =>
    .within limits depth (1 + limits.costs.search s scope target.text) s <|
    match s.holder? scope target.text with
    | some holder => .yield v (s.define holder target.text v)
    | none => .fail (.unknownName target.text) s
  | .sequence body _ => .sequence 4 scope body .nothing s
  | .block body _ =>
    let (inner, s) := s.newFrame (some scope) none none
    .sequence 5 inner body .nothing s
  | .expression value _ => .value 3 value scope s .yield
  | .declare w none _ => .yield .nothing (s.define scope w.text .nothing)
  | .declare w (some init) _ =>
    .value 4 init scope s fun v s => .yield v (s.define scope w.text v)
  | .function w params body _ =>
    let closure := ⟨w.text, params.names.map (·.text), body, scope⟩
    .yield .nothing (s.define scope w.text (.function closure))
  | .print value _ =>
    .value 4 value scope s fun v s =>
    match s.display (limits.levels depth) v with
    | some text => .yield v (s.write (text ++ "\n"))
    | none => .done (.aborted (.text (limits.levels depth))) s
  | .giveBack none _ => .done (.returned .nothing) s
  | .giveBack (some value) _ => .value 4 value scope s fun v s => .done (.returned v) s
  | .loop condition body _ =>
    .test "while" condition scope s fun b s =>
    if b then .value 4 body scope s fun _ s => .again s else .yield .nothing s
  | .branch condition yes no _ =>
    .test "if" condition scope s fun b s =>
    .value 4 (if b then yes else no) scope s .yield
  | .malformed defect _ => .ofDefect defect s

namespace Machine

/-- A node that waits for a child, and what it does with the child's outcome. -/
structure Waiting where
  activation : Activation
  resume : Outcome → Store → Task

def run (limits : Limits) : Nat → Task → Activation → List Waiting → Option (Outcome × Store)
  | 0, _, _, _ => none
  | steps + 1, task, active, stack =>
    match task with
    | .done out s =>
      match stack with
      | [] => some (out.locate active.node.place, s)
      | waiting :: stack =>
        run limits steps (waiting.resume (out.locate active.node.place) s) waiting.activation stack
    | .visit cost node scope s resume =>
      let child : Activation := ⟨node, scope, active.depth + cost⟩
      if limits.allows child.depth then
        run limits steps (node.start limits child.depth scope s) child (⟨active, resume⟩ :: stack)
      else
        run limits steps (resume (.aborted .stack) s) active stack
    | .again s => run limits steps (active.node.start limits active.depth active.scope s) active stack

def evaluate (limits : Limits) (steps : Nat) (node : Node) (scope : FrameId) (s : Store) :
    Option (Outcome × Store) :=
  run limits steps (node.start limits 0 scope s) ⟨node, scope, 0⟩ []

def call (limits : Limits) (steps : Nat) (callee : Value) (caller : FrameId)
    (receiver : Option Value) (args : List Value) (s : Store) : Option (Outcome × Store) :=
  run limits steps (callee.call limits 0 caller receiver args s) ⟨.sequence [] none, caller, 0⟩ []

end Machine

end Scripting
