import Scripting.Evaluation.Task
import Scripting.Store.Render

/-!
Calls of host functions and of functions that a program defines.
-/

set_option autoImplicit false

namespace Scripting

/-- Calls a host function that can write values of so many levels. An array to which it is bound goes before
    the receiver of the call. -/
def Native.call (levels : Option Nat) (fn : Native) (caller : FrameId) (receiver : Option Value)
    (args : List Value) (s : Store) : Task :=
  let receiver := fn.bound.map Value.array <|> receiver
  match fn.host with
  | .printLine =>
    match args.mapM (s.display levels) with
    | some texts => .yield .nothing (s.write (" ".intercalate texts ++ "\n"))
    | none => .done (.aborted (.text levels)) s
  | .typeName =>
    match args with
    | [v] => .yield (.string v.typeName) s
    | _ => .fail (.typeNameArity args.length) s
  | .push =>
    match receiver with
    | some (.array a) => .yield .nothing (s.modifyArray a (· ++ args.toArray))
    | other => .fail (.pushReceiver (other.map Value.typeName)) s
  | .receiver => .yield (receiver.getD .nothing) s
  | .argumentCount => .yield (.number args.length) s
  | .argumentArray =>
    let (a, s) := s.newArray args.toArray
    .yield (.array a) s
  | .callDepth => .yield (.number (s.frame caller).depth) s
  | .nothing => .yield .nothing s
  | .foreign type => .fail (.foreignResult fn.name type) s

def Store.bind (s : Store) (f : FrameId) : List String → List Value → Store
  | [], _ => s
  | name :: names, [] => (s.define f name .nothing).bind f names []
  | name :: names, v :: vs => (s.define f name v).bind f names vs

def Task.leave : Outcome → Store → Task
  | .returned v, s => .yield v s
  | .value _, s => .yield .nothing s
  | out, s => .done out s

/-- Calls a function of the program. Its frame stands inside the frame it was defined in, not inside
    that of the caller. -/
def Closure.call (limits : Limits) (fn : Closure) (caller : FrameId) (args : List Value)
    (s : Store) : Task :=
  let depth := (s.frame caller).depth + 1
  if (limits.calls : Int) < depth then .fail (.callDepth limits.calls fn.name) s
  else
    let (f, s) := s.newFrame (some fn.scope) none (some depth)
    .visit 6 fn.body f (s.bind f fn.params args) .leave

def Value.call (limits : Limits) (depth : Nat) (callee : Value) (caller : FrameId)
    (receiver : Option Value) (args : List Value) (s : Store) : Task :=
  match callee with
  | .native fn => fn.call (limits.levels depth) caller receiver args s
  | .function fn => fn.call limits caller args s
  | v => .fail (.notCallable v.typeName) s

end Scripting
