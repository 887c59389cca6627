import Scripting.Node.Basic

/-!
Values. Numbers, strings and booleans stand for themselves; arrays and records are references into a
store, so that every alias of one sees the same content.
-/

set_option autoImplicit false

namespace Scripting

structure ArrayId where
  index : Nat
deriving DecidableEq, Repr

structure RecordId where
  index : Nat
deriving DecidableEq, Repr

structure FrameId where
  index : Nat
deriving DecidableEq, Repr

structure Closure where
  name : String
  params : List String
  body : Node
  scope : FrameId

/-- What a host function does. The first three are those of every program; an embedding host may offer
    the others. -/
inductive HostFunction where
  | printLine
  | typeName
  | push
  | receiver
  | argumentCount
  | argumentArray
  | callDepth
  | nothing
  /-- An object that is no value; the name is that of its type. -/
  | foreign (type : String)
deriving DecidableEq, Repr

/-- A host function under a name, bound to an array if it was taken from one. -/
structure Native where
  name : String
  host : HostFunction
  bound : Option ArrayId
deriving DecidableEq, Repr

inductive Value where
  | nothing
  | number (n : Int)
  | string (text : String)
  | boolean (b : Bool)
  | array (ref : ArrayId)
  | record (ref : RecordId)
  | function (closure : Closure)
  | native (fn : Native)
deriving Inhabited

namespace Value

def typeName : Value → String
  | nothing => "nothing"
  | number _ => "number"
  | string _ => "string"
  | boolean _ => "boolean"
  | array _ => "array"
  | record _ => "object"
  | function _ => "function"
  | native _ => "native"

def isCallable : Value → Bool
  | function _ | native _ => true
  | _ => false

end Value

end Scripting
